import Buildbox.Proofs.Host.Moving
import Buildbox.Proofs.Host.Opened

/-! Opening paths. An open that succeeds adds one descriptor; before that it may make one empty file
where nothing was, or cut the file that is there, and it does nothing else. -/

namespace Buildbox.Host

def descriptorFor (i : Nat) (path : List String) (append : Bool) : Entry → Descriptor
  | .file _ => .file i path 0 append
  | .dir _ => .dir i path false

/-- What is at a place, or can be made there, and the flags that may meet it. -/
inductive Openable (h : Host) (flags : OpenFlags) (i : Nat) (path : List String) : Prop where
  | dir {d} (he : h.nodeAt? i path = some (.dir d)) (hx : ¬ (flags.create ∧ flags.exclusive))
    (ht : flags.truncate = false)
  | file {bytes} (he : h.nodeAt? i path = some (.file bytes))
    (hx : ¬ (flags.create ∧ flags.exclusive)) (hf : flags.directory = false)
  | free {ps n d} (hpath : path = ps ++ [n]) (hd : h.dirAt? i ps = some d) (hn : d.get? n = none)
    (hc : flags.create = true) (hf : flags.directory = false)

inductive Prepared (h : Host) (flags : OpenFlags) (i : Nat) (path : List String) (h' : Host) :
    Prop where
  | found {e} (he : h.nodeAt? i path = some e) (hm : h'.mounts = h.mounts)
    (hb : h'.fileBudget = h.fileBudget)
  | made {ps n d} (hc : flags.create = true) (hnone : h.nodeAt? i path = none)
    (hpath : path = ps ++ [n]) (hd : h.dirAt? i ps = some d)
    (hnew : h'.nodeAt? i path = some (.file []))
    (hkept : ∀ j qs, (i, path) ≠ (j, qs) → h'.kindAt? j qs = h.kindAt? j qs)
    (hb : h'.fileBudget = h.fileBudget)
  | cut {bytes} (ht : flags.truncate = true) (hfile : h.nodeAt? i path = some (.file bytes))
    (hnew : h'.nodeAt? i path = some (.file []))
    (hkept : ∀ j qs, (i, path) ≠ (j, qs) → h'.kindAt? j qs = h.kindAt? j qs)
    (hb : h'.fileBudget.toNat = min (h.fileBudget.toNat + bytes.length) (UInt64.size - 1))

/-- What an open of a place has done once it has answered a number. -/
structure Opened (h : Host) (flags : OpenFlags) (append : Bool) (i : Nat) (path : List String)
    (fd : Fd) (h' : Host) : Prop where
  trees : Prepared h flags i path h'
  new : (∃ n, h.fds.get? n = none) → h.fds.get? fd = none
  table : ∃ e, h'.nodeAt? i path = some e ∧ ∀ n, h'.fds.get? n =
    if fd = n then some (descriptorFor i path append e) else h.fds.get? n
  exclusive : flags.create = true → flags.exclusive = true → h.nodeAt? i path = none
  directory : flags.directory = true →
    h'.mounts = h.mounts ∧ ∃ d, h.nodeAt? i path = some (.dir d)
  standing : ∀ j qs k, h.kindAt? j qs = some k → h'.kindAt? j qs = some k ∨
    flags.truncate = true ∧ (j, qs) = (i, path) ∧ k.isSome = true ∧ h'.kindAt? j qs = some (some [])
  names : h'.mounts.map (·.name) = h.mounts.map (·.name)
  others : h' = { h with
    mounts := h'.mounts, fileBudget := h'.fileBudget, fds := h'.fds, nextFd := h'.nextFd }

section Numbers

variable {h : Host} {n : Fd}

theorem get?_allocate_of_free (d : Descriptor) (hfree : h.fds.get? n = none) :
    h.fds.get? (h.allocate d).1 = none := by
  rcases Nat.lt_or_ge h.fds.length UInt32.size with hroom | hmany
  · exact get?_allocate_fst d hroom
  -- There are so many descriptors that the search goes through all numbers.
  · cases hused : h.fds.get? (h.allocate d).1 with
    | none => rfl
    | some old =>
      have hsteps : (n - h.nextFd).toNat ≤ h.fds.length :=
        Nat.le_of_lt (Nat.lt_of_lt_of_le (UInt32.toNat_lt_size _) hmany)
      have hmem := mem_of_free (Option.isSome_iff_exists.mpr ⟨old, hused⟩) hsteps
      rw [UInt32.ofNat_toNat, UInt32.add_comm, UInt32.sub_add_cancel] at hmem
      obtain ⟨⟨m, e⟩, hin, rfl⟩ := List.mem_map.mp hmem
      have hnone := List.find?_eq_none.mp (Option.map_eq_none_iff.mp hfree) (m, e) hin
      exact absurd (decide_eq_true rfl) hnone

theorem get?_fds_allocate (h : Host) (d : Descriptor) (n : Fd) :
    (h.allocate d).2.fds.get? n =
      if (h.allocate d).1 = n then some d else h.fds.get? n :=
  DescriptorTable.get?_set ..

end Numbers

section Trees

variable {h : Host} {i j : Nat} {ps qs path : List String} {n : String} {d : Directory}
  {bytes resized : Bytes} {budget : UInt64}

theorem nodeAt?_of_free (hd : h.dirAt? i ps = some d) (hn : d.get? n = none) :
    h.nodeAt? i (ps ++ [n]) = none := by
  rw [nodeAt?_append_singleton, hd, Option.bind_some, hn]

theorem kindAt?_insert_of_ne (hd : h.dirAt? i ps = some d) (hn : d.get? n = none)
    (hne : (i, ps ++ [n]) ≠ (j, qs)) :
    (h.modifyDir i ps (·.insert n (.file bytes))).kindAt? j qs = h.kindAt? j qs := by
  by_cases hbelow : i = j ∧ ps ++ [n] <+: qs
  -- Below the place there is nothing, neither before nor after.
  · obtain ⟨rfl, rest, rfl⟩ := hbelow
    have hnone := nodeAt?_of_free hd hn
    rw [kindAt?, kindAt?, nodeAt?_append, nodeAt?_insert hd, nodeAt?_append, hnone]
    cases rest with
    | nil => exact absurd (congrArg (Prod.mk i) (List.append_nil _).symm) hne
    | cons => rfl
  · exact kindAt?_modifyDir (get?_insert_of_ne n _) (by rw [hd]; rfl) hbelow

theorem resizeWithin_nothing (hb : bytes.length < UInt64.size) (budget : UInt64) :
    ∃ left, resizeWithin bytes 0 budget = .ok ([], left) ∧
      left.toNat = min (budget.toNat + bytes.length) (UInt64.size - 1) := by
  have hnot : ¬ UInt64.ofNat bytes.length < 0 := by
    rw [UInt64.lt_iff_toNat_lt]
    exact Nat.not_lt_zero _
  obtain ⟨resized, left, hok⟩ : ∃ resized left, resizeWithin bytes 0 budget = .ok (resized, left) := by
    unfold resizeWithin
    exact ⟨_, _, if_neg hnot⟩
  cases resizeWithin_zero hok
  refine ⟨left, hok, ?_⟩
  have hbalance := (resizeWithin_balance hb hok).2
  rw [UInt64.toNat_zero, List.length_nil] at hbalance
  have hbudget := budget.toNat_lt_size
  omega

end Trees

section Opening

variable {h h' : Host} {fd new : Fd} {name : String} {flags : OpenFlags} {append : Bool}
  {i : Nat} {path : List String} {r : Reply}

theorem pathOpen_of_openable (hv : h.mounts.Valid) (hp : h.resolve fd name = .ok (i, path))
    (ho : h.Openable flags i path) (append : Bool) :
    ∃ (g : Host) (d : Descriptor),
      pathOpen fd name flags append h = .ok (g.allocate d).1 (g.allocate d).2 := by
  have hresolve : HostM.read (·.resolve fd name) h = .ok (i, path) h :=
    HostM.read_eq_ok.mpr ⟨hp, rfl⟩
  cases ho with
  | @dir d he hx ht =>
    refine ⟨h, .dir i path false, ?_⟩
    refine HostM.bind_eq_ok.mpr ⟨(i, path), h, hresolve, HostM.bind_eq_ok.mpr
      ⟨some (.dir d), h, HostM.read_eq_ok.mpr ⟨existing?_eq_ok_some.mpr he, rfl⟩, ?_⟩⟩
    simp only [HostM.unless_eq_ok]
    exact ⟨by simpa using hx, by simp [ht], openDescriptor_eq_ok.mpr rfl⟩
  | @file bytes he hx hf =>
    have hexisting : HostM.read (·.existing? i path) h = .ok (some (.file bytes)) h :=
      HostM.read_eq_ok.mpr ⟨existing?_eq_ok_some.mpr he, rfl⟩
    cases ht : flags.truncate with
    | false =>
      refine ⟨h, .file i path 0 append, ?_⟩
      refine HostM.bind_eq_ok.mpr ⟨(i, path), h, hresolve, HostM.bind_eq_ok.mpr
        ⟨some (.file bytes), h, hexisting, ?_⟩⟩
      simp only [HostM.unless_eq_ok, ht]
      exact ⟨by simpa using hx, by simp [hf], openDescriptor_eq_ok.mpr rfl⟩
    | true =>
      obtain ⟨left, hcut, -⟩ := resizeWithin_nothing (length_lt_of_nodeAt? hv he) h.fileBudget
      refine ⟨h.refile i path [] left, .file i path 0 append, ?_⟩
      refine HostM.bind_eq_ok.mpr ⟨(i, path), h, hresolve, HostM.bind_eq_ok.mpr
        ⟨some (.file bytes), h, hexisting, ?_⟩⟩
      simp only [HostM.unless_eq_ok, ht, if_true, HostM.bind_eq_ok, HostM.get_eq_ok]
      refine ⟨by simpa using hx, by simp [hf], h, h, ⟨rfl, rfl⟩, ?_⟩
      rw [hcut]
      simp only [HostM.bind_eq_ok, HostM.set_eq_ok]
      exact ⟨(), _, rfl, openDescriptor_eq_ok.mpr rfl⟩
  | @free ps n d hpath hd hn hc hf =>
    subst hpath
    have hexisting : h.existing? i (ps ++ [n]) = .ok none :=
      existing?_of_none (by rw [hd]; rfl) (nodeAt?_of_free hd hn)
    refine ⟨h.modifyDir i ps (·.insert n (.file [])), .file i (ps ++ [n]) 0 append, ?_⟩
    refine HostM.bind_eq_ok.mpr ⟨(i, ps ++ [n]), h, hresolve, HostM.bind_eq_ok.mpr
      ⟨none, h, HostM.read_eq_ok.mpr ⟨hexisting, rfl⟩, ?_⟩⟩
    simp only [HostM.unless_eq_ok, HostM.bind_eq_ok, HostM.read_eq_ok, HostM.modify_eq_ok]
    exact ⟨by simp [hc], by simp [hf], (ps, n, d), h, ⟨parentOf_eq_ok.mpr ⟨rfl, hd⟩, rfl⟩, (), _,
      rfl, openDescriptor_eq_ok.mpr rfl⟩

theorem step_pathOpen_of_openable (hv : h.mounts.Valid) (hp : h.resolve fd name = .ok (i, path))
    (ho : h.Openable flags i path) (append : Bool) :
    ∃ new h', h.step (.pathOpen fd name flags append) = (.ok (.fd new), h') := by
  obtain ⟨g, d, hopen⟩ := pathOpen_of_openable hv hp ho append
  exact ⟨_, _, step_of_perform (HostM.map_eq_ok.mpr ⟨_, hopen, rfl⟩)⟩

theorem openable_of_effect (heff : Effect h (.pathOpen fd name flags append) r h') :
    ∃ i path, h.resolve fd name = .ok (i, path) ∧ h.Openable flags i path := by
  cases heff with
  | look hc => cases hc
  | openDir hp he hx ht => exact ⟨_, _, hp, .dir he hx ht⟩
  | openFile hp he hx hf | openCut hp he hx hf => exact ⟨_, _, hp, .file he hx hf⟩
  | create hp hd hn hc hf => exact ⟨_, _, hp, .free rfl hd hn hc hf⟩

theorem opened_of_effect (hv : h.mounts.Valid)
    (heff : Effect h (.pathOpen fd name flags append) r h') :
    ∃ i path new, h.resolve fd name = .ok (i, path) ∧ r = .fd new ∧
      Opened h flags append i path new h' := by
  have hnames := heff.names
  cases heff with
  | look hc => cases hc
  | @openDir _ _ _ _ i path d hp he hx ht =>
    refine ⟨i, path, _, hp, rfl, ?_⟩
    exact {
      trees := .found he rfl rfl
      new := fun ⟨n, hn⟩ => get?_allocate_of_free _ hn
      table := ⟨.dir d, he, get?_fds_allocate h _⟩
      exclusive := fun hc hex => absurd ⟨hc, hex⟩ hx
      directory := fun _ => ⟨rfl, d, he⟩
      standing := fun j qs k hk => .inl hk
      names := hnames
      others := rfl }
  | @openFile _ _ _ _ i path bytes hp he hx hf ht =>
    refine ⟨i, path, _, hp, rfl, ?_⟩
    exact {
      trees := .found he rfl rfl
      new := fun ⟨n, hn⟩ => get?_allocate_of_free _ hn
      table := ⟨.file bytes, he, get?_fds_allocate h _⟩
      exclusive := fun hc hex => absurd ⟨hc, hex⟩ hx
      directory := fun hd => absurd hd (by simp [hf])
      standing := fun j qs k hk => .inl hk
      names := hnames
      others := rfl }
  | @openCut _ _ _ _ i path bytes resized budget hp he hx hf ht hr =>
    obtain ⟨left, hcut, hleft⟩ := resizeWithin_nothing (length_lt_of_nodeAt? hv he) h.fileBudget
    cases hr.symm.trans hcut
    have hnew : (h.setFile i path []).nodeAt? i path = some (.file []) := nodeAt?_setFile he []
    have hkept (j : Nat) (qs : List String) (hne : (i, path) ≠ (j, qs)) :
        (h.setFile i path []).kindAt? j qs = h.kindAt? j qs := kindAt?_setFile_of_ne he hne
    refine ⟨i, path, _, hp, rfl, ?_⟩
    exact {
      trees := .cut ht he hnew hkept hleft
      new := fun ⟨n, hn⟩ => get?_allocate_of_free (h := h.refile i path [] budget) _ hn
      table := ⟨.file [], hnew, get?_fds_allocate (h.refile i path [] budget) _⟩
      exclusive := fun hc hex => absurd ⟨hc, hex⟩ hx
      directory := fun hd => absurd hd (by simp [hf])
      standing := fun j qs k hk => by
        by_cases hsame : (i, path) = (j, qs)
        · cases hsame
          rw [kindAt?_eq_file.mpr he] at hk
          cases hk
          exact .inr ⟨ht, rfl, rfl, kindAt?_eq_file.mpr hnew⟩
        · exact .inl ((hkept j qs hsame).trans hk)
      names := hnames
      others := rfl }
  | @create _ _ _ _ i ps n d hp hd hn hc hf =>
    have hnone := nodeAt?_of_free hd hn
    have hnew := nodeAt?_insert hd n (.file [])
    have hkept (j : Nat) (qs : List String) (hne : (i, ps ++ [n]) ≠ (j, qs)) :
        (h.modifyDir i ps (·.insert n (.file []))).kindAt? j qs = h.kindAt? j qs :=
      kindAt?_insert_of_ne hd hn hne
    refine ⟨i, ps ++ [n], _, hp, rfl, ?_⟩
    exact {
      trees := .made hc hnone rfl hd hnew hkept rfl
      new := fun ⟨m, hm⟩ =>
        get?_allocate_of_free (h := h.modifyDir i ps (·.insert n (.file []))) _ hm
      table := ⟨.file [], hnew,
        get?_fds_allocate (h.modifyDir i ps (·.insert n (.file []))) _⟩
      exclusive := fun _ _ => hnone
      directory := fun hd => absurd hd (by simp [hf])
      standing := fun j qs k hk => by
        refine .inl ((hkept j qs fun hsame => ?_).trans hk)
        cases hsame
        rw [kindAt?, hnone] at hk
        cases hk
      names := hnames
      others := rfl }

/-- After any calls on a fresh host, an open succeeds just where the path resolves to a place that
the flags agree with. Then it adds one descriptor, at the start of what is at that place. Before
that it may make one empty file where nothing was, or cut the file that is there. -/
theorem runCalls_fresh_opens (args env : List String) {mounts : MountTable} (hv : mounts.Valid)
    (stdout stderr : Redirect) (budget : UInt64) (deadline : Deadline) (calls : List Call) :
    let h := (fresh args env mounts stdout stderr budget deadline).runCalls calls
    ∀ fd name flags append,
      ((∃ r h', h.step (.pathOpen fd name flags append) = (.ok r, h')) ↔
        ∃ i path, h.resolve fd name = .ok (i, path) ∧ h.Openable flags i path) ∧
      ∀ r h', h.step (.pathOpen fd name flags append) = (.ok r, h') →
        ∃ i path new, h.resolve fd name = .ok (i, path) ∧ r = .fd new ∧
          Opened h flags append i path new h' := by
  intro h fd name flags append
  have hvalid : h.mounts.Valid := valid_runCalls hv calls
  refine ⟨⟨fun ⟨r, h', hs⟩ => openable_of_effect (effect_of_step hs), fun ⟨i, path, hp, ho⟩ => ?_⟩,
    fun r h' hs => opened_of_effect hvalid (effect_of_step hs)⟩
  obtain ⟨new, h', hs⟩ := step_pathOpen_of_openable hvalid hp ho append
  exact ⟨.fd new, h', hs⟩

theorem made_then_cut :
    let mounts : MountTable := [⟨".", .file "a" [1, 2] .empty⟩]
    let h := (fresh [] [] mounts .discard .discard 5 none).runCalls
      [.pathCreateDirectory 3 "d", .pathOpen 3 "d" {} false]
    let made := h.step (.pathOpen 4 "b" { create := true, exclusive := true } true)
    let cut := h.step (.pathOpen 4 "../a" { truncate := true } false)
    mounts.Valid ∧ made.1 = .ok (.fd 5) ∧ cut.1 = .ok (.fd 5) ∧
      Opened h { create := true, exclusive := true } true 0 ["d", "b"] 5 made.2 ∧
      Opened h { truncate := true } false 0 ["a"] 5 cut.2 := by
  intro mounts h made cut
  have hvalid : mounts.Valid := by
    intro m hm
    rw [List.mem_singleton.mp hm]
    exact ⟨⟨fun _ hn => absurd hn List.not_mem_nil, trivial⟩, ⟨by decide, trivial⟩⟩
  have hopens := runCalls_fresh_opens [] [] hvalid .discard .discard 5 none
    [.pathCreateDirectory 3 "d", .pathOpen 3 "d" {} false]
  have hmade : made.1 = .ok (.fd 5) := by rfl
  have hcut : cut.1 = .ok (.fd 5) := by rfl
  have hinside : h.resolve 4 "b" = .ok (0, ["d", "b"]) := by rfl
  have habove : h.resolve 4 "../a" = .ok (0, ["a"]) := by rfl
  refine ⟨hvalid, hmade, hcut, ?_, ?_⟩
  · obtain ⟨i, path, new, hp, hr, hopened⟩ := (hopens 4 "b" _ true).2 _ _ (Prod.ext hmade rfl)
    cases hinside.symm.trans hp
    cases hr
    exact hopened
  · obtain ⟨i, path, new, hp, hr, hopened⟩ := (hopens 4 "../a" _ false).2 _ _ (Prod.ext hcut rfl)
    cases habove.symm.trans hp
    cases hr
    exact hopened

end Opening

end Buildbox.Host
