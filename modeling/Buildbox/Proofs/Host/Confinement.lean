import Buildbox.Proofs.Host.Atomic

/-! What a guest can reach. A path below a directory descriptor stays in the mount of the
descriptor, however many parts it goes up, and a call changes no mount but those its descriptors
stand for. -/

namespace Buildbox.Host

section Walks

variable {base segments parts : List String} {part : String} {e : Errno} {depth : Nat}

def downs (parts : List String) : Nat :=
  parts.countP fun s => s ≠ "" ∧ s ≠ "." ∧ s ≠ ".."

def ups (parts : List String) : Nat :=
  parts.count ".."

/-- Holds when some start of the parts goes up by more than there is above. -/
def Escapes (depth : Nat) (parts : List String) : Prop :=
  ∃ start, start <+: parts ∧ depth + downs start < ups start

theorem not_escapes_nil : ¬ Escapes depth [] := by
  rintro ⟨start, hpre, hlt⟩
  rw [List.prefix_nil.mp hpre] at hlt
  exact Nat.not_lt_zero _ hlt

theorem escapes_cons : Escapes depth (part :: parts) ↔
    depth + downs [part] < ups [part] ∨
      ∃ start, start <+: parts ∧
        depth + (downs [part] + downs start) < ups [part] + ups start := by
  have hdowns (start : List String) : downs (part :: start) = downs [part] + downs start := by
    rw [downs, ← List.singleton_append, List.countP_append]
    rfl
  have hups (start : List String) : ups (part :: start) = ups [part] + ups start := by
    rw [ups, ← List.singleton_append, List.count_append]
    rfl
  constructor
  · rintro ⟨start, hpre, hlt⟩
    rcases List.prefix_cons_iff.mp hpre with rfl | ⟨rest, rfl, hrest⟩
    · exact absurd hlt (Nat.not_lt_zero _)
    · rw [hdowns, hups] at hlt
      exact .inr ⟨rest, hrest, hlt⟩
  · rintro (hlt | ⟨rest, hrest, hlt⟩)
    · exact ⟨[part], List.prefix_cons_inj part |>.mpr List.nil_prefix, hlt⟩
    · refine ⟨part :: rest, (List.prefix_cons_inj part).mpr hrest, ?_⟩
      rwa [hdowns, hups]

theorem walk_eq_error_iff :
    walk base parts = .error e ↔ e = .notcapable ∧ Escapes base.length parts := by
  induction parts generalizing base with
  | nil => simp [walk, not_escapes_nil]
  | cons part parts ih =>
    rw [walk, escapes_cons]
    by_cases hskip : part = "" ∨ part = "."
    · have hdown : downs [part] = 0 := by rcases hskip with rfl | rfl <;> rfl
      have hup : ups [part] = 0 := by rcases hskip with rfl | rfl <;> rfl
      rw [if_pos hskip, ih, hdown, hup]
      simp only [Nat.not_lt_zero, Nat.zero_add, false_or, Escapes]
    rw [if_neg hskip]
    by_cases hpart : part = ".."
    -- One step up: it fails at the root, and elsewhere it takes one from the depth.
    · subst hpart
      have hdown : downs [".."] = 0 := rfl
      have hup : ups [".."] = 1 := rfl
      rw [if_pos rfl, hdown, hup]
      split
      · next hroot =>
        subst hroot
        simp [eq_comm]
      · next hdeep =>
        have hlen : 0 < base.length := List.length_pos_iff.mpr hdeep
        rw [ih, List.length_dropLast, Escapes]
        refine and_congr_right fun _ => ⟨?_, ?_⟩
        · rintro ⟨start, hpre, hlt⟩
          exact .inr ⟨start, hpre, by omega⟩
        · rintro (hlt | ⟨start, hpre, hlt⟩)
          · omega
          · exact ⟨start, hpre, by omega⟩
    -- A name goes down, so the rest starts one deeper.
    · have hdown : downs [part] = 1 := by
        rw [not_or] at hskip
        simp [downs, hskip, hpart]
      have hup : ups [part] = 0 := by simp [ups, hpart]
      rw [if_neg hpart, ih, List.length_append, List.length_singleton, hdown, hup]
      simp only [Nat.not_lt_zero, Nat.zero_add, false_or, Nat.add_assoc, Escapes]

theorem walk_names (hb : ∀ s ∈ base, Path.IsName s) (hp : ∀ s ∈ parts, '/' ∉ s.toList)
    (h : walk base parts = .ok segments) : ∀ s ∈ segments, Path.IsName s := by
  induction parts generalizing base with
  | nil =>
    cases h
    exact hb
  | cons part parts ih =>
    have hpart := hp part List.mem_cons_self
    have ih {base} (hb : ∀ s ∈ base, Path.IsName s) (h : walk base parts = .ok segments) :=
      ih hb (fun s hs => hp s (List.mem_cons_of_mem _ hs)) h
    rw [walk] at h
    split at h
    · exact ih hb h
    split at h
    · split at h
      · cases h
      · exact ih (fun s hs => hb s (List.dropLast_subset base hs)) h
    · next hskip hup =>
      refine ih (fun s hs => ?_) h
      rcases List.mem_append.mp hs with hs | hs
      · exact hb s hs
      · rw [List.mem_singleton.mp hs]
        exact ⟨fun h => hskip (.inl h), hpart, fun h => hskip (.inr h), hup⟩

end Walks

section Descriptors

variable {h h' : Host} {c : Call} {r : Reply} {d : Descriptor} {fd other : Fd}

def pathOf : Descriptor → List String
  | .stdin | .output _ => []
  | .dir _ path _ | .file _ path _ _ => path

def Named (h : Host) : Prop :=
  ∀ fd d, h.fds.get? fd = some d → ∀ s ∈ pathOf d, Path.IsName s

theorem Named.set (hn : h.Named) (hf : h'.fds = h.fds.set fd d)
    (hd : ∀ s ∈ pathOf d, Path.IsName s) : h'.Named := by
  intro other e he
  rw [hf, DescriptorTable.get?_set] at he
  split at he
  · cases he
    exact hd
  · exact hn other e he

theorem Named.same (hn : h.Named) (hf : h'.fds = h.fds) : h'.Named :=
  fun fd d hd => hn fd d (hf ▸ hd)

theorem Named.file {i : Nat} {path : List String} {position : UInt64} {append : Bool}
    (hn : h.Named) (hd : h.fds.get? fd = some (.file i path position append)) :
    ∀ s ∈ path, Path.IsName s :=
  hn fd _ hd

theorem Named.resolve {path : String} {i : Nat} {segments : List String} (hn : h.Named)
    (hr : h.resolve fd path = .ok (i, segments)) : ∀ s ∈ segments, Path.IsName s := by
  obtain ⟨base, preopen, hd, hw⟩ := resolve_eq_ok.mp hr
  exact walk_names (hn fd _ hd) (fun s hs => Path.slash_not_mem_of_mem_parts hs) hw

theorem Named.effect (hn : h.Named) (heff : Effect h c r h') : h'.Named := by
  cases heff with
  | look | readInput | noAppend | renameSame | random | poll => exact hn
  | @output fd data stream => cases stream <;> exact hn
  | pwrite | setSize | createDirectory | unlinkFile | removeDirectory | rename =>
    exact hn.same rfl
  | write hd | read hd | seek hd | setAppend hd => exact hn.set rfl (hn.file hd)
  | openDir hp | openFile hp | openCut hp | create hp => exact hn.set rfl (hn.resolve hp)
  | @close fd d hd =>
    intro other e he
    rw [DescriptorTable.get?_erase] at he
    split at he
    · cases he
    · exact hn other e he
  | @renumber source target d old hd ht =>
    intro other e he
    rw [DescriptorTable.get?_set, DescriptorTable.get?_erase] at he
    split at he
    · cases he
      exact hn _ _ hd
    · split at he
      · cases he
      · exact hn other e he

end Descriptors

section Mounts

variable {h h' : Host} {c : Call} {r : Reply} {fd : Fd} {i j : Nat}

def Call.fds : Call → List Fd
  | .fdWrite fd _ | .fdPwrite fd _ _ | .fdRead fd _ | .fdPread fd _ _ | .fdSeek fd _ _
  | .fdClose fd | .fdFdstat fd | .fdSetAppend fd _ | .fdFilestat fd | .fdSetSize fd _
  | .fdCheck fd | .fdPrestatName fd | .fdReaddir fd _ _ | .pathOpen fd _ _ _
  | .pathCreateDirectory fd _ | .pathFilestat fd _ | .pathTouch fd _ | .pathUnlinkFile fd _
  | .pathRemoveDirectory fd _ | .pathReadlink fd _ => [fd]
  | .fdRenumber fd fd' | .pathRename fd _ fd' _ => [fd, fd']
  | .clockTime _ | .clockResolution _ | .random _ => []
  | .poll subscriptions => subscriptions.filterMap fun
    | .fd _ fd _ => some fd
    | .clock .. => none

/-- The mount that a descriptor stands for something in. -/
def mountOf? (h : Host) (fd : Fd) : Option Nat :=
  match h.fds.get? fd with
  | some (.dir i _ _) | some (.file i _ _ _) => some i
  | _ => none

theorem mountOf?_of_resolve {path : String} {segments : List String}
    (hr : h.resolve fd path = .ok (i, segments)) : h.mountOf? fd = some i := by
  obtain ⟨base, preopen, hd, -⟩ := resolve_eq_ok.mp hr
  rw [mountOf?, hd]

theorem getElem?_modifyAt_of_ne {t : MountTable} {f : Directory → Directory} (hne : j ≠ i) :
    (t.modifyAt f j)[i]? = t[i]? := by
  rw [MountTable.getElem?_modifyAt, if_neg hne]

theorem Effect.frame (heff : Effect h c r h') (hi : ∀ fd ∈ c.fds, h.mountOf? fd ≠ some i) :
    h'.mounts[i]? = h.mounts[i]? := by
  have hfile {fd j path position append} (hd : h.fds.get? fd = some (.file j path position append))
      (hmem : fd ∈ c.fds) : j ≠ i := by
    rintro rfl
    exact hi fd hmem (by rw [mountOf?, hd])
  have hpath {fd path j segments} (hp : h.resolve fd path = .ok (j, segments))
      (hmem : fd ∈ c.fds) : j ≠ i := by
    rintro rfl
    exact hi fd hmem (mountOf?_of_resolve hp)
  cases heff with
  | look | readInput | noAppend | renameSame | read | seek | setAppend | close | renumber
  | openDir | openFile | random | poll => rfl
  | @output fd data stream => cases stream <;> rfl
  | write hd | pwrite hd | setSize hd =>
    exact getElem?_modifyAt_of_ne (hfile hd List.mem_cons_self)
  | openCut hp | create hp | createDirectory hp | unlinkFile hp | removeDirectory hp =>
    exact getElem?_modifyAt_of_ne (hpath hp List.mem_cons_self)
  | rename hs ht =>
    have htarget := hpath ht (List.mem_cons_of_mem _ List.mem_cons_self)
    exact (getElem?_modifyAt_of_ne htarget).trans
      (getElem?_modifyAt_of_ne (hpath hs List.mem_cons_self))

theorem Effect.names (heff : Effect h c r h') :
    h'.mounts.map (·.name) = h.mounts.map (·.name) := by
  cases heff with
  | look | readInput | noAppend | renameSame | read | seek | setAppend | close | renumber
  | openDir | openFile | random | poll => rfl
  | @output fd data stream => cases stream <;> rfl
  | write | pwrite | setSize | openCut | create | createDirectory | unlinkFile
  | removeDirectory => exact MountTable.names_modifyAt ..
  | rename =>
    exact (MountTable.names_modifyAt ..).trans (MountTable.names_modifyAt ..)

end Mounts

section Runs

variable {h : Host}

theorem mem_preopens {p : Fd × Descriptor} {first n : Nat} :
    p ∈ preopens first n ↔ ∃ k < n, p = (UInt32.ofNat (first + k), .dir k [] true) := by
  induction n with
  | zero => exact iff_of_false List.not_mem_nil fun ⟨k, hk, _⟩ => Nat.not_lt_zero k hk
  | succ n ih =>
    rw [preopens, List.mem_append, ih, List.mem_singleton]
    constructor
    · rintro (⟨k, hk, hp⟩ | hp)
      · exact ⟨k, Nat.lt_succ_of_lt hk, hp⟩
      · exact ⟨n, Nat.lt_succ_self n, hp⟩
    · rintro ⟨k, hk, hp⟩
      rcases Nat.lt_succ_iff_lt_or_eq.mp hk with hk | rfl
      · exact .inl ⟨k, hk, hp⟩
      · exact .inr hp

theorem fresh_descriptor {args env : List String} {mounts : MountTable} {stdout stderr : Redirect}
    {budget : UInt64} {deadline : Deadline} {fd : Fd} {d : Descriptor}
    (hd : (fresh args env mounts stdout stderr budget deadline).fds.get? fd = some d) :
    fd.toNat < firstPreopen ∧ (d = .stdin ∨ ∃ stream, d = .output stream) ∨
      ∃ k < mounts.length, fd = UInt32.ofNat (firstPreopen + k) ∧ d = .dir k [] true := by
  rcases List.mem_append.mp (DescriptorTable.mem_of_get? hd) with hd | hd
  · left
    simp only [List.mem_cons, List.not_mem_nil, or_false, Prod.mk.injEq] at hd
    rcases hd with ⟨rfl, rfl⟩ | ⟨rfl, rfl⟩ | ⟨rfl, rfl⟩
    · exact ⟨by decide, .inl rfl⟩
    · exact ⟨by decide, .inr ⟨_, rfl⟩⟩
    · exact ⟨by decide, .inr ⟨_, rfl⟩⟩
  · right
    obtain ⟨k, hk, heq⟩ := mem_preopens.mp hd
    exact ⟨k, hk, Prod.mk.inj heq⟩

theorem named_fresh (args env : List String) (mounts : MountTable) (stdout stderr : Redirect)
    (budget : UInt64) (deadline : Deadline) :
    (fresh args env mounts stdout stderr budget deadline).Named := by
  intro fd d hd
  have hroot : pathOf d = [] := by
    obtain ⟨-, rfl | ⟨stream, rfl⟩⟩ | ⟨k, -, -, rfl⟩ := fresh_descriptor hd <;> rfl
  rw [hroot]
  exact fun _ hs => absurd hs List.not_mem_nil

theorem step_frame {c : Call} {i : Nat} (hi : ∀ fd ∈ c.fds, h.mountOf? fd ≠ some i) :
    (h.step c).2.mounts[i]? = h.mounts[i]? := by
  obtain ⟨r, -, heff⟩ | ⟨e, -, hstay⟩ := step_cases h c
  · exact heff.frame hi
  · rw [hstay]

theorem names_runCalls (h : Host) (calls : List Call) :
    (h.runCalls calls).mounts.map (·.name) = h.mounts.map (·.name) :=
  runCalls_keeps (P := fun g => g.mounts.map (·.name) = h.mounts.map (·.name))
    (fun hg heff => heff.names.trans hg) rfl calls

theorem resolve_eq_error_iff {fd : Fd} {path : String} {i : Nat} {base : List String}
    {preopen : Bool} {e : Errno} (hd : h.fds.get? fd = some (.dir i base preopen)) :
    h.resolve fd path = .error e ↔
      e = .notcapable ∧ Escapes base.length (Path.parts path) := by
  rw [← walk_eq_error_iff, resolve, descriptor_eq_ok.mpr hd]
  simp only [bind, Except.bind]
  cases walk base (Path.parts path) with
  | error e => simp
  | ok segments => simp [pure, Except.pure]

theorem resolve_names {fd : Fd} {path : String} {i j : Nat} {base segments : List String}
    {preopen : Bool} (hn : h.Named) (hd : h.fds.get? fd = some (.dir i base preopen))
    (hr : h.resolve fd path = .ok (j, segments)) :
    j = i ∧ ∀ s ∈ segments, Path.IsName s := by
  refine ⟨?_, hn.resolve hr⟩
  obtain ⟨_, _, hd', -⟩ := resolve_eq_ok.mp hr
  rw [hd] at hd'
  cases hd'
  rfl

/-- After any calls on a fresh host: a path below a directory descriptor is refused exactly when
it escapes, and means a path of names in the same mount otherwise; one more call changes only
mounts that its descriptors stand for something in; and the table keeps its names to the end. -/
theorem runCalls_fresh_confined (args env : List String) (mounts : MountTable)
    (stdout stderr : Redirect) (budget : UInt64) (deadline : Deadline) (calls : List Call) :
    let h := (fresh args env mounts stdout stderr budget deadline).runCalls calls
    (∀ fd path i base preopen, h.fds.get? fd = some (.dir i base preopen) →
      (∀ e, h.resolve fd path = .error e ↔
        e = .notcapable ∧ Escapes base.length (Path.parts path)) ∧
      ∀ j segments, h.resolve fd path = .ok (j, segments) →
        j = i ∧ ∀ s ∈ segments, Path.IsName s) ∧
    (∀ c i, (∀ fd ∈ c.fds, h.mountOf? fd ≠ some i) →
      (h.step c).2.mounts[i]? = h.mounts[i]?) ∧
    h.mounts.map (·.name) = mounts.map (·.name) ∧
    h.finish.mounts.map (·.name) = mounts.map (·.name) := by
  intro h
  have hn : h.Named := runCalls_keeps (fun hn heff => hn.effect heff)
    (named_fresh args env mounts stdout stderr budget deadline) calls
  have hnames : h.mounts.map (·.name) = mounts.map (·.name) := names_runCalls _ calls
  refine ⟨fun fd path i base preopen hd => ⟨fun e => resolve_eq_error_iff hd, ?_⟩,
    fun c i hi => step_frame hi, hnames, hnames⟩
  exact fun j segments hr => resolve_names hn hd hr

theorem confined_in_subdirectory :
    let mounts : MountTable := [⟨".", .empty⟩, ⟨"lib", .file "a" [1] .empty⟩]
    let calls : List Call := [.pathCreateDirectory 3 "d", .pathOpen 3 "d" {} false]
    let h := (fresh [] [] mounts .discard .discard 10 none).runCalls calls
    h.fds.get? 5 = some (.dir 0 ["d"] false) ∧
      h.resolve 5 "../e/../.." = .error .notcapable ∧
      (h.step (.pathRename 5 "../d" 3 "e")).2.mounts[1]? = h.mounts[1]? := by
  intro mounts calls h
  obtain ⟨hpaths, hframe, -⟩ :=
    runCalls_fresh_confined [] [] mounts .discard .discard 10 none calls
  have hd : h.fds.get? 5 = some (.dir 0 ["d"] false) := by decide
  have hup : Escapes 1 (Path.parts "../e/../..") := ⟨_, List.prefix_rfl, by decide⟩
  have hother : ∀ fd ∈ [5, 3], h.mountOf? fd ≠ some 1 := by
    intro fd hfd
    rcases List.mem_cons.mp hfd with rfl | hfd
    · decide
    · rw [List.mem_singleton.mp hfd]
      decide
  refine ⟨hd, ?_, hframe _ 1 hother⟩
  exact ((hpaths 5 "../e/../.." 0 ["d"] false hd).1 .notcapable).mpr ⟨rfl, hup⟩

end Runs

end Buildbox.Host
