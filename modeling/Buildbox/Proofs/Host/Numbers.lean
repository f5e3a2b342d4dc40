import Buildbox.Proofs.Host.Handover

/-! The numbers of descriptors. A number is handed out once, whatever is closed or renumbered in
between, and what was open from the start can be followed from number to number. -/

namespace Buildbox.Host

def Call.keepsNumbers : Call → Bool
  | .fdClose _ | .fdRenumber .. | .pathOpen .. => false
  | _ => true

def Call.handed? : Call → Except Refusal Reply → Option Fd
  | .pathOpen .., .ok (.fd n) => some n
  | _, _ => none

def Call.follow : Call → Except Refusal Reply → Fd → Option Fd
  | .fdClose closed, .ok _, fd => if fd = closed then none else some fd
  | .fdRenumber source target, .ok _, fd =>
    if fd = source then some target else if fd = target then none else some fd
  | .pathOpen .., .ok (.fd n), fd => if fd = n then none else some fd
  | _, _, fd => some fd

def handedOut (h : Host) : List Call → List Fd
  | [] => []
  | c :: calls => (c.handed? (h.step c).1).toList ++ (h.step c).2.handedOut calls

/-- The number that a descriptor has after a list of calls, if it is still open. -/
def followAll (h : Host) : List Call → Fd → Option Fd
  | [], fd => some fd
  | c :: calls, fd => (c.follow (h.step c).1 fd).bind ((h.step c).2.followAll calls)

def mountIn? : Descriptor → Option Nat
  | .stdin | .output _ => none
  | .dir i _ _ | .file i _ _ _ => some i

section Changes

variable {h h' : Host} {c : Call} {r : Reply} {fd : Fd} {i : Nat} {d : Descriptor}

theorem Call.handed?_of_keepsNumbers (hc : c.keepsNumbers = true) (answer : Except Refusal Reply) :
    c.handed? answer = none := by
  cases c <;> first | rfl | cases hc

theorem Call.follow_of_keepsNumbers (hc : c.keepsNumbers = true) (answer : Except Refusal Reply) :
    c.follow answer fd = some fd := by
  cases c <;> first | rfl | cases hc

theorem Call.handed?_error (c : Call) (e : Refusal) : c.handed? (.error e) = none := by
  cases c <;> rfl

theorem Call.follow_error (c : Call) (e : Refusal) : c.follow (.error e) fd = some fd := by
  cases c <;> rfl

theorem mountOf?_eq (h : Host) (fd : Fd) : h.mountOf? fd = (h.fds.get? fd).bind mountIn? := by
  unfold mountOf?
  cases h.fds.get? fd with
  | none => rfl
  | some d => cases d <;> rfl

inductive TableChange (h : Host) : Call → Reply → Host → Prop where
  | same {c : Call} {r : Reply} {h' : Host} (hc : c.keepsNumbers = true)
    (hfds : h'.fds = h.fds) (hnext : h'.nextFd = h.nextFd) : TableChange h c r h'
  | moved {c : Call} {r : Reply} {h' : Host} {fd : Fd} {i : Nat}
    {path position append position' append'} (hc : c.keepsNumbers = true)
    (hd : h.fds.get? fd = some (.file i path position append))
    (hfds : h'.fds = h.fds.set fd (.file i path position' append'))
    (hnext : h'.nextFd = h.nextFd) : TableChange h c r h'
  | closed {fd : Fd} : TableChange h (.fdClose fd) .done { h with fds := h.fds.erase fd }
  | renumbered {source target : Fd} {d old : Descriptor} (hd : h.fds.get? source = some d)
    (ht : h.fds.get? target = some old) :
    TableChange h (.fdRenumber source target) .done
      { h with fds := (h.fds.erase source).set target d }
  | opened {fd : Fd} {path flags append} {g : Host} {d : Descriptor} (hfds : g.fds = h.fds)
    (hnext : g.nextFd = h.nextFd) (hmount : h.mountOf? fd = mountIn? d)
    (hd : ∀ i path, d ≠ .dir i path true) :
    TableChange h (.pathOpen fd path flags append) (.fd (g.allocate d).1) (g.allocate d).2

theorem Effect.table (heff : Effect h c r h') : TableChange h c r h' := by
  cases heff with
  | look hc => exact .same (by cases c <;> first | rfl | cases hc) rfl rfl
  | @output _ _ stream => cases stream <;> exact .same rfl rfl rfl
  | pwrite | readInput | noAppend | setSize | createDirectory | unlinkFile | removeDirectory
  | renameSame | rename | random | poll => exact .same rfl rfl rfl
  | write hd | read hd | seek hd | setAppend hd => exact .moved rfl hd rfl rfl
  | close => exact .closed
  | renumber hd ht => exact .renumbered hd ht
  | openDir hp | openFile hp | openCut hp | create hp =>
    exact .opened rfl rfl (mountOf?_of_resolve hp) nofun

theorem TableChange.mountOf? (hchange : TableChange h c r h') (hi : h'.mountOf? fd = some i) :
    ∃ source, h.mountOf? source = some i := by
  rw [mountOf?_eq] at hi
  cases hchange with
  | same _ hfds =>
    rw [hfds, ← mountOf?_eq] at hi
    exact ⟨fd, hi⟩
  | @moved _ _ _ moved _ _ _ _ _ _ _ hd hfds =>
    rw [hfds, DescriptorTable.get?_set] at hi
    split at hi
    · refine ⟨moved, ?_⟩
      rwa [mountOf?_eq, hd]
    · exact ⟨fd, (mountOf?_eq h fd).trans hi⟩
  | closed =>
    rw [DescriptorTable.get?_erase] at hi
    split at hi
    · cases hi
    · exact ⟨fd, (mountOf?_eq h fd).trans hi⟩
  | @renumbered source _ _ _ hd =>
    rw [DescriptorTable.get?_set, DescriptorTable.get?_erase] at hi
    split at hi
    · refine ⟨source, ?_⟩
      rwa [mountOf?_eq, hd]
    · split at hi
      · cases hi
      · exact ⟨fd, (mountOf?_eq h fd).trans hi⟩
  | @opened base _ _ _ g d hfds _ hmount =>
    change ((g.fds.set (g.allocate d).1 d).get? fd).bind mountIn? = some i at hi
    rw [hfds, DescriptorTable.get?_set] at hi
    split at hi
    · exact ⟨base, hmount.trans hi⟩
    · exact ⟨fd, (mountOf?_eq h fd).trans hi⟩

end Changes

section Fresh

variable {h h' : Host} {c : Call} {r : Reply} {n : Nat}

structure Numbered (h : Host) (n : Nat) : Prop where
  next : h.nextFd = UInt32.ofNat n
  below : ∀ {fd d}, h.fds.get? fd = some d → fd.toNat < n

theorem Numbered.next_free (hn : h.Numbered n) (hroom : n < UInt32.size) :
    h.fds.get? h.nextFd = none := by
  refine Option.eq_none_iff_forall_not_mem.mpr fun d hd => ?_
  have hbelow := hn.below hd
  rw [hn.next, UInt32.toNat_ofNat_of_lt' hroom] at hbelow
  exact Nat.lt_irrefl n hbelow

theorem Numbered.allocate (hn : h.Numbered n) (hroom : n < UInt32.size) (d : Descriptor) :
    (h.allocate d).1.toNat = n ∧ (h.allocate d).2.Numbered (n + 1) := by
  have hfree := hn.next_free hroom
  have hnumber : (h.allocate d).1 = h.nextFd := by
    change allocate.free h h.nextFd h.fds.length = h.nextFd
    cases h.fds.length with
    | zero => rfl
    | succ k => rw [allocate.free, hfree, if_neg (by simp)]
  have hvalue : h.nextFd.toNat = n := by rw [hn.next, UInt32.toNat_ofNat_of_lt' hroom]
  refine ⟨hnumber ▸ hvalue, ?_, fun {fd e} he => ?_⟩
  · change (h.allocate d).1 + 1 = _
    rw [hnumber, hn.next, UInt32.ofNat_add]
    rfl
  · change (h.fds.set (h.allocate d).1 d).get? fd = some e at he
    rw [hnumber, DescriptorTable.get?_set] at he
    split at he
    · next hfd =>
      rw [← hfd, hvalue]
      exact Nat.lt_succ_self n
    · exact Nat.lt_succ_of_lt (hn.below he)

theorem Numbered.change (hn : h.Numbered n) (hchange : TableChange h c r h')
    (hroom : n + (c.handed? (.ok r)).toList.length ≤ UInt32.size) :
    h'.Numbered (n + (c.handed? (.ok r)).toList.length) ∧
      ∀ m ∈ (c.handed? (.ok r)).toList, m.toNat = n := by
  cases hchange with
  | same hc hfds hnext =>
    rw [Call.handed?_of_keepsNumbers hc]
    exact ⟨⟨hnext.trans hn.next, fun hd => hn.below (hfds ▸ hd)⟩, nofun⟩
  | moved hc hd hfds hnext =>
    rw [Call.handed?_of_keepsNumbers hc]
    refine ⟨⟨hnext.trans hn.next, fun {other e} he => ?_⟩, nofun⟩
    rw [hfds, DescriptorTable.get?_set] at he
    split at he
    · next hfd => exact hn.below (hfd ▸ hd)
    · exact hn.below he
  | closed =>
    refine ⟨⟨hn.next, fun {other e} he => ?_⟩, nofun⟩
    rw [DescriptorTable.get?_erase] at he
    split at he
    · cases he
    · exact hn.below he
  -- The target has to be open, so its number is below the next one too.
  | renumbered hd ht =>
    refine ⟨⟨hn.next, fun {other e} he => ?_⟩, nofun⟩
    rw [DescriptorTable.get?_set, DescriptorTable.get?_erase] at he
    split at he
    · next hfd => exact hn.below (hfd ▸ ht)
    · split at he
      · cases he
      · exact hn.below he
  | @opened _ _ _ _ g d hfds hnext =>
    have hg : g.Numbered n := ⟨hnext.trans hn.next, fun hd => hn.below (hfds ▸ hd)⟩
    obtain ⟨hvalue, hafter⟩ := hg.allocate (Nat.lt_of_succ_le hroom) d
    exact ⟨hafter, fun m hm => List.mem_singleton.mp hm ▸ hvalue⟩

theorem Numbered.step (hn : h.Numbered n)
    (hroom : n + (c.handed? (h.step c).1).toList.length ≤ UInt32.size) :
    (h.step c).2.Numbered (n + (c.handed? (h.step c).1).toList.length) ∧
      ∀ m ∈ (c.handed? (h.step c).1).toList, m.toNat = n := by
  obtain ⟨r, hr, heff⟩ | ⟨e, he, hstay⟩ := step_cases h c
  · rw [hr] at hroom ⊢
    exact hn.change heff.table hroom
  · rw [he, hstay, Call.handed?_error]
    exact ⟨hn, nofun⟩

theorem Numbered.runCalls {calls : List Call} (hn : h.Numbered n)
    (hroom : n + (h.handedOut calls).length ≤ UInt32.size) :
    (h.runCalls calls).Numbered (n + (h.handedOut calls).length) ∧
      ∀ m ∈ h.handedOut calls, m.toNat < n + (h.handedOut calls).length := by
  induction calls generalizing h n with
  | nil => exact ⟨hn, nofun⟩
  | cons c calls ih =>
    rw [handedOut, List.length_append] at hroom ⊢
    obtain ⟨hstep, hfirst⟩ := hn.step (c := c) (by omega)
    rw [← Nat.add_assoc] at hroom ⊢
    obtain ⟨hrun, hrest⟩ := ih hstep hroom
    refine ⟨hrun, fun m hm => ?_⟩
    rcases List.mem_append.mp hm with hm | hm
    · have hone := List.length_pos_of_mem hm
      have hvalue := hfirst m hm
      omega
    · exact hrest m hm

theorem handedOut_append (h : Host) (before after : List Call) :
    h.handedOut (before ++ after) =
      h.handedOut before ++ (h.runCalls before).handedOut after := by
  induction before generalizing h with
  | nil => rfl
  | cons c before ih =>
    rw [List.cons_append, handedOut, handedOut, ih, List.append_assoc]
    rfl

theorem Numbered.below_runCalls {calls : List Call} {fd : Fd} {d : Descriptor}
    (hn : h.Numbered n) (hd : (h.runCalls calls).fds.get? fd = some d) :
    fd.toNat < n + (h.handedOut calls).length := by
  rcases Nat.lt_or_ge UInt32.size (n + (h.handedOut calls).length) with hmany | hroom
  · exact Nat.lt_trans fd.toNat_lt_size hmany
  · exact (hn.runCalls hroom).1.below hd

theorem Numbered.opens_new {calls : List Call} {fd m : Fd} {path : String} {flags : OpenFlags}
    {append : Bool} (hn : h.Numbered n) (hroom : n + (h.handedOut calls).length < UInt32.size)
    (hopen : ((h.runCalls calls).step (.pathOpen fd path flags append)).1 = .ok (.fd m)) :
    m.toNat = n + (h.handedOut calls).length ∧ m ∉ h.handedOut calls ∧
      ∀ before, before <+: calls → (h.runCalls before).fds.get? m = none := by
  obtain ⟨hrun, hbelow⟩ := hn.runCalls (Nat.le_of_lt hroom)
  have hhanded : (Call.pathOpen fd path flags append).handed?
      ((h.runCalls calls).step (.pathOpen fd path flags append)).1 = some m := by
    rw [hopen]
    rfl
  have hvalue : m.toNat = n + (h.handedOut calls).length := by
    have hstep := hrun.step (c := .pathOpen fd path flags append)
    rw [hhanded] at hstep
    exact (hstep hroom).2 m (List.mem_singleton_self m)
  refine ⟨hvalue, fun hm => Nat.lt_irrefl _ (hvalue ▸ hbelow m hm), fun before hbefore => ?_⟩
  obtain ⟨after, rfl⟩ := hbefore
  refine Option.eq_none_iff_forall_not_mem.mpr fun d hd => ?_
  have hold := hn.below_runCalls hd
  rw [handedOut_append, List.length_append] at hvalue
  omega

theorem numbered_fresh (args env : List String) (mounts : MountTable) (stdout stderr : Redirect)
    (budget : UInt64) (deadline : Deadline) :
    (fresh args env mounts stdout stderr budget deadline).Numbered
      (firstPreopen + mounts.length) where
  next := rfl
  below {fd d} hd := by
    obtain ⟨hstream, -⟩ | ⟨k, hk, rfl, -⟩ := fresh_descriptor hd
    · exact Nat.lt_add_right _ hstream
    · rw [UInt32.toNat_ofNat']
      exact Nat.lt_of_le_of_lt (Nat.mod_le _ _) (Nat.add_lt_add_left hk _)

end Fresh

section Mounts

variable {h h' : Host} {c : Call} {r : Reply}

def Mounted (h : Host) : Prop :=
  ∀ fd i, h.mountOf? fd = some i → i < h.mounts.length

theorem Mounted.effect (hm : h.Mounted) (heff : Effect h c r h') : h'.Mounted := by
  intro fd i hi
  obtain ⟨source, hsource⟩ := heff.table.mountOf? hi
  have hlength : h'.mounts.length = h.mounts.length := by
    simpa using congrArg List.length heff.names
  rw [hlength]
  exact hm source i hsource

theorem mounted_fresh (args env : List String) (mounts : MountTable) (stdout stderr : Redirect)
    (budget : UInt64) (deadline : Deadline) :
    (fresh args env mounts stdout stderr budget deadline).Mounted := by
  intro fd i hi
  rw [mountOf?_eq] at hi
  obtain ⟨d, hd, hi⟩ := Option.bind_eq_some_iff.mp hi
  obtain ⟨-, rfl | ⟨stream, rfl⟩⟩ | ⟨k, hk, -, rfl⟩ := fresh_descriptor hd
  · cases hi
  · cases hi
  · cases hi
    exact hk

theorem root_of_lt {i : Nat} (hi : i < h.mounts.length) : ∃ tree, h.root i = .ok tree := by
  refine ⟨h.mounts[i].root, ?_⟩
  rw [root, List.getElem?_eq_getElem hi]

end Mounts

section Preopens

variable {h h' : Host} {c : Call} {r : Reply} {fd : Fd} {i : Nat} {path : List String}

theorem TableChange.preopen_iff (hchange : TableChange h c r h') :
    h'.fds.get? fd = some (.dir i path true) ↔
      ∃ fd₀, h.fds.get? fd₀ = some (.dir i path true) ∧ c.follow (.ok r) fd₀ = some fd := by
  cases hchange with
  | same hc hfds => simp [Call.follow_of_keepsNumbers hc, hfds]
  | @moved _ _ _ moved _ _ _ _ _ _ hc hd hfds =>
    simp only [Call.follow_of_keepsNumbers hc, hfds, DescriptorTable.get?_set,
      Option.some.injEq, exists_eq_right]
    split
    · next hfd => simp [← hfd, hd]
    · rfl
  | @closed closed =>
    simp only [Call.follow, DescriptorTable.get?_erase]
    grind
  | @renumbered source target d old hd ht =>
    simp only [Call.follow, DescriptorTable.get?_set, DescriptorTable.get?_erase]
    grind
  | @opened _ _ _ _ g d hfds _ _ hd =>
    change (g.fds.set (g.allocate d).1 d).get? fd = _ ↔ _
    simp only [Call.follow, hfds, DescriptorTable.get?_set]
    grind

theorem preopen_step_iff (h : Host) (c : Call) :
    (h.step c).2.fds.get? fd = some (.dir i path true) ↔
      ∃ fd₀, h.fds.get? fd₀ = some (.dir i path true) ∧ c.follow (h.step c).1 fd₀ = some fd := by
  obtain ⟨r, hr, heff⟩ | ⟨e, he, hstay⟩ := step_cases h c
  · rw [hr]
    exact heff.table.preopen_iff
  · rw [he, hstay]
    simp [Call.follow_error]

theorem preopen_runCalls_iff (h : Host) (calls : List Call) :
    (h.runCalls calls).fds.get? fd = some (.dir i path true) ↔
      ∃ fd₀, h.fds.get? fd₀ = some (.dir i path true) ∧ h.followAll calls fd₀ = some fd := by
  induction calls generalizing h with
  | nil => simp [runCalls, followAll]
  | cons c calls ih =>
    have hrun : h.runCalls (c :: calls) = (h.step c).2.runCalls calls := rfl
    simp only [hrun, ih, preopen_step_iff h c, followAll, Option.bind_eq_some_iff]
    grind

end Preopens

/-- After any calls on a fresh host, counting the numbers that were there at the start with those
handed out since: every open number is below the count, which is the next number, as far as words
of 32 bits go. Every descriptor stands in a mount that is there and for a path of names. Those
that were open from the start are what the start had, followed through the calls. The next path
that is opened gets a number that was never open and never handed out before. -/
theorem runCalls_fresh_numbers (args env : List String) (mounts : MountTable)
    (stdout stderr : Redirect) (budget : UInt64) (deadline : Deadline) (calls : List Call) :
    let start := fresh args env mounts stdout stderr budget deadline
    let h := start.runCalls calls
    let used := firstPreopen + mounts.length + (start.handedOut calls).length
    (∀ fd d, h.fds.get? fd = some d → fd.toNat < used) ∧
    (used < UInt32.size → h.nextFd.toNat = used) ∧
    (∀ fd i, h.mountOf? fd = some i → i < mounts.length ∧ ∃ tree, h.root i = .ok tree) ∧
    (∀ fd d, h.fds.get? fd = some d → ∀ s ∈ pathOf d, Path.IsName s) ∧
    (∀ fd i path, h.fds.get? fd = some (.dir i path true) ↔
      ∃ fd₀, start.fds.get? fd₀ = some (.dir i path true) ∧
        start.followAll calls fd₀ = some fd) ∧
    (used < UInt32.size → ∀ fd path flags append m,
      (h.step (.pathOpen fd path flags append)).1 = .ok (.fd m) →
        m.toNat = used ∧ m ∉ start.handedOut calls ∧
          ∀ before, before <+: calls → (start.runCalls before).fds.get? m = none) := by
  intro start h used
  have hnumbered : start.Numbered (firstPreopen + mounts.length) :=
    numbered_fresh args env mounts stdout stderr budget deadline
  have hmounted : h.Mounted := runCalls_keeps (fun hm heff => hm.effect heff)
    (mounted_fresh args env mounts stdout stderr budget deadline) calls
  have hnamed : h.Named := runCalls_keeps (fun hn heff => hn.effect heff)
    (named_fresh args env mounts stdout stderr budget deadline) calls
  have hlength : h.mounts.length = mounts.length := by
    have hnames := congrArg List.length (names_runCalls start calls)
    rwa [List.length_map, List.length_map] at hnames
  refine ⟨fun fd d hd => hnumbered.below_runCalls hd, fun hroom => ?_, fun fd i hi => ?_, hnamed,
    fun fd i path => preopen_runCalls_iff start calls,
    fun hroom fd path flags append m hopen => hnumbered.opens_new hroom hopen⟩
  · rw [(hnumbered.runCalls (Nat.le_of_lt hroom)).1.next, UInt32.toNat_ofNat_of_lt' hroom]
  · have hlt := hmounted fd i hi
    exact ⟨hlength ▸ hlt, root_of_lt hlt⟩

theorem numbers_after_renumbering :
    let start := fresh [] [] [⟨".", .file "a" [1] .empty⟩, ⟨"lib", .empty⟩] .discard .discard 9
      none
    let calls : List Call := [.pathOpen 3 "a" {} false, .fdRenumber 3 5, .fdClose 4]
    let h := start.runCalls calls
    start.handedOut calls = [5] ∧ start.followAll calls 3 = some 5 ∧
      start.followAll calls 4 = none ∧ h.fds.get? 5 = some (.dir 0 [] true) ∧
      (h.step (.pathOpen 5 "a" {} false)).1 = .ok (.fd 6) ∧
      6 ∉ start.handedOut calls ∧
      ∀ before, before <+: calls → (start.runCalls before).fds.get? 6 = none := by
  intro start calls h
  obtain ⟨-, -, -, -, hpreopen, hnew⟩ := runCalls_fresh_numbers [] []
    [⟨".", .file "a" [1] .empty⟩, ⟨"lib", .empty⟩] .discard .discard 9 none calls
  have hhanded : start.handedOut calls = [5] := rfl
  have hfollow : start.followAll calls 3 = some 5 := rfl
  have hopen : (h.step (.pathOpen 5 "a" {} false)).1 = .ok (.fd 6) := rfl
  have hroom : firstPreopen + 2 + (start.handedOut calls).length < UInt32.size := by
    rw [hhanded]
    decide
  obtain ⟨-, hnot, hnever⟩ := hnew hroom 5 "a" {} false 6 hopen
  exact ⟨hhanded, hfollow, rfl, (hpreopen 5 0 []).mpr ⟨3, rfl, hfollow⟩, hopen, hnot, hnever⟩

end Buildbox.Host
