import Buildbox.Proofs.Host.Writing

/-! What a descriptor of a file stands for while the trees are arranged anew: the place it was
opened at, and so whichever file stands there. -/

namespace Buildbox.Host

section Numbers

variable {h : Host} {fd : Fd} {n : Nat}

theorem mem_of_free (hused : (h.fds.get? (allocate.free h fd n)).isSome) {k : Nat} (hk : k ≤ n) :
    fd + UInt32.ofNat k ∈ h.fds.map (·.1) := by
  induction n generalizing fd k with
  | zero =>
    obtain rfl := Nat.le_zero.mp hk
    rw [show UInt32.ofNat 0 = 0 from rfl, UInt32.add_zero]
    exact DescriptorTable.mem_of_isSome_get? hused
  | succ n ih =>
    unfold allocate.free at hused
    split at hused
    · next hfd =>
      cases k with
      | zero =>
        rw [show UInt32.ofNat 0 = 0 from rfl, UInt32.add_zero]
        exact DescriptorTable.mem_of_isSome_get? hfd
      | succ k =>
        have hnext := ih hused (Nat.le_of_succ_le_succ hk)
        rwa [UInt32.add_assoc, UInt32.add_comm 1, ← UInt32.ofNat_one, ← UInt32.ofNat_add] at hnext
    · next hfd => exact absurd hused hfd

theorem get?_allocate_fst (d : Descriptor) (hroom : h.fds.length < UInt32.size) :
    h.fds.get? (h.allocate d).1 = none := by
  let numbers := (List.range (h.fds.length + 1)).map fun k => h.nextFd + UInt32.ofNat k
  have hnodup : numbers.Nodup := by
    refine List.pairwise_map.mpr (List.nodup_range.imp_of_mem fun hj hk hne heq => hne ?_)
    have hsame := congrArg UInt32.toNat (UInt32.add_right_inj _ |>.mp heq)
    rw [List.mem_range] at hj hk
    rwa [UInt32.toNat_ofNat_of_lt' (by omega), UInt32.toNat_ofNat_of_lt' (by omega)] at hsame
  cases hused : h.fds.get? (h.allocate d).1 with
  | none => rfl
  -- Every candidate is in use, which makes one more than there are descriptors.
  | some old =>
    have hsub : numbers ⊆ h.fds.map (·.1) := by
      intro m hm
      obtain ⟨k, hk, rfl⟩ := List.mem_map.mp hm
      exact mem_of_free (hused ▸ rfl) (Nat.le_of_lt_succ (List.mem_range.mp hk))
    have hlength := hnodup.length_le_of_subset hsub
    rw [List.length_map, List.length_map, List.length_range] at hlength
    omega

theorem allocate_keeps {d new : Descriptor} (hroom : h.fds.length < UInt32.size)
    (hd : h.fds.get? fd = some d) :
    (h.allocate new).2.fds.get? fd = some d ∧
      (h.allocate new).2.fds.length ≤ h.fds.length + 1 := by
  have hfree := get?_allocate_fst new hroom
  have hset : (h.allocate new).2.fds = h.fds.set (h.allocate new).1 new := rfl
  refine ⟨?_, DescriptorTable.length_set_le ..⟩
  rw [hset, DescriptorTable.get?_set, if_neg ?_, hd]
  intro heq
  rw [heq, hd] at hfree
  cases hfree

theorem step_keeps_descriptor {c : Call} {d : Descriptor} (hc : c.arranges = true)
    (hroom : h.fds.length < UInt32.size) (hd : h.fds.get? fd = some d) :
    (h.step c).2.fds.get? fd = some d ∧ (h.step c).2.fds.length ≤ h.fds.length + 1 := by
  obtain ⟨r, -, heff⟩ | ⟨e, -, hstay⟩ := step_cases h c
  · generalize (h.step c).2 = h' at heff
    cases heff with
    | openDir | openFile | openCut | create => exact allocate_keeps hroom hd
    | look | createDirectory | unlinkFile | renameSame | rename => exact ⟨hd, Nat.le_succ _⟩
    | output | write | pwrite | readInput | read | seek | close | renumber | setAppend
    | noAppend | setSize | removeDirectory | random | poll => cases hc
  · rw [hstay]
    exact ⟨hd, Nat.le_succ _⟩

theorem runCalls_keeps_descriptor {calls : List Call} {d : Descriptor}
    (hcalls : ∀ c ∈ calls, c.arranges = true)
    (hroom : h.fds.length + calls.length ≤ UInt32.size) (hd : h.fds.get? fd = some d) :
    (h.runCalls calls).fds.get? fd = some d := by
  induction calls generalizing h with
  | nil => exact hd
  | cons c calls ih =>
    obtain ⟨hc, hcalls⟩ := List.forall_mem_cons.mp hcalls
    rw [List.length_cons] at hroom
    obtain ⟨hd', hlength⟩ := step_keeps_descriptor hc (by omega) hd
    have hrest : (h.step c).2.fds.length + calls.length ≤ UInt32.size := by omega
    exact ih hcalls hrest hd'

end Numbers

def Call.writes (fd : Fd) : Call → Bool
  | .fdWrite fd' _ | .fdPwrite fd' _ _ | .fdSetSize fd' _ => fd' = fd
  | _ => false

/-- A descriptor at the start of a file gives what stands at a place. It writes into the file that
stands there, as far as a write can be made at all, and changes no file that stands elsewhere; where
no file stands, what is asked of it fails with the reason. -/
structure Reaches (h : Host) (fd : Fd) (append : Bool) (place : Nat × List String) : Prop where
  read : ∀ max, (h.step (.fdRead fd max)).1 =
    ((h.fileBytes place.1 place.2).mapError .errno).map fun bytes => .bytes (bytes.take max)
  pread : ∀ max offset, (h.step (.fdPread fd max offset)).1 =
    ((h.fileBytes place.1 place.2).mapError .errno).map fun bytes =>
      .bytes (readAt bytes offset max)
  write : ∀ c, c.writes fd = true → ∀ f : Standing, place ≠ f.place →
    ((h.step c).2.Stands f ↔ h.Stands f)
  writes : ∀ bytes data, h.Stands ⟨place, bytes⟩ → bytes.length < UInt64.size →
    Writes h (.fdWrite fd data) place bytes (writeStart bytes 0 append) data
      (h.fds.set fd (.file place.1 place.2
        (UInt64.ofNat ((writeStart bytes 0 append).toNat + data.length)) append)) ∧
    ∀ offset, Writes h (.fdPwrite fd data offset) place bytes offset data h.fds
  resizes : ∀ bytes size r h', h.Stands ⟨place, bytes⟩ → h.step (.fdSetSize fd size) = (.ok r, h') →
    h'.Stands ⟨place, resize bytes size.toNat⟩
  missing : ∀ c e, c.writes fd = true → h.fileBytes place.1 place.2 = .error e →
    h.step c = (.error (.errno e), h)

section Access

variable {h : Host} {fd : Fd} {i : Nat} {ps : List String} {position : UInt64} {append : Bool}
  (hd : h.fds.get? fd = some (.file i ps position append))
include hd

theorem stands_write_iff {c : Call} {f : Standing} (hc : c.writes fd = true)
    (hne : (i, ps) ≠ f.place) : (h.step c).2.Stands f ↔ h.Stands f := by
  obtain ⟨r, -, heff⟩ | ⟨e, -, hstay⟩ := step_cases h c
  · generalize (h.step c).2 = h' at heff
    cases heff with
    | write hd' hb | pwrite hd' hb | setSize hd' hb =>
      obtain rfl := of_decide_eq_true hc
      rw [hd] at hd'
      cases hd'
      exact stands_setFile_iff hb hne
    | output hd' =>
      obtain rfl := of_decide_eq_true hc
      rw [hd] at hd'
      cases hd'
    | look => exact Iff.rfl
    | readInput | read | seek | close | renumber | setAppend | noAppend | openDir | openFile
    | openCut | create | createDirectory | unlinkFile | removeDirectory | renameSame | rename
    | random | poll => cases hc
  · rw [hstay]

theorem stands_fdSetSize {h' : Host} {bytes : Bytes} {size : UInt64} {r : Reply}
    (hb : h.Stands ⟨(i, ps), bytes⟩) (hs : h.step (.fdSetSize fd size) = (.ok r, h')) :
    h'.Stands ⟨(i, ps), resize bytes size.toNat⟩ := by
  cases effect_of_step hs with
  | look hc => cases hc
  | setSize hd' hb' hr =>
    cases hd.symm.trans hd'
    cases hb.symm.trans hb'
    rw [resized_of_resizeWithin hr]
    exact nodeAt?_setFile hb' _

theorem step_of_missing {c : Call} {e : Errno} (hc : c.writes fd = true)
    (hb : h.fileBytes i ps = .error e) : h.step c = (.error (.errno e), h) := by
  have hfd : HostM.read (·.descriptor fd) h = .ok (.file i ps position append) h :=
    HostM.read_eq_ok.mpr ⟨descriptor_eq_ok.mpr hd, rfl⟩
  have hfile : HostM.read (·.fileBytes i ps) h = .error (.errno e) h :=
    HostM.read_eq_error.mpr ⟨e, hb, rfl, rfl⟩
  have hwrite {start : Bytes → UInt64} {data : Bytes} :
      writeFile i ps start data h = .error (.errno e) h := HostM.bind_eq_error.mpr (.inl hfile)
  have hbind {α : Type} {f : Descriptor → HostM α}
      (hf : f (.file i ps position append) h = .error (.errno e) h) :
      (HostM.read (·.descriptor fd) >>= f) h = .error (.errno e) h :=
    HostM.bind_eq_error.mpr (.inr ⟨_, h, hfd, hf⟩)
  cases c with
  | fdWrite fd' data | fdPwrite fd' data offset =>
    obtain rfl := of_decide_eq_true hc
    exact step_of_perform_error
      (HostM.map_eq_error.mpr (hbind (HostM.bind_eq_error.mpr (.inl hwrite))))
  | fdSetSize fd' size =>
    obtain rfl := of_decide_eq_true hc
    exact step_of_perform_error
      (HostM.map_eq_error.mpr (hbind (HostM.bind_eq_error.mpr (.inl hfile))))
  | _ => cases hc

end Access

section Opening

variable {h h₁ : Host} {fd opened : Fd} {path : String} {flags : OpenFlags} {append append' : Bool}
  {i : Nat} {ps : List String} {position : UInt64} {calls : List Call}

theorem opened_at (hopen : h.step (.pathOpen fd path flags append) = (.ok (.fd opened), h₁))
    (hfile : h₁.fds.get? opened = some (.file i ps position append')) :
    h.resolve fd path = .ok (i, ps) ∧ position = 0 ∧ ∃ bytes, h₁.Stands ⟨(i, ps), bytes⟩ := by
  cases effect_of_step hopen with
  | look hc => cases hc
  | openDir hp he hx ht =>
    rw [get?_allocate] at hfile
    cases hfile
  | openFile hp he hx hf ht =>
    rw [get?_allocate] at hfile
    cases hfile
    exact ⟨hp, rfl, _, he⟩
  | openCut hp he hx hf ht hr =>
    rw [get?_allocate] at hfile
    cases hfile
    exact ⟨hp, rfl, _, nodeAt?_setFile he _⟩
  | create hp hd hn hc hf =>
    rw [get?_allocate] at hfile
    cases hfile
    exact ⟨hp, rfl, _, nodeAt?_insert hd _ _⟩

/-- However the trees are arranged anew, a descriptor that was opened on a file stands for the
place where it was opened. It gives the bytes of whichever file was carried or put there by then and
writes into that file, and no write through it changes a file that stands elsewhere. -/
theorem opened_reaches_place
    (hopen : h.step (.pathOpen fd path flags append) = (.ok (.fd opened), h₁))
    (hfile : h₁.fds.get? opened = some (.file i ps position append'))
    (hcalls : ∀ c ∈ calls, c.arranges = true)
    (hroom : h₁.fds.length + calls.length ≤ UInt32.size) :
    h.resolve fd path = .ok (i, ps) ∧ (∃ bytes, h₁.Stands ⟨(i, ps), bytes⟩) ∧
      (h₁.runCalls calls).Reaches opened append' (i, ps) ∧
      ∀ f g, h₁.Stands f → h₁.carryAll calls f = some g →
        (h₁.runCalls calls).Stands g ∧
          (g.place = (i, ps) → ∀ max, ((h₁.runCalls calls).step (.fdRead opened max)).1 =
            .ok (.bytes (g.bytes.take max))) := by
  obtain ⟨hp, rfl, hstands⟩ := opened_at hopen hfile
  have hd := runCalls_keeps_descriptor hcalls hroom hfile
  have hreaches : (h₁.runCalls calls).Reaches opened append' (i, ps) :=
    { read := step_fdRead hd
      pread := step_fdPread hd
      write := fun c hc f hne => stands_write_iff hd hc hne
      writes := fun bytes data hb hlen =>
        ⟨writes_fdWrite hb hlen hd data, writes_fdPwrite hb hlen hd data⟩
      resizes := fun bytes size r h' hb hs => stands_fdSetSize hd hb hs
      missing := fun c e hc hb => step_of_missing hd hc hb }
  refine ⟨hp, hstands, hreaches, ?_⟩
  intro f g hf hg
  have hthere := stands_carryAll hcalls hf hg
  refine ⟨hthere, fun hplace max => ?_⟩
  rw [Stands, hplace] at hthere
  exact step_fdRead_file hd hthere

end Opening

section Moved

def withTwoFiles : Host :=
  fresh [] [] [⟨".", .file "a" [1] (.file "b" [2] .empty)⟩] .discard .discard 100 none

def withOpenFile : Host :=
  withTwoFiles.runCalls [.pathOpen 3 "a" {} false]

theorem opened_reaches_other :
    let h := withOpenFile.runCalls [.pathRename 3 "a" 3 "c", .pathRename 3 "b" 3 "a"]
    (h.step (.fdRead 4 9)).1 = .ok (.bytes [2]) ∧
      (∃ h', h.step (.fdWrite 4 [7, 8]) = (.ok (.count 2), h') ∧
        h'.Stands ⟨(0, ["a"]), [7, 8]⟩) ∧
      (h.step (.fdWrite 4 [7, 8])).2.Stands ⟨(0, ["c"]), [1]⟩ := by
  intro h
  have hopen : withTwoFiles.step (.pathOpen 3 "a" {} false) = (.ok (.fd 4), withOpenFile) := rfl
  have hfile : withOpenFile.fds.get? 4 = some (.file 0 ["a"] 0 false) := rfl
  have hcalls : ∀ c ∈ [Call.pathRename 3 "a" 3 "c", .pathRename 3 "b" 3 "a"],
      c.arranges = true := by decide
  obtain ⟨-, -, hreaches, hcarried⟩ := opened_reaches_place hopen hfile hcalls (by decide)
  obtain ⟨hother, hread⟩ := hcarried ⟨(0, ["b"]), [2]⟩ ⟨(0, ["a"]), [2]⟩ rfl rfl
  have hmoved := (hcarried ⟨(0, ["a"]), [1]⟩ ⟨(0, ["c"]), [1]⟩ rfl rfl).1
  have hwrites := (hreaches.writes [2] [7, 8] hother (by decide)).1
  have hbudget : h.fileBudget = 100 := rfl
  obtain ⟨r, h', hs⟩ := hwrites.succeeds_iff.mpr ⟨hbudget ▸ by decide, by decide⟩
  obtain ⟨rfl, hwritten, -⟩ := hwrites.written r h' hs
  exact ⟨hread rfl 9, ⟨h', hs, hwritten.content⟩,
    (hreaches.write (.fdWrite 4 [7, 8]) rfl _ (by decide)).mpr hmoved⟩

theorem opened_loses_file :
    let moved := withOpenFile.runCalls [.pathRename 3 "a" 3 "c"]
    let made := moved.runCalls [.pathOpen 3 "a" { create := true } false]
    withOpenFile.Reachable ∧ withOpenFile.fds.get? 4 = some (.file 0 ["a"] 0 false) ∧
      moved.Stands ⟨(0, ["c"]), [1]⟩ ∧ (moved.step (.fdRead 4 9)).1 = .error (.errno .noent) ∧
      made.Stands ⟨(0, ["a"]), []⟩ ∧
      (made.step (.fdWrite 4 [7])).2.Stands ⟨(0, ["a"]), [7]⟩ := by
  intro moved made
  have hreachable : withOpenFile.Reachable := ⟨_, _, _, _, _, _, _, _, rfl⟩
  exact ⟨hreachable, rfl, rfl, rfl, rfl, rfl⟩

end Moved

end Buildbox.Host
