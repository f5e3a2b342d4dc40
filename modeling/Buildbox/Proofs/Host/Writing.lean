import Buildbox.Proofs.Host.Budget
import Buildbox.Proofs.Host.Carrying
import Buildbox.Proofs.Host.Reading

/-! Writes into files, wherever they start: inside the file, across its end or behind it. What the
file holds afterwards, what the budget pays, and that nothing else changes. -/

namespace Buildbox

namespace Host

open HostM

variable {h h' : Host} {fd : Fd} {i : Nat} {path : List String} {position offset : UInt64}
  {append : Bool} {bytes data : Bytes} {c : Call} {fds : DescriptorTable}

/-- What a write into the file at a place has done: the file holds the data, the budget has paid,
nothing that stands elsewhere has changed, and every descriptor of the file reads the data back. -/
structure Written (h : Host) (place : Nat × List String) (bytes : Bytes) (offset : UInt64)
    (data : Bytes) (h' : Host) : Prop where
  content : h'.nodeAt? place.1 place.2 = some (.file (splice bytes offset.toNat data))
  kept : ∀ i path, (i, path) ≠ place → h'.kindAt? i path = h.kindAt? i path
  names : h'.mounts.map (·.name) = h.mounts.map (·.name)
  paid : h'.fileBudget.toNat + growth bytes offset.toNat data = h.fileBudget.toNat
  others : h' = { h with mounts := h'.mounts, fds := h'.fds, fileBudget := h'.fileBudget }
  readBack : ∀ fd position append,
    h'.fds.get? fd = some (.file place.1 place.2 position append) →
      (h'.step (.fdPread fd data.length offset)).1 = .ok (.bytes data)

/-- A call that writes data at an offset into the file at a place, and leaves these descriptors. It
succeeds exactly if the write fits and the file can hold it. Otherwise it changes nothing: a write
that does not fit is refused, and one that no file could hold gets no answer at all. -/
structure Writes (h : Host) (c : Call) (place : Nat × List String) (bytes : Bytes)
    (offset : UInt64) (data : Bytes) (fds : DescriptorTable) : Prop where
  succeeds_iff : (∃ r h', h.step c = (.ok r, h')) ↔
    WriteFits bytes offset data h.fileBudget ∧ WriteHolds bytes offset data
  written : ∀ r h', h.step c = (.ok r, h') →
    r = .count data.length ∧ Written h place bytes offset data h' ∧ h'.fds = fds
  refused : ∀ e h', h.step c = (.error e, h') → h' = h ∧
    (¬ WriteFits bytes offset data h.fileBudget ∧ e = .errno .fbig ∨
      WriteFits bytes offset data h.fileBudget ∧ ¬ WriteHolds bytes offset data ∧ e = .overlong)

section Files

theorem step_fdPread_splice
    (hb : h.nodeAt? i path = some (.file (splice bytes offset.toNat data)))
    (hd : h.fds.get? fd = some (.file i path position append)) :
    (h.step (.fdPread fd data.length offset)).1 = .ok (.bytes data) := by
  rw [step_fdPread hd, fileBytes_eq_ok.mpr hb]
  exact congrArg (fun read => Except.ok (Reply.bytes read)) (readAt_splice bytes offset data)

variable (hb : h.nodeAt? i path = some (.file bytes))
include hb

theorem written_refile (hfits : WriteFits bytes offset data h.fileBudget) (fds : DescriptorTable) :
    Written h (i, path) bytes offset data
      { h.refile i path (splice bytes offset.toNat data)
          (h.fileBudget - UInt64.ofNat (growth bytes offset.toNat data)) with fds } := by
  have hcontent := nodeAt?_setFile hb (splice bytes offset.toNat data)
  exact ⟨hcontent, fun j qs hne => kindAt?_setFile_of_ne hb (Ne.symm hne),
    MountTable.names_modifyAt .., hfits.paid, rfl, fun fd position append hd =>
      step_fdPread_splice hcontent hd⟩

theorem writeFile_eq_error {start : Bytes → UInt64} {e : Refusal}
    (hw : writeAt bytes (start bytes) data h.fileBudget = .error e) :
    writeFile i path start data h = .error e h := by
  unfold writeFile
  refine bind_eq_error.mpr (.inr ⟨bytes, h, read_eq_ok.mpr ⟨fileBytes_eq_ok.mpr hb, rfl⟩, ?_⟩)
  refine bind_eq_error.mpr (.inr ⟨h, h, rfl, ?_⟩)
  rw [hw]
  rfl

theorem fdWrite_of_writeAt {written : Bytes} {left : UInt64}
    (hd : h.fds.get? fd = some (.file i path position append))
    (hw : writeAt bytes (writeStart bytes position append) data h.fileBudget =
      .ok (written, left)) :
    fdWrite fd data h = .ok data.length { h.refile i path written left with
      fds := h.fds.set fd (.file i path
        (writeStart bytes position append + UInt64.ofNat data.length) append) } := by
  have hfd : HostM.read (·.descriptor fd) h = .ok (.file i path position append) h :=
    read_eq_ok.mpr ⟨descriptor_eq_ok.mpr hd, rfl⟩
  have hwrite : writeFile i path (fun bytes => writeStart bytes position append) data h =
      .ok (writeStart bytes position append) (h.refile i path written left) :=
    writeFile_eq_ok.mpr ⟨bytes, written, left, hb, hw, rfl, rfl⟩
  exact bind_eq_ok.mpr ⟨_, h, hfd, bind_eq_ok.mpr ⟨_, _, hwrite, rfl⟩⟩

theorem writes_of_perform {x : HostM Nat} (hlen : bytes.length < UInt64.size)
    (hc : perform c = Reply.count <$> x)
    (hok : ∀ written left, writeAt bytes offset data h.fileBudget = .ok (written, left) →
      x h = .ok data.length { h.refile i path written left with fds })
    (herr : ∀ e, writeAt bytes offset data h.fileBudget = .error e → x h = .error e h) :
    Writes h c (i, path) bytes offset data fds := by
  rw [writeAt_eq hlen] at hok herr
  have hfailed {e : Refusal} (hx : x h = .error e h) : h.step c = (.error e, h) :=
    step_of_perform_error (hc ▸ map_eq_error.mpr hx)
  by_cases hfits : WriteFits bytes offset data h.fileBudget
  · rw [if_pos hfits] at hok herr
    by_cases hholds : WriteHolds bytes offset data
    · have hstep := step_of_perform (hc ▸ map_eq_ok.mpr ⟨_, hok _ _ (if_pos hholds), rfl⟩)
      refine ⟨⟨fun _ => ⟨hfits, hholds⟩, fun _ => ⟨_, _, hstep⟩⟩, fun r h' hs => ?_,
        fun e h' hs => ?_⟩
      · cases hstep.symm.trans hs
        exact ⟨rfl, written_refile hb hfits fds, rfl⟩
      · cases hstep.symm.trans hs
    · have hstep := hfailed (herr _ (if_neg hholds))
      refine ⟨⟨fun ⟨r, h', hs⟩ => ?_, fun hboth => absurd hboth.2 hholds⟩, fun r h' hs => ?_,
        fun e h' hs => ?_⟩
      · cases hstep.symm.trans hs
      · cases hstep.symm.trans hs
      · cases hstep.symm.trans hs
        exact ⟨rfl, .inr ⟨hfits, hholds, rfl⟩⟩
  · have hstep := hfailed (herr _ (if_neg hfits))
    refine ⟨⟨fun ⟨r, h', hs⟩ => ?_, fun hboth => absurd hboth.1 hfits⟩, fun r h' hs => ?_,
      fun e h' hs => ?_⟩
    · cases hstep.symm.trans hs
    · cases hstep.symm.trans hs
    · cases hstep.symm.trans hs
      exact ⟨rfl, .inl ⟨hfits, rfl⟩⟩

variable (hlen : bytes.length < UInt64.size)
  (hd : h.fds.get? fd = some (.file i path position append))
include hlen hd

theorem writes_fdWrite (data : Bytes) :
    Writes h (.fdWrite fd data) (i, path) bytes (writeStart bytes position append) data
      (h.fds.set fd (.file i path
        (UInt64.ofNat ((writeStart bytes position append).toNat + data.length)) append)) := by
  rw [UInt64.ofNat_add, UInt64.ofNat_toNat]
  refine writes_of_perform hb hlen rfl (fun written left hw => fdWrite_of_writeAt hb hd hw)
    fun e hw => ?_
  have hfd : HostM.read (·.descriptor fd) h = .ok (.file i path position append) h :=
    read_eq_ok.mpr ⟨descriptor_eq_ok.mpr hd, rfl⟩
  have hwrite : writeFile i path (fun bytes => writeStart bytes position append) data h =
      .error e h := writeFile_eq_error hb hw
  exact bind_eq_error.mpr (.inr ⟨_, h, hfd, bind_eq_error.mpr (.inl hwrite)⟩)

theorem writes_fdPwrite (data : Bytes) (offset : UInt64) :
    Writes h (.fdPwrite fd data offset) (i, path) bytes offset data h.fds := by
  have hfd : HostM.read (·.descriptor fd) h = .ok (.file i path position append) h :=
    read_eq_ok.mpr ⟨descriptor_eq_ok.mpr hd, rfl⟩
  let start (_ : Bytes) : UInt64 := offset
  refine writes_of_perform hb hlen rfl (fun written left hw => ?_) fun e hw => ?_
  · have hwrite : writeFile i path start data h = .ok offset (h.refile i path written left) :=
      writeFile_eq_ok.mpr ⟨bytes, written, left, hb, hw, rfl, rfl⟩
    exact bind_eq_ok.mpr ⟨_, h, hfd, bind_eq_ok.mpr ⟨_, _, hwrite, rfl⟩⟩
  · have hwrite : writeFile i path start data h = .error e h := writeFile_eq_error hb hw
    exact bind_eq_error.mpr (.inr ⟨_, h, hfd, bind_eq_error.mpr (.inl hwrite)⟩)

end Files

/-- After any calls on a fresh host, for every descriptor of a file: a write succeeds exactly if it
ends within 64 bits, the budget has room for its growth and a file that grows stays one that can be
held. The file then holds its old bytes, with zeros up to the data if it was shorter, and the data
over them; only a write at the position moves it, and what was written is read back through every
descriptor of the file. -/
theorem runCalls_fresh_writes (args env : List String) {mounts : MountTable} (hv : mounts.Valid)
    (stdout stderr : Redirect) (budget : UInt64) (deadline : Deadline) (calls : List Call) :
    let h := (fresh args env mounts stdout stderr budget deadline).runCalls calls
    ∀ fd i path position append bytes data, h.fds.get? fd = some (.file i path position append) →
      h.nodeAt? i path = some (.file bytes) →
        Writes h (.fdWrite fd data) (i, path) bytes (writeStart bytes position append) data
          (h.fds.set fd (.file i path
            (UInt64.ofNat ((writeStart bytes position append).toNat + data.length)) append)) ∧
        ∀ offset, Writes h (.fdPwrite fd data offset) (i, path) bytes offset data h.fds := by
  intro h fd i path position append bytes data hd hb
  have hvalid : h.mounts.Valid := valid_runCalls hv calls
  have hlen := length_lt_of_nodeAt? hvalid hb
  exact ⟨writes_fdWrite hb hlen hd data, writes_fdPwrite hb hlen hd data⟩

theorem writes_behind_end :
    let mounts : MountTable := [⟨".", .file "a" [1, 2, 3] .empty⟩]
    let h := (fresh [] [] mounts .discard .discard 4 none).runCalls
      [.pathOpen 3 "a" {} false, .pathOpen 3 "a" {} true]
    mounts.Valid ∧
      (∃ h', h.step (.fdPwrite 4 [9] 5) = (.ok (.count 1), h') ∧
        h'.nodeAt? 0 ["a"] = some (.file [1, 2, 3, 0, 0, 9]) ∧
        (h'.step (.fdPread 5 1 5)).1 = .ok (.bytes [9])) ∧
      ∀ r h', h.step (.fdWrite 5 [7, 7, 7, 7, 7]) ≠ (.ok r, h') := by
  intro mounts h
  have hv : mounts.Valid := by
    intro m hm
    rw [List.mem_singleton.mp hm]
    exact ⟨⟨fun _ hn => absurd hn List.not_mem_nil, trivial⟩, ⟨by decide, trivial⟩⟩
  have hfile : h.nodeAt? 0 ["a"] = some (.file [1, 2, 3]) := by rfl
  have hfirst : h.fds.get? 4 = some (.file 0 ["a"] 0 false) := by rfl
  have hsecond : h.fds.get? 5 = some (.file 0 ["a"] 0 true) := by rfl
  have hbudget : h.fileBudget = 4 := by rfl
  have hwrites := runCalls_fresh_writes [] [] hv .discard .discard 4 none
    [.pathOpen 3 "a" {} false, .pathOpen 3 "a" {} true]
  have hput := (hwrites 4 0 ["a"] 0 false [1, 2, 3] [9] hfirst hfile).2 5
  have happend := (hwrites 5 0 ["a"] 0 true [1, 2, 3] [7, 7, 7, 7, 7] hsecond hfile).1
  refine ⟨hv, ?_, fun r h' hs => ?_⟩
  · obtain ⟨r, h', hs⟩ := hput.succeeds_iff.mpr (hbudget ▸ by decide)
    obtain ⟨rfl, hwritten, hfds⟩ := hput.written r h' hs
    exact ⟨h', hs, hwritten.content, hwritten.readBack 5 0 true (hfds ▸ hsecond)⟩
  · have hfull : ¬ WriteFits [1, 2, 3] (writeStart [1, 2, 3] 0 true) [7, 7, 7, 7, 7] 4 := by decide
    exact hfull (hbudget ▸ (happend.succeeds_iff.mp ⟨r, h', hs⟩).1)

/-- A write may fit, and the budget pay for it, into a file that cannot grow to where it ends. -/
theorem far_write_unanswered :
    let far : UInt64 := 9223372036854775808
    let h := (fresh [] [] [⟨".", .file "a" [1] .empty⟩] .discard .discard far none).runCalls
      [.pathOpen 3 "a" {} false]
    h.fds.get? 4 = some (.file 0 ["a"] 0 false) ∧ h.nodeAt? 0 ["a"] = some (.file [1]) ∧
      WriteFits [1] far [7] h.fileBudget ∧
        h.step (.fdPwrite 4 [7] far) = (.error .overlong, h) := by
  refine ⟨by rfl, by rfl, ?_, by rfl⟩
  decide +kernel

end Host

end Buildbox
