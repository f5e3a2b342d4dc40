import Buildbox.Proofs.Host.Checked
import Mathlib.Algebra.Ring.Int.Defs

/-! Positions and lengths in a run whose files and budget are small enough at the start. They stay
numbers of signed words, so no call on them leaves the range of its numbers or its bytes, and a seek
goes exactly where it is told. -/

namespace Buildbox.Host

variable {h h' : Host} {c : Call} {r : Reply} {fd : Fd} {i : Nat} {path : List String}
  {position : UInt64} {append : Bool} {bytes : Bytes} {d : Descriptor}

section Bounds

def positionOf : Descriptor → Nat
  | .file _ _ position _ => position.toNat
  | .stdin | .output _ | .dir .. => 0

structure Bounded (h : Host) : Prop where
  valid : h.mounts.Valid
  holdings : h.holdings < 2 ^ 63
  positions : ∀ {fd d}, h.fds.get? fd = some d → positionOf d < 2 ^ 63

theorem length_le_totalLength (hv : h.mounts.Valid) (hb : h.nodeAt? i path = some (.file bytes)) :
    bytes.length ≤ h.mounts.totalLength := by
  have hcut := totalLength_setFile hv hb []
  rw [List.length_nil] at hcut
  omega

theorem Bounded.length_add_budget (hh : h.Bounded) (hb : h.nodeAt? i path = some (.file bytes)) :
    bytes.length + h.fileBudget.toNat < 2 ^ 63 :=
  Nat.lt_of_le_of_lt (Nat.add_le_add_right (length_le_totalLength hh.valid hb) _) hh.holdings

theorem Bounded.inRange (hh : h.Bounded) : Checked.InRange h where
  lengths := hh.length_add_budget
  positions := hh.positions

theorem Bounded.write (hh : h.Bounded) {data written : Bytes} {start budget : UInt64}
    (hb : h.nodeAt? i path = some (.file bytes))
    (hw : writeAt bytes start data h.fileBudget = .ok (written, budget)) :
    (start + UInt64.ofNat data.length).toNat < 2 ^ 63 := by
  obtain ⟨⟨hend, hgrowth⟩, -⟩ := fits_of_writeAt (length_lt_of_nodeAt? hh.valid hb) hw
  have hsum := hh.length_add_budget hb
  have hdata : (UInt64.ofNat data.length).toNat = data.length :=
    UInt64.toNat_ofNat_of_lt' (by omega)
  have hmoved : (start + UInt64.ofNat data.length).toNat = start.toNat + data.length := by
    rw [UInt64.toNat_add, hdata]
    exact Nat.mod_eq_of_lt hend
  rw [growth] at hgrowth
  omega

theorem Bounded.read (hh : h.Bounded) (hb : h.nodeAt? i path = some (.file bytes))
    (hd : h.fds.get? fd = some (.file i path position append)) (max : Nat) :
    (position + UInt64.ofNat (readAt bytes position max).length).toNat < 2 ^ 63 := by
  have hposition : position.toNat < 2 ^ 63 := hh.positions hd
  have hsum := hh.length_add_budget hb
  rw [toNat_add_length_readAt (length_lt_of_nodeAt? hh.valid hb), readAt, List.length_take,
    List.length_drop]
  omega

theorem Bounded.effect (hh : h.Bounded) (heff : Effect h c r h') (hd : h'.fds.get? fd = some d) :
    positionOf d < 2 ^ 63 := by
  have hset {n : Fd} {new : Descriptor} (hd : (h.fds.set n new).get? fd = some d)
      (hnew : positionOf new < 2 ^ 63) : positionOf d < 2 ^ 63 := by
    rw [DescriptorTable.get?_set] at hd
    split at hd
    · exact Option.some.inj hd ▸ hnew
    · exact hh.positions hd
  cases heff with
  | look | readInput | noAppend | renameSame | random | poll | pwrite | setSize
  | createDirectory | unlinkFile | removeDirectory | rename => exact hh.positions hd
  | @output _ _ stream => cases stream <;> exact hh.positions hd
  | write hfd hb hw => exact hset hd (hh.write hb hw)
  | read hfd hb => exact hset hd (hh.read hb hfd _)
  | @seek _ _ _ _ _ _ _ target hfd hlow hhigh =>
    have hmax : Int64.maxValue.toInt = 2 ^ 63 - 1 := by decide
    have hlow : target.toNat < 2 ^ 63 := by omega
    refine hset hd ?_
    rwa [positionOf, UInt64.toNat_ofNat_of_lt' (Nat.lt_trans hlow (by decide))]
  | setAppend hfd =>
    have hlow := hh.positions hfd
    exact hset hd hlow
  | openDir | openFile | openCut | create => exact hset hd (Nat.two_pow_pos 63)
  | close hfd =>
    rw [DescriptorTable.get?_erase] at hd
    split at hd
    · cases hd
    · exact hh.positions hd
  | renumber hfd =>
    rw [DescriptorTable.get?_set, DescriptorTable.get?_erase] at hd
    split at hd
    · exact Option.some.inj hd ▸ hh.positions hfd
    · split at hd
      · cases hd
      · exact hh.positions hd

theorem Bounded.step (hh : h.Bounded) (c : Call) : (h.step c).2.Bounded where
  valid := (step_balanced hh.valid c).1
  holdings := by
    have hbalanced := (step_balanced hh.valid c).2
    have hholdings := hh.holdings
    omega
  positions {fd d} hd := by
    obtain ⟨r, -, heff⟩ | ⟨e, -, hstay⟩ := step_cases h c
    · exact hh.effect heff hd
    · exact hh.positions (hstay ▸ hd)

theorem Bounded.runCalls (hh : h.Bounded) (calls : List Call) : (h.runCalls calls).Bounded := by
  induction calls generalizing h with
  | nil => exact hh
  | cons c calls ih => exact ih (hh.step c)

theorem bounded_fresh (args env : List String) {mounts : MountTable} (hv : mounts.Valid)
    (stdout stderr : Redirect) {budget : UInt64}
    (hsmall : mounts.totalLength + budget.toNat < 2 ^ 63) (deadline : Deadline) :
    (fresh args env mounts stdout stderr budget deadline).Bounded where
  valid := hv
  holdings := hsmall
  positions {fd d} hd := by
    have hnone : positionOf d = 0 := by
      obtain ⟨-, rfl | ⟨stream, rfl⟩⟩ | ⟨k, -, -, rfl⟩ := fresh_descriptor hd <;> rfl
    rw [hnone]
    exact Nat.two_pow_pos 63

end Bounds

section Seeking

/-- What a seek counts from: the start, the position or the end of the file. -/
inductive SeekBase (h : Host) (i : Nat) (path : List String) (position : UInt64) :
    UInt8 → Nat → Prop where
  | start : SeekBase h i path position 0 0
  | current : SeekBase h i path position 1 position.toNat
  | fileEnd {bytes : Bytes} (hb : h.nodeAt? i path = some (.file bytes)) :
    SeekBase h i path position 2 bytes.length

theorem toInt_toInt64 (hlow : position.toNat < 2 ^ 63) :
    position.toInt64.toInt = position.toNat := by
  have hsigned : position.toInt64 = Int64.ofNat position.toNat := by
    rw [← UInt64.toInt64_ofNat', UInt64.ofNat_toNat]
  rw [hsigned, Int64.toInt_ofNat_of_lt hlow]

theorem seekBase_fileEnd : Checked.seekBase h i path position 2 =
    Checked.answer (h.fileBytes i path) >>= fun bytes =>
      Checked.ofLength bytes.length >>= Checked.signed :=
  rfl

theorem seekBase_of_lt {whence : UInt8} (hother : 2 < whence) :
    Checked.seekBase h i path position whence = .error (.code .inval) := by
  have hne {code : UInt8} (hcode : ¬ 2 < code) : whence ≠ code := by
    rintro rfl
    exact hcode hother
  have hnone : Whence.ofCode? whence = none := by
    rw [Whence.ofCode?, if_neg (hne (by decide)), if_neg (hne (by decide)),
      if_neg (hne (by decide))]
  rw [Checked.seekBase, hnone]
  rfl

theorem seekBase_eq {whence : UInt8} {base : Nat} (hr : Checked.InRange h)
    (hd : h.fds.get? fd = some (.file i path position append))
    (hbase : SeekBase h i path position whence base) :
    ∃ start, Checked.seekBase h i path position whence = .ok start ∧ start.toInt = base := by
  cases hbase with
  | start => exact ⟨0, rfl, rfl⟩
  | current =>
    have hlow := hr.positions hd
    exact ⟨position.toInt64, if_pos hlow, toInt_toInt64 hlow⟩
  | @fileEnd bytes hb =>
    have hfile := fileBytes_eq_ok.mpr hb
    have hlow : bytes.length < 2 ^ 63 :=
      Nat.lt_of_le_of_lt (Nat.le_add_right ..) (hr.lengths hb)
    have hword : (UInt64.ofNat bytes.length).toNat < 2 ^ 63 := by
      rwa [UInt64.toNat_ofNat_of_lt' (hr.length_lt hfile)]
    refine ⟨(UInt64.ofNat bytes.length).toInt64, ?_, ?_⟩
    · rw [seekBase_fileEnd, hfile]
      change Checked.ofLength bytes.length >>= Checked.signed = _
      rw [Checked.ofLength_bind (hr.length_lt hfile)]
      exact if_pos hword
    · rw [toInt_toInt64 hword, UInt64.toNat_ofNat_of_lt' (hr.length_lt hfile)]

theorem step_of_outcome (ho : Checked.outcome (perform c h) = .ok (r, h')) :
    h.step c = (.ok r, h') := by
  cases hp : perform c h with
  | ok r' h₁ =>
    rw [hp] at ho
    cases ho
    exact step_of_perform hp
  | error e h₁ =>
    rw [hp] at ho
    cases ho

theorem step_of_outcome_code {e : Errno}
    (ho : Checked.outcome (perform c h) = .error (.code e)) :
    h.step c = (.error (.errno e), h) := by
  cases hp : perform c h with
  | ok r' h₁ =>
    rw [hp] at ho
    cases ho
  | error e' h₁ =>
    rw [hp] at ho
    cases e' with
    | errno e' =>
      cases ho
      rw [step_of_perform_error hp, atomic_perform c hp]
    | overlong => cases ho

theorem perform_fdSeek (hd : h.fds.get? fd = some (.file i path position append))
    (offset : Int64) (whence : UInt8) :
    Checked.perform h (.fdSeek fd offset whence) = (do
      let base ← Checked.seekBase h i path position whence
      let n ← Checked.seekTarget base offset
      return (.offset n, { h with fds := h.fds.set fd (.file i path n append) })) := by
  rw [Checked.perform, Checked.fdSeek, descriptor_eq_ok.mpr hd]
  change (Checked.seekBase h i path position whence >>= fun base =>
    Checked.seekTarget base offset >>= fun n => pure (n, { h with
      fds := h.fds.set fd (.file i path n append) })) >>= _ = _
  simp only [bind_assoc, pure_bind]

variable {whence : UInt8} (hr : Checked.InRange h)
  (hd : h.fds.get? fd = some (.file i path position append))
include hr hd

theorem step_fdSeek_of_code {e : Errno}
    (hbase : Checked.seekBase h i path position whence = .error (.code e)) (offset : Int64) :
    h.step (.fdSeek fd offset whence) = (.error (.errno e), h) := by
  apply step_of_outcome_code
  rw [← Checked.perform_eq hr, perform_fdSeek hd, hbase]
  rfl

theorem step_fdSeek_of_base {base : Nat} (hbase : SeekBase h i path position whence base)
    (offset : Int64) :
    let target : Int := base + offset.toInt
    (0 ≤ target ∧ target < 2 ^ 63 → ∃ n : UInt64, (n.toNat : Int) = target ∧
      h.step (.fdSeek fd offset whence) = (.ok (.offset n),
        { h with fds := h.fds.set fd (.file i path n append) })) ∧
    (¬ (0 ≤ target ∧ target < 2 ^ 63) →
      h.step (.fdSeek fd offset whence) = (.error (.errno .inval), h)) := by
  intro target
  obtain ⟨start, hstart, hvalue⟩ := seekBase_eq hr hd hbase
  have hmax : Int64.maxValue.toInt = 2 ^ 63 - 1 := by decide
  have hseek : Checked.outcome (perform (.fdSeek fd offset whence) h) = (do
      let n ← Checked.seekTarget start offset
      return (.offset n, { h with fds := h.fds.set fd (.file i path n append) })) := by
    rw [← Checked.perform_eq hr, perform_fdSeek hd, hstart]
    rfl
  rw [Checked.seekTarget_eq, hvalue, hmax] at hseek
  refine ⟨fun ⟨hlow, hhigh⟩ => ?_, fun hout => ?_⟩
  · have hword : target.toNat < UInt64.size :=
      Nat.lt_trans (by omega : target.toNat < 2 ^ 63) (by decide)
    refine ⟨UInt64.ofNat target.toNat, ?_, step_of_outcome ?_⟩
    · rw [UInt64.toNat_ofNat_of_lt' hword]
      exact Int.toNat_of_nonneg hlow
    · rw [hseek, if_neg (by omega)]
      rfl
  · refine step_of_outcome_code ?_
    rw [hseek, if_pos (by omega)]
    rfl

end Seeking

/-- After any calls on a fresh host whose files and budget are together less than half of what a
word holds: so is every file and every position. No cast, sum, difference or slice in the calls on
positions leaves its range, whatever their arguments, nor one in the resizing of a file, and every
call is answered. A seek goes exactly to what it counts from plus the offset, or is refused and
leaves the position. -/
theorem runCalls_fresh_in_range (args env : List String) {mounts : MountTable} (hv : mounts.Valid)
    (stdout stderr : Redirect) {budget : UInt64}
    (hsmall : mounts.totalLength + budget.toNat < 2 ^ 63) (deadline : Deadline)
    (calls : List Call) :
    let h := (fresh args env mounts stdout stderr budget deadline).runCalls calls
    (∀ i path bytes, h.nodeAt? i path = some (.file bytes) → bytes.length < 2 ^ 63 ∧
      ∀ size, Checked.resizeWithin bytes size h.fileBudget =
        Checked.told (resizeWithin bytes size h.fileBudget) ∧
        Checked.resizeWithin bytes size h.fileBudget ≠ .error .overlong) ∧
    (∀ c, Checked.perform h c = Checked.outcome (perform c h) ∧
      Checked.perform h c ≠ .error .overlong) ∧
    ∀ fd i path position append, h.fds.get? fd = some (.file i path position append) →
      position.toNat < 2 ^ 63 ∧
      ∀ offset whence,
        (∀ base, SeekBase h i path position whence base →
          let target : Int := base + offset.toInt
          (0 ≤ target ∧ target < 2 ^ 63 → ∃ n : UInt64, (n.toNat : Int) = target ∧
            h.step (.fdSeek fd offset whence) = (.ok (.offset n),
              { h with fds := h.fds.set fd (.file i path n append) })) ∧
          (¬ (0 ≤ target ∧ target < 2 ^ 63) →
            h.step (.fdSeek fd offset whence) = (.error (.errno .inval), h))) ∧
        (2 < whence → h.step (.fdSeek fd offset whence) = (.error (.errno .inval), h)) ∧
        ∀ e, h.fileBytes i path = .error e →
          h.step (.fdSeek fd offset 2) = (.error (.errno e), h) := by
  intro h
  have hbounded : h.Bounded :=
    (bounded_fresh args env hv stdout stderr hsmall deadline).runCalls calls
  have hr := hbounded.inRange
  refine ⟨fun i path bytes hb => ⟨?_, fun size => ?_⟩,
    fun c => ⟨Checked.perform_eq hr c, Checked.perform_answered hr c⟩,
    fun fd i path position append hd => ⟨hr.positions hd, fun offset whence => ?_⟩⟩
  · exact Nat.lt_of_le_of_lt (Nat.le_add_right ..) (hr.lengths hb)
  · exact Checked.resizeWithin_answered hr (fileBytes_eq_ok.mpr hb) size
  · refine ⟨fun base hbase => step_fdSeek_of_base hr hd hbase offset, fun hother => ?_,
      fun e he => ?_⟩
    · exact step_fdSeek_of_code hr hd (seekBase_of_lt hother) offset
    · refine step_fdSeek_of_code hr hd ?_ offset
      rw [seekBase_fileEnd, he]
      rfl

theorem seeks_far :
    let mounts : MountTable := [⟨".", .file "a" [1, 2, 3] .empty⟩]
    let h := (fresh [] [] mounts .discard .discard 9 none).runCalls
      [.pathOpen 3 "a" {} false, .fdRead 4 2]
    mounts.Valid ∧
      (∃ n : UInt64, n.toNat = 9223372036854775807 ∧
        (h.step (.fdSeek 4 9223372036854775805 1)).1 = .ok (.offset n)) ∧
      h.step (.fdSeek 4 9223372036854775805 2) = (.error (.errno .inval), h) := by
  intro mounts h
  have hv : mounts.Valid := MountTable.valid_file (by decide)
  have hfile : h.nodeAt? 0 ["a"] = some (.file [1, 2, 3]) := by decide +kernel
  have hfd : h.fds.get? 4 = some (.file 0 ["a"] 2 false) := by decide +kernel
  obtain ⟨-, -, hseeks⟩ := runCalls_fresh_in_range [] [] hv .discard .discard
    (show mounts.totalLength + (9 : UInt64).toNat < 2 ^ 63 by decide) none
    [.pathOpen 3 "a" {} false, .fdRead 4 2]
  have hseek := (hseeks 4 0 ["a"] 2 false hfd).2 9223372036854775805
  refine ⟨hv, ?_, ((hseek 2).1 3 (.fileEnd hfile)).2 (by decide)⟩
  obtain ⟨n, hn, hs⟩ := ((hseek 1).1 2 .current).1 (by decide)
  have htarget : ((2 : UInt64).toNat : Int) + (9223372036854775805 : Int64).toInt =
      9223372036854775807 := by decide
  exact ⟨n, Int.ofNat_inj.mp (hn.trans htarget), congrArg Prod.fst hs⟩

end Buildbox.Host
