import Buildbox.Proofs.Host.Streaming

/-! The calls that work with positions and lengths, written once more with a check at every cast,
sum, difference and slice. Where the checks pass, they do what the calls do. -/

namespace Buildbox

/-- Why a checked call gives no value: it answers a code, or no file can be as long, or a number or a
slice is out of range. -/
inductive Halt where
  | code (e : Errno)
  | overlong
  | outOfRange
  deriving DecidableEq, Repr

def Halt.ofRefusal : Refusal → Halt
  | .errno e => .code e
  | .overlong => .overlong

abbrev Checked := Except Halt

namespace Checked

def answer {α : Type} : Except Errno α → Checked α
  | .ok a => .ok a
  | .error e => .error (.code e)

def told {α : Type} : Except Refusal α → Checked α
  | .ok a => .ok a
  | .error e => .error (.ofRefusal e)

def outcome {α : Type} : EStateM.Result Refusal Host α → Checked (α × Host)
  | .ok a h => .ok (a, h)
  | .error e _ => .error (.ofRefusal e)

section Operations

def add (a b : UInt64) : Checked UInt64 :=
  if a.toNat + b.toNat < UInt64.size then .ok (a + b) else .error .outOfRange

def sub (a b : UInt64) : Checked UInt64 :=
  if b ≤ a then .ok (a - b) else .error .outOfRange

def ofLength (n : Nat) : Checked UInt64 :=
  if n < UInt64.size then .ok (UInt64.ofNat n) else .error .outOfRange

def signed (a : UInt64) : Checked Int64 :=
  if a.toNat < 2 ^ 63 then .ok a.toInt64 else .error .outOfRange

def unsigned (n : Int) : Checked UInt64 :=
  if 0 ≤ n ∧ n < UInt64.size then .ok (UInt64.ofNat n.toNat) else .error .outOfRange

def slice (bytes : Bytes) (start stop : Nat) : Checked Bytes :=
  if start ≤ stop ∧ stop ≤ bytes.length then .ok ((bytes.drop start).take (stop - start))
  else .error .outOfRange

def overwrite (bytes : Bytes) (start stop : Nat) (data : Bytes) : Checked Bytes :=
  if start ≤ stop ∧ stop ≤ bytes.length ∧ data.length = stop - start then
    .ok (bytes.take start ++ data ++ bytes.drop stop)
  else .error .outOfRange

end Operations

section Calls

def readAt (bytes : Bytes) (offset : UInt64) (max : Nat) : Checked Bytes := do
  let length ← ofLength bytes.length
  let start := (if offset < length then offset else length).toNat
  slice bytes start (min (min (start + max) (UInt64.size - 1)) bytes.length)

def resizeWithin (bytes : Bytes) (length budget : UInt64) : Checked (Bytes × UInt64) := do
  let current ← ofLength bytes.length
  if current < length then
    let grow ← sub length current
    if budget < grow then throw (.code .fbig)
    if maxLength < length.toNat then throw .overlong
    let budget ← sub budget grow
    return (resize bytes length.toNat, budget)
  else
    let refund ← sub current length
    let budget ← add budget refund
    return (resize bytes length.toNat, budget)

def writeAt (bytes : Bytes) (offset : UInt64) (data : Bytes) (budget : UInt64) :
    Checked (Bytes × UInt64) := do
  if UInt64.size ≤ offset.toNat + data.length then throw (.code .fbig)
  let length ← ofLength data.length
  let stop ← add offset length
  let current ← ofLength bytes.length
  let (bytes, budget) ← if current < stop then resizeWithin bytes stop budget
    else pure (bytes, budget)
  let written ← overwrite bytes offset.toNat stop.toNat data
  return (written, budget)

def writeStart (bytes : Bytes) (position : UInt64) (append : Bool) : Checked UInt64 :=
  if append then ofLength bytes.length else return position

variable (h : Host)

def fdWrite (fd : Fd) (data : Bytes) : Checked (Nat × Host) := do
  match ← answer (h.descriptor fd) with
  | .stdin => throw (.code .badf)
  | .output stream => return (data.length, h.writeOutput stream data)
  | .dir .. => throw (.code .isdir)
  | .file mount path position append =>
    let bytes ← answer (h.fileBytes mount path)
    let offset ← writeStart bytes position append
    let (written, fileBudget) ← writeAt bytes offset data h.fileBudget
    let length ← ofLength data.length
    let position ← add offset length
    let h := h.refile mount path written fileBudget
    return (data.length, { h with fds := h.fds.set fd (.file mount path position append) })

def fdPwrite (fd : Fd) (data : Bytes) (offset : UInt64) : Checked (Nat × Host) := do
  match ← answer (h.descriptor fd) with
  | .stdin | .output _ => throw (.code .spipe)
  | .dir .. => throw (.code .isdir)
  | .file mount path _ _ =>
    let bytes ← answer (h.fileBytes mount path)
    let (written, fileBudget) ← writeAt bytes offset data h.fileBudget
    return (data.length, h.refile mount path written fileBudget)

def fdRead (fd : Fd) (max : Nat) : Checked (Bytes × Host) := do
  match ← answer (h.descriptor fd) with
  | .stdin => return ([], h)
  | .output _ => throw (.code .badf)
  | .dir .. => throw (.code .isdir)
  | .file mount path position append =>
    let bytes ← answer (h.fileBytes mount path)
    let data ← readAt bytes position max
    let length ← ofLength data.length
    let position ← add position length
    return (data, { h with fds := h.fds.set fd (.file mount path position append) })

def fdPread (fd : Fd) (max : Nat) (offset : UInt64) : Checked Bytes := do
  match ← answer (h.descriptor fd) with
  | .stdin | .output _ => throw (.code .spipe)
  | .dir .. => throw (.code .isdir)
  | .file mount path _ _ =>
    let bytes ← answer (h.fileBytes mount path)
    readAt bytes offset max

def seekBase (mount : Nat) (path : List String) (position : UInt64) (whence : UInt8) :
    Checked Int64 :=
  match Whence.ofCode? whence with
  | some .set => return 0
  | some .current => signed position
  | some .fileEnd => do
    let bytes ← answer (h.fileBytes mount path)
    let length ← ofLength bytes.length
    signed length
  | none => throw (.code .inval)

def seekTarget (base offset : Int64) : Checked UInt64 := do
  let target := base.toInt + offset.toInt
  if target < 0 ∨ Int64.maxValue.toInt < target then throw (.code .inval)
  unsigned target

def fdSeek (fd : Fd) (offset : Int64) (whence : UInt8) : Checked (UInt64 × Host) := do
  match ← answer (h.descriptor fd) with
  | .stdin | .output _ => throw (.code .spipe)
  | .dir .. => throw (.code .badf)
  | .file mount path position append =>
    let base ← seekBase h mount path position whence
    let position ← seekTarget base offset
    return (position, { h with fds := h.fds.set fd (.file mount path position append) })

/-- A call with its positions, lengths and slices checked, if it works with any. -/
def perform : Host.Call → Checked (Host.Reply × Host)
  | .fdWrite fd data => do
    let (n, h) ← fdWrite h fd data
    return (.count n, h)
  | .fdPwrite fd data offset => do
    let (n, h) ← fdPwrite h fd data offset
    return (.count n, h)
  | .fdRead fd max => do
    let (bytes, h) ← fdRead h fd max
    return (.bytes bytes, h)
  | .fdPread fd max offset => do
    let bytes ← fdPread h fd max offset
    return (.bytes bytes, h)
  | .fdSeek fd offset whence => do
    let (position, h) ← fdSeek h fd offset whence
    return (.offset position, h)
  | c => outcome (Host.perform c h)

end Calls

section Passing

variable {α β : Type} {h : Host} {fd : Fd} {bytes data : Bytes} {budget offset : UInt64}

theorem answer_bind_congr {x : Except Errno α} {f g : α → Checked β}
    (hfg : ∀ a, x = .ok a → f a = g a) : answer x >>= f = answer x >>= g := by
  cases x with
  | ok a => exact hfg a rfl
  | error e => rfl

theorem told_bind_congr {x : Except Refusal α} {f g : α → Checked β}
    (hfg : ∀ a, x = .ok a → f a = g a) : told x >>= f = told x >>= g := by
  cases x with
  | ok a => exact hfg a rfl
  | error e => rfl

theorem answer_bind {x : Except Errno α} {f : α → Except Errno β} :
    answer (x >>= f) = answer x >>= fun a => answer (f a) := by
  cases x <;> rfl

theorem outcome_bind {x : HostM α} {f : α → HostM β} :
    outcome ((x >>= f) h) = outcome (x h) >>= fun p => outcome (f p.1 p.2) := by
  change outcome (EStateM.bind x f h) = _
  unfold EStateM.bind
  cases x h <;> rfl

theorem outcome_map {x : HostM α} (f : α → β) :
    outcome ((f <$> x) h) = outcome (x h) >>= fun p => pure (f p.1, p.2) := by
  change outcome (EStateM.map f x h) = _
  unfold EStateM.map
  cases x h <;> rfl

theorem outcome_read (f : Host → Except Errno α) :
    outcome (HostM.read f h) = answer (f h) >>= fun a => pure (a, h) := by
  unfold HostM.read
  cases f h <;> rfl

theorem outcome_read_bind (f : Host → Except Errno α) (g : α → HostM β) :
    outcome ((HostM.read f >>= g) h) = answer (f h) >>= fun a => outcome (g a h) := by
  rw [outcome_bind, outcome_read, bind_assoc]
  rfl

theorem outcome_get_bind {f : Host → HostM β} : outcome ((get >>= f) h) = outcome (f h h) :=
  rfl

theorem ofLength_bind {n : Nat} {f : UInt64 → Checked β} (hn : n < UInt64.size) :
    ofLength n >>= f = f (UInt64.ofNat n) := by
  rw [ofLength, if_pos hn]
  rfl

theorem add_bind {a b : UInt64} {f : UInt64 → Checked β} (hab : a.toNat + b.toNat < UInt64.size) :
    add a b >>= f = f (a + b) := by
  rw [add, if_pos hab]
  rfl

theorem signed_bind {a : UInt64} {f : Int64 → Checked β} (ha : a.toNat < 2 ^ 63) :
    signed a >>= f = f a.toInt64 := by
  rw [signed, if_pos ha]
  rfl

theorem sub_bind {a b : UInt64} {f : UInt64 → Checked β} (hab : b ≤ a) :
    sub a b >>= f = f (a - b) := by
  rw [sub, if_pos hab]
  rfl

theorem writeStart_bind {position : UInt64} {append : Bool} {f : UInt64 → Checked β}
    (hlen : bytes.length < UInt64.size) :
    writeStart bytes position append >>= f = f (Host.writeStart bytes position append) := by
  cases append with
  | false => rfl
  | true => exact ofLength_bind hlen

theorem readAt_eq (hlen : bytes.length < UInt64.size) (offset : UInt64) (max : Nat) :
    readAt bytes offset max = .ok (Buildbox.readAt bytes offset max) := by
  let current := UInt64.ofNat bytes.length
  let start := min offset.toNat bytes.length
  have hlength : current.toNat = bytes.length := UInt64.toNat_ofNat_of_lt' hlen
  have hstart : (if offset < current then offset else current).toNat = start := by
    simp only [UInt64.lt_iff_toNat_lt, hlength]
    split <;> omega
  unfold readAt
  rw [ofLength_bind hlen]
  dsimp only
  rw [hstart, slice, if_pos (by omega), readAt_eq_segment]
  congr 2
  omega

theorem resizeWithin_eq (hsum : bytes.length + budget.toNat < UInt64.size) (size : UInt64) :
    resizeWithin bytes size budget = told (Buildbox.resizeWithin bytes size budget) := by
  have hlen : bytes.length < UInt64.size := by omega
  have hlength : (UInt64.ofNat bytes.length).toNat = bytes.length := UInt64.toNat_ofNat_of_lt' hlen
  unfold resizeWithin Buildbox.resizeWithin
  rw [ofLength_bind hlen]
  by_cases hgrow : UInt64.ofNat bytes.length < size
  · simp only [if_pos hgrow]
    rw [sub_bind (UInt64.le_of_lt hgrow)]
    by_cases hfull : budget < size - UInt64.ofNat bytes.length
    · simp only [if_pos hfull]
      rfl
    · simp only [if_neg hfull]
      split
      · rfl
      · rw [sub_bind (UInt64.not_lt.mp hfull)]
        rfl
  · simp only [if_neg hgrow]
    have hle := UInt64.not_lt.mp hgrow
    have hrefund : (UInt64.ofNat bytes.length - size).toNat = bytes.length - size.toNat := by
      rw [UInt64.toNat_sub_of_le _ _ hle, hlength]
    have hroom : budget.toNat + (UInt64.ofNat bytes.length - size).toNat < UInt64.size := by omega
    have hkept : ¬ budget + (UInt64.ofNat bytes.length - size) < budget := by
      rw [UInt64.lt_iff_toNat_lt, UInt64.toNat_add, Nat.mod_eq_of_lt hroom]
      omega
    rw [sub_bind hle, add_bind hroom, if_neg hkept]
    rfl

theorem overwrite_bind {start stop : Nat} {f : Bytes → Checked β}
    (hstop : stop = start + data.length) (hlong : stop ≤ bytes.length) :
    overwrite bytes start stop data >>= f = f (bytes.take start ++ data ++ bytes.drop stop) := by
  rw [overwrite, if_pos ⟨by omega, hlong, by omega⟩]
  rfl

theorem writeAt_eq (hsum : bytes.length + budget.toNat < UInt64.size) (offset : UInt64)
    (data : Bytes) :
    writeAt bytes offset data budget = told (Buildbox.writeAt bytes offset data budget) := by
  unfold writeAt Buildbox.writeAt
  by_cases hrange : UInt64.size ≤ offset.toNat + data.length
  · rw [if_pos hrange, if_pos hrange]
    rfl
  have hlen : bytes.length < UInt64.size := by omega
  have hdata : (UInt64.ofNat data.length).toNat = data.length :=
    UInt64.toNat_ofNat_of_lt' (by omega)
  have hstop : (offset + UInt64.ofNat data.length).toNat = offset.toNat + data.length := by
    rw [UInt64.toNat_add, hdata, Nat.mod_eq_of_lt (Nat.lt_of_not_le hrange)]
  rw [if_neg hrange, if_neg hrange, ofLength_bind (by omega), add_bind (by omega),
    ofLength_bind hlen]
  dsimp only
  by_cases hshort : UInt64.ofNat bytes.length < offset + UInt64.ofNat data.length
  · rw [if_pos hshort, if_pos hshort, resizeWithin_eq hsum]
    cases hr : Buildbox.resizeWithin bytes (offset + UInt64.ofNat data.length) budget with
    | error e => rfl
    | ok p =>
      obtain ⟨hlength, -⟩ := resizeWithin_balance hlen hr
      exact overwrite_bind hstop (Nat.le_of_eq hlength.symm)
  · have hlong : offset.toNat + data.length ≤ bytes.length := by
      rw [UInt64.lt_iff_toNat_lt, UInt64.toNat_ofNat_of_lt' hlen, hstop] at hshort
      omega
    rw [if_neg hshort, if_neg hshort]
    exact overwrite_bind hstop (hstop ▸ hlong)

theorem outcome_writeFile {i : Nat} {path : List String} {start : Bytes → UInt64} :
    outcome (Host.writeFile i path start data h) = (do
      let bytes ← answer (h.fileBytes i path)
      let (written, left) ← told (Buildbox.writeAt bytes (start bytes) data h.fileBudget)
      return (start bytes, h.refile i path written left)) := by
  unfold Host.writeFile
  rw [outcome_read_bind]
  refine answer_bind_congr fun bytes _ => ?_
  rw [outcome_get_bind]
  cases Buildbox.writeAt bytes (start bytes) data h.fileBudget <;> rfl

theorem seekTarget_eq (base offset : Int64) : seekTarget base offset =
    if base.toInt + offset.toInt < 0 ∨ Int64.maxValue.toInt < base.toInt + offset.toInt then
      .error (.code .inval)
    else .ok (UInt64.ofNat (base.toInt + offset.toInt).toNat) := by
  have hmax : Int64.maxValue.toInt < UInt64.size := by decide
  unfold seekTarget
  dsimp only
  split
  · rfl
  · exact if_pos (by omega)

end Passing

structure InRange (h : Host) : Prop where
  lengths : ∀ {i path bytes}, h.nodeAt? i path = some (.file bytes) →
    bytes.length + h.fileBudget.toNat < 2 ^ 63
  positions : ∀ {fd i path position append},
    h.fds.get? fd = some (.file i path position append) → position.toNat < 2 ^ 63

theorem InRange.room {h : Host} {i : Nat} {path : List String} {bytes : Bytes} (hr : InRange h)
    (hb : h.fileBytes i path = .ok bytes) : bytes.length + h.fileBudget.toNat < UInt64.size :=
  Nat.lt_trans (hr.lengths (Host.fileBytes_eq_ok.mp hb)) (by decide)

theorem InRange.le_maxLength {h : Host} {i : Nat} {path : List String} {bytes : Bytes}
    (hr : InRange h) (hb : h.fileBytes i path = .ok bytes) :
    bytes.length + h.fileBudget.toNat ≤ maxLength :=
  Nat.le_sub_one_of_lt (hr.lengths (Host.fileBytes_eq_ok.mp hb))

theorem InRange.length_lt {h : Host} {i : Nat} {path : List String} {bytes : Bytes}
    (hr : InRange h) (hb : h.fileBytes i path = .ok bytes) : bytes.length < UInt64.size :=
  Nat.lt_of_le_of_lt (Nat.le_add_right ..) (hr.room hb)

section Calls

variable {h : Host} (hr : InRange h)
include hr

theorem fdWrite_eq (fd : Fd) (data : Bytes) :
    fdWrite h fd data = outcome (Host.fdWrite fd data h) := by
  unfold fdWrite Host.fdWrite
  rw [outcome_read_bind]
  refine answer_bind_congr fun d hd => ?_
  cases d with
  | stdin | output | dir => rfl
  | file i path position append =>
    dsimp only
    rw [outcome_bind, outcome_writeFile, bind_assoc]
    refine answer_bind_congr fun bytes hb => ?_
    rw [writeStart_bind (hr.length_lt hb), writeAt_eq (hr.room hb), bind_assoc]
    refine told_bind_congr fun (written, left) hw => ?_
    have hend := (fits_of_writeAt (hr.length_lt hb) hw).1.1
    dsimp only
    rw [ofLength_bind (by omega), add_bind (by rwa [UInt64.toNat_ofNat_of_lt' (by omega)])]
    rfl

theorem fdPwrite_eq (fd : Fd) (data : Bytes) (offset : UInt64) :
    fdPwrite h fd data offset = outcome (Host.fdPwrite fd data offset h) := by
  unfold fdPwrite Host.fdPwrite
  rw [outcome_read_bind]
  refine answer_bind_congr fun d hd => ?_
  cases d with
  | stdin | output | dir => rfl
  | file i path position append =>
    dsimp only
    rw [outcome_bind, outcome_writeFile, bind_assoc]
    refine answer_bind_congr fun bytes hb => ?_
    rw [writeAt_eq (hr.room hb), bind_assoc]
    rfl

theorem fdRead_eq (fd : Fd) (max : Nat) : fdRead h fd max = outcome (Host.fdRead fd max h) := by
  unfold fdRead Host.fdRead
  rw [outcome_read_bind]
  refine answer_bind_congr fun d hd => ?_
  cases d with
  | stdin | output | dir => rfl
  | file i path position append =>
    dsimp only
    rw [outcome_read_bind]
    refine answer_bind_congr fun bytes hb => ?_
    have hlen := hr.length_lt hb
    have hread : (Buildbox.readAt bytes position max).length ≤ bytes.length - position.toNat := by
      rw [Buildbox.readAt, List.length_take, List.length_drop]
      exact Nat.min_le_right ..
    have hword := position.toNat_lt_size
    rw [readAt_eq hlen]
    change ofLength (Buildbox.readAt bytes position max).length >>= _ = _
    rw [ofLength_bind (by omega), add_bind (by rw [UInt64.toNat_ofNat_of_lt' (by omega)]; omega)]
    rfl

theorem fdPread_eq (fd : Fd) (max : Nat) (offset : UInt64) :
    fdPread h fd max offset = answer (h.fdPread fd max offset) := by
  unfold fdPread Host.fdPread
  rw [answer_bind]
  refine answer_bind_congr fun d hd => ?_
  cases d with
  | stdin | output | dir => rfl
  | file i path position append =>
    dsimp only
    rw [answer_bind]
    refine answer_bind_congr fun bytes hb => ?_
    exact readAt_eq (hr.length_lt hb) offset max

theorem fdSeek_eq (fd : Fd) (offset : Int64) (whence : UInt8) :
    fdSeek h fd offset whence = outcome (Host.fdSeek fd offset whence h) := by
  unfold fdSeek Host.fdSeek
  rw [outcome_read_bind]
  refine answer_bind_congr fun d hd => ?_
  cases d with
  | stdin | output | dir => rfl
  | file i path position append =>
    have hmove (base : Int64) : (do
        let position ← seekTarget base offset
        return (position, { h with fds := h.fds.set fd (.file i path position append) })) =
        outcome ((do
          let target := base.toInt + offset.toInt
          if target < 0 ∨ Int64.maxValue.toInt < target then throw (.errno .inval)
          let position := UInt64.ofNat target.toNat
          modify fun h => { h with fds := h.fds.set fd (.file i path position append) }
          return position : HostM UInt64) h) := by
      rw [seekTarget_eq]
      dsimp only
      split <;> rfl
    unfold seekBase
    cases Whence.ofCode? whence with
    | none => rfl
    | some w =>
      cases w with
      | set => exact hmove 0
      | current =>
        dsimp only
        rw [signed_bind (hr.positions (Host.descriptor_eq_ok.mp hd))]
        exact hmove position.toInt64
      | fileEnd =>
        dsimp only
        rw [outcome_read_bind, bind_assoc]
        refine answer_bind_congr fun bytes hb => ?_
        have hlow := hr.lengths (Host.fileBytes_eq_ok.mp hb)
        have hlength := UInt64.toNat_ofNat_of_lt' (hr.length_lt hb)
        rw [ofLength_bind (hr.length_lt hb), signed_bind (by rw [hlength]; omega)]
        exact hmove (UInt64.ofNat bytes.length).toInt64

/-- Where positions and lengths are in range no check fails, and the checked calls are the calls. -/
theorem perform_eq (c : Host.Call) : perform h c = outcome (Host.perform c h) := by
  cases c with
  | fdWrite fd data => rw [perform, fdWrite_eq hr, Host.perform, outcome_map]
  | fdPwrite fd data offset => rw [perform, fdPwrite_eq hr, Host.perform, outcome_map]
  | fdRead fd max => rw [perform, fdRead_eq hr, Host.perform, outcome_map]
  | fdPread fd max offset =>
    rw [perform, fdPread_eq hr, Host.perform, outcome_map, outcome_read, bind_assoc]
    rfl
  | fdSeek fd offset whence => rw [perform, fdSeek_eq hr, Host.perform, outcome_map]
  | _ => rfl

theorem writeAt_ne_overlong {i : Nat} {path : List String} {bytes : Bytes}
    (hb : h.fileBytes i path = .ok bytes) (offset : UInt64) (data : Bytes) :
    Buildbox.writeAt bytes offset data h.fileBudget ≠ .error .overlong := by
  rw [Buildbox.writeAt_eq (hr.length_lt hb)]
  split
  · next hfits =>
    rw [if_pos (hfits.holds (hr.le_maxLength hb))]
    nofun
  · nofun

theorem resizeWithin_ne_overlong {i : Nat} {path : List String} {bytes : Bytes}
    (hb : h.fileBytes i path = .ok bytes) (size : UInt64) :
    Buildbox.resizeWithin bytes size h.fileBudget ≠ .error .overlong := by
  by_cases hgrow : bytes.length < size.toNat
  · have hsum := hr.le_maxLength hb
    rw [resizeWithin_of_lt (hr.length_lt hb) hgrow]
    split
    · rw [if_pos (by omega)]
      intro hgone
      cases hgone
    · intro hgone
      cases hgone
  · have hnot : ¬ UInt64.ofNat bytes.length < size := by
      rwa [UInt64.lt_iff_toNat_lt, UInt64.toNat_ofNat_of_lt' (hr.length_lt hb)]
    rw [Buildbox.resizeWithin, if_neg hnot]
    intro hgone
    cases hgone

theorem resizeWithin_answered {i : Nat} {path : List String} {bytes : Bytes}
    (hb : h.fileBytes i path = .ok bytes) (size : UInt64) :
    resizeWithin bytes size h.fileBudget =
        told (Buildbox.resizeWithin bytes size h.fileBudget) ∧
      resizeWithin bytes size h.fileBudget ≠ .error .overlong := by
  have heq := resizeWithin_eq (hr.room hb) size
  refine ⟨heq, ?_⟩
  rw [heq]
  cases hs : Buildbox.resizeWithin bytes size h.fileBudget with
  | ok p => nofun
  | error e =>
    cases e with
    | errno e => nofun
    | overlong => exact absurd hs (resizeWithin_ne_overlong hr hb size)

theorem writeFile_ne_overlong {i : Nat} {path : List String} {start : Bytes → UInt64}
    {data : Bytes} {h' : Host} : Host.writeFile i path start data h ≠ .error .overlong h' := by
  unfold Host.writeFile
  intro herr
  obtain hread | ⟨bytes, _, hok, herr⟩ := HostM.bind_eq_error.mp herr
  · exact HostM.coded_read _ hread
  · obtain ⟨hb, rfl⟩ := HostM.read_eq_ok.mp hok
    obtain hget | ⟨_, _, hok, herr⟩ := HostM.bind_eq_error.mp herr
    · exact HostM.sure_get hget
    · obtain ⟨rfl, rfl⟩ := HostM.get_eq_ok.mp hok
      cases hw : Buildbox.writeAt bytes (start bytes) data h.fileBudget with
      | ok p =>
        rw [hw] at herr
        cases herr
      | error e =>
        rw [hw] at herr
        cases herr
        exact writeAt_ne_overlong hr hb _ _ hw

theorem fdWrite_ne_overlong {fd : Fd} {data : Bytes} {h' : Host} :
    Host.fdWrite fd data h ≠ .error .overlong h' := by
  intro herr
  obtain hread | ⟨d, _, hok, herr⟩ := HostM.bind_eq_error.mp herr
  · exact HostM.coded_read _ hread
  obtain ⟨-, rfl⟩ := HostM.read_eq_ok.mp hok
  have hmoved {f : Host → Host} {n : Nat} :
      HostM.Sure (do
        modify f
        return n) := (HostM.sure_modify f).bind fun _ => HostM.sure_pure n
  cases d with
  | stdin | dir => exact HostM.coded_throw_bind _ _ herr
  | output stream => exact hmoved herr
  | file i path position append =>
    obtain hwrite | ⟨_, _, -, herr⟩ := HostM.bind_eq_error.mp herr
    · exact writeFile_ne_overlong hr hwrite
    · exact hmoved herr

theorem fdPwrite_ne_overlong {fd : Fd} {data : Bytes} {offset : UInt64} {h' : Host} :
    Host.fdPwrite fd data offset h ≠ .error .overlong h' := by
  intro herr
  obtain hread | ⟨d, _, hok, herr⟩ := HostM.bind_eq_error.mp herr
  · exact HostM.coded_read _ hread
  obtain ⟨-, rfl⟩ := HostM.read_eq_ok.mp hok
  cases d with
  | stdin | output | dir => exact HostM.coded_throw _ herr
  | file i path position append =>
    obtain hwrite | ⟨_, _, -, herr⟩ := HostM.bind_eq_error.mp herr
    · exact writeFile_ne_overlong hr hwrite
    · exact HostM.sure_pure _ herr

theorem fdSetSize_ne_overlong {fd : Fd} {size : UInt64} {h' : Host} :
    Host.fdSetSize fd size h ≠ .error .overlong h' := by
  intro herr
  obtain hread | ⟨d, _, hok, herr⟩ := HostM.bind_eq_error.mp herr
  · exact HostM.coded_read _ hread
  obtain ⟨-, rfl⟩ := HostM.read_eq_ok.mp hok
  cases d with
  | stdin | output | dir => exact HostM.coded_throw _ herr
  | file i path position append =>
    obtain hread | ⟨bytes, _, hok, herr⟩ := HostM.bind_eq_error.mp herr
    · exact HostM.coded_read _ hread
    obtain ⟨hb, rfl⟩ := HostM.read_eq_ok.mp hok
    obtain hget | ⟨_, _, hok, herr⟩ := HostM.bind_eq_error.mp herr
    · exact HostM.sure_get hget
    obtain ⟨rfl, rfl⟩ := HostM.get_eq_ok.mp hok
    cases hs : Buildbox.resizeWithin bytes size h.fileBudget with
    | ok p =>
      rw [hs] at herr
      exact HostM.sure_set _ herr
    | error e =>
      rw [hs] at herr
      cases herr
      exact resizeWithin_ne_overlong hr hb _ hs

theorem perform_ne_overlong (c : Host.Call) (h' : Host) :
    Host.perform c h ≠ .error .overlong h' := by
  cases hc : c.lengthens with
  | false => exact fun herr => Host.coded_perform hc herr
  | true =>
    intro herr
    cases c with
    | fdWrite => exact fdWrite_ne_overlong hr (HostM.map_eq_error.mp herr)
    | fdPwrite => exact fdPwrite_ne_overlong hr (HostM.map_eq_error.mp herr)
    | fdSetSize => exact fdSetSize_ne_overlong hr (HostM.map_eq_error.mp herr)
    | _ => cases hc

theorem perform_answered (c : Host.Call) : perform h c ≠ .error .overlong := by
  rw [perform_eq hr]
  cases hp : Host.perform c h with
  | ok r h' => nofun
  | error e h' =>
    cases e with
    | errno e => nofun
    | overlong => exact absurd hp (perform_ne_overlong hr c h')

end Calls

end Checked

end Buildbox
