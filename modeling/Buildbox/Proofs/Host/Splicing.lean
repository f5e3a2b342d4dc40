import Buildbox.Host.Files

/-! Bytes put over bytes. A file is cut or filled up to a length, or data is put into it at an
offset, and the budget pays for what it grows by. -/

namespace Buildbox

/-- The bytes of a file after a write: what it had before the offset, zeros up to there if that was
less, the data, and what it had behind the data. -/
def splice (bytes : Bytes) (offset : Nat) (data : Bytes) : Bytes :=
  bytes.take offset ++ List.replicate (offset - bytes.length) 0 ++ data ++
    bytes.drop (offset + data.length)

def growth (bytes : Bytes) (offset : Nat) (data : Bytes) : Nat :=
  offset + data.length - bytes.length

/-- Holds when a write ends within 64 bits and the budget has room for the growth. -/
def WriteFits (bytes : Bytes) (offset : UInt64) (data : Bytes) (budget : UInt64) : Prop :=
  offset.toNat + data.length < UInt64.size ∧ growth bytes offset.toNat data ≤ budget.toNat

/-- Holds when a write leaves a file no longer than it was, or no longer than a file can be. -/
def WriteHolds (bytes : Bytes) (offset : UInt64) (data : Bytes) : Prop :=
  growth bytes offset.toNat data = 0 ∨ offset.toNat + data.length ≤ maxLength

section Resizing

variable {bytes out : Bytes} {size budget left : UInt64}

theorem length_resize (bytes : Bytes) (n : Nat) : (resize bytes n).length = n := by
  rw [resize, List.length_append, List.length_take, List.length_replicate]
  omega

theorem toNat_sub_ofNat {cost : Nat} (hroom : cost ≤ budget.toNat) :
    (budget - UInt64.ofNat cost).toNat = budget.toNat - cost := by
  have hcost := UInt64.toNat_ofNat_of_lt' (Nat.lt_of_le_of_lt hroom budget.toNat_lt_size)
  rw [UInt64.toNat_sub_of_le _ _ (by rwa [UInt64.le_iff_toNat_le, hcost]), hcost]

theorem resizeWithin_of_lt (hb : bytes.length < UInt64.size) (hgrow : bytes.length < size.toNat) :
    resizeWithin bytes size budget =
      if size.toNat - bytes.length ≤ budget.toNat then
        if size.toNat ≤ maxLength then
          .ok (resize bytes size.toNat, budget - UInt64.ofNat (size.toNat - bytes.length))
        else .error .overlong
      else .error (.errno .fbig) := by
  have hlt : UInt64.ofNat bytes.length < size := by
    rwa [UInt64.lt_iff_toNat_lt, UInt64.toNat_ofNat_of_lt' hb]
  have hcost : size - UInt64.ofNat bytes.length = UInt64.ofNat (size.toNat - bytes.length) := by
    rw [UInt64.ofNat_sub (Nat.le_of_lt hgrow), UInt64.ofNat_toNat]
  have hroom : size.toNat - bytes.length < UInt64.size :=
    Nat.lt_of_le_of_lt (Nat.sub_le ..) size.toNat_lt_size
  rw [resizeWithin]
  dsimp only
  rw [if_pos hlt, hcost]
  simp only [UInt64.lt_iff_toNat_lt, UInt64.toNat_ofNat_of_lt' hroom]
  simp only [← Nat.not_le, ite_not]

theorem resized_of_resizeWithin (hr : resizeWithin bytes size budget = .ok (out, left)) :
    out = resize bytes size.toNat := by
  unfold resizeWithin at hr
  dsimp only at hr
  split at hr
  · split at hr
    · cases hr
    · split at hr
      · cases hr
      · cases hr
        rfl
  · cases hr
    rfl

theorem resizeWithin_balance (hb : bytes.length < UInt64.size)
    (hr : resizeWithin bytes size budget = .ok (out, left)) :
    out.length = size.toNat ∧ out.length + left.toNat +
      (budget.toNat + (bytes.length - size.toNat) - (UInt64.size - 1)) =
        bytes.length + budget.toNat := by
  have hword : UInt64.size = 2 ^ 64 := rfl
  have hbudget := budget.toNat_lt
  by_cases hgrow : bytes.length < size.toNat
  · rw [resizeWithin_of_lt hb hgrow] at hr
    split at hr
    · next hroom =>
      split at hr
      · cases hr
        rw [length_resize, toNat_sub_ofNat hroom]
        omega
      · cases hr
    · cases hr
  · have hlen := UInt64.toNat_ofNat_of_lt' hb
    have hrefund : (UInt64.ofNat bytes.length - size).toNat = bytes.length - size.toNat := by
      rw [UInt64.toNat_sub_of_le _ _ (by rw [UInt64.le_iff_toNat_le]; omega), hlen]
    unfold resizeWithin at hr
    simp only [UInt64.lt_iff_toNat_lt, hlen, if_neg hgrow] at hr
    cases hr
    rw [length_resize]
    split
    · next hfull =>
      rw [UInt64.toNat_add, hrefund] at hfull
      rw [UInt64.toNat_ofNat']
      omega
    · next hfits =>
      rw [UInt64.toNat_add, hrefund] at hfits ⊢
      omega

end Resizing

section Splicing

variable {bytes out data : Bytes} {offset budget left : UInt64}

instance : Decidable (WriteFits bytes offset data budget) :=
  inferInstanceAs (Decidable (_ ∧ _))

instance : Decidable (WriteHolds bytes offset data) :=
  inferInstanceAs (Decidable (_ ∨ _))

theorem WriteFits.holds (hfits : WriteFits bytes offset data budget)
    (hsum : bytes.length + budget.toNat ≤ maxLength) : WriteHolds bytes offset data := by
  have hgrowth := hfits.2
  unfold WriteHolds growth at *
  omega

theorem WriteHolds.of_append {rest : Bytes} (hholds : WriteHolds bytes offset (data ++ rest)) :
    WriteHolds bytes offset data := by
  unfold WriteHolds growth at *
  rw [List.length_append] at hholds
  omega

theorem length_splice (bytes : Bytes) (offset : Nat) (data : Bytes) :
    (splice bytes offset data).length = bytes.length + growth bytes offset data := by
  simp only [splice, growth, List.length_append, List.length_take, List.length_replicate,
    List.length_drop]
  omega

theorem readAt_splice (bytes : Bytes) (offset : UInt64) (data : Bytes) :
    readAt (splice bytes offset.toNat data) offset data.length = data := by
  have hlength : (bytes.take offset.toNat ++
      List.replicate (offset.toNat - bytes.length) 0).length = offset.toNat := by
    simp only [List.length_append, List.length_take, List.length_replicate]
    omega
  rw [readAt, splice, List.append_assoc, List.drop_left' hlength, List.take_left]

theorem splice_of_le {start : Nat} (hlong : start + data.length ≤ bytes.length) :
    splice bytes start data = bytes.take start ++ data ++ bytes.drop (start + data.length) := by
  rw [splice, Nat.sub_eq_zero_of_le (by omega), List.replicate_zero, List.append_nil]

theorem splice_resize {start : Nat} (hshort : bytes.length ≤ start + data.length) :
    splice (resize bytes (start + data.length)) start data = splice bytes start data := by
  have hcut : (resize bytes (start + data.length)).take start =
      bytes.take start ++ List.replicate (start - bytes.length) 0 := by
    rw [resize, List.take_of_length_le hshort, List.take_append, List.take_replicate]
    congr 2
    omega
  have hlength := length_resize bytes (start + data.length)
  rw [splice_of_le (Nat.le_of_eq hlength.symm), splice, hcut,
    List.drop_of_length_le (Nat.le_of_eq hlength), List.drop_of_length_le hshort]

theorem splice_nil (bytes : Bytes) (start : Nat) :
    splice bytes start [] = bytes ++ List.replicate (start - bytes.length) 0 := by
  rw [splice, List.append_nil, List.length_nil, Nat.add_zero]
  rcases Nat.le_total start bytes.length with hstart | hstart
  · rw [Nat.sub_eq_zero_of_le hstart, List.replicate_zero, List.append_nil, List.append_nil,
      List.take_append_drop]
  · rw [List.take_of_length_le hstart, List.drop_of_length_le hstart, List.append_nil]

theorem growth_nil (bytes : Bytes) (start : Nat) :
    growth bytes start [] = start - bytes.length := by
  rw [growth, List.length_nil, Nat.add_zero]

theorem splice_append (bytes : Bytes) (start : Nat) (first rest : Bytes) :
    splice (splice bytes start first) (start + first.length) rest =
      splice bytes start (first ++ rest) := by
  let front := bytes.take start ++ List.replicate (start - bytes.length) 0 ++ first
  have hfront : front.length = start + first.length := by
    simp only [front, List.length_append, List.length_take, List.length_replicate]
    omega
  have hfirst : splice bytes start first = front ++ bytes.drop (start + first.length) := rfl
  have hgap : start + first.length - (splice bytes start first).length = 0 := by
    rw [hfirst, List.length_append, hfront]
    omega
  have hbehind : (splice bytes start first).drop (start + first.length + rest.length) =
      bytes.drop (start + (first ++ rest).length) := by
    rw [hfirst, ← List.drop_drop, List.drop_left' hfront, List.drop_drop, List.length_append,
      Nat.add_assoc]
  rw [splice, hgap, hbehind, hfirst, List.take_left' hfront, List.replicate_zero, List.append_nil,
    splice, ← List.append_assoc]

theorem growth_append (bytes : Bytes) (start : Nat) (first rest : Bytes) :
    growth bytes start first + growth (splice bytes start first) (start + first.length) rest =
      growth bytes start (first ++ rest) := by
  simp only [growth, length_splice, List.length_append]
  omega

/-- A write splices if it fits, as far as a file can hold it, and fails if it does not fit. -/
theorem writeAt_eq (hb : bytes.length < UInt64.size) :
    writeAt bytes offset data budget =
      if WriteFits bytes offset data budget then
        if WriteHolds bytes offset data then
          .ok (splice bytes offset.toNat data,
            budget - UInt64.ofNat (growth bytes offset.toNat data))
        else .error .overlong
      else .error (.errno .fbig) := by
  unfold writeAt
  by_cases hrange : UInt64.size ≤ offset.toNat + data.length
  · have hfits : ¬ WriteFits bytes offset data budget := fun h => Nat.not_le_of_lt h.1 hrange
    rw [if_pos hrange, if_neg hfits]
    rfl
  have hrange' := Nat.lt_of_not_le hrange
  have hstop : (offset + UInt64.ofNat data.length).toNat = offset.toNat + data.length := by
    rw [UInt64.toNat_add, UInt64.toNat_ofNat_of_lt' (by omega), Nat.mod_eq_of_lt hrange']
  have hlen := UInt64.toNat_ofNat_of_lt' hb
  rw [if_neg hrange]
  simp only [UInt64.lt_iff_toNat_lt, hlen, hstop, WriteFits, hrange', true_and]
  by_cases hshort : bytes.length < offset.toNat + data.length
  · have hsome : growth bytes offset.toNat data ≠ 0 := Nat.sub_ne_zero_of_lt hshort
    rw [if_pos hshort, resizeWithin_of_lt hb (hstop ▸ hshort), hstop, ← growth]
    simp only [WriteHolds, hsome, false_or]
    split
    · split
      · have hlength := length_resize bytes (offset.toNat + data.length)
        rw [← splice_resize (Nat.le_of_lt hshort), splice_of_le (Nat.le_of_eq hlength.symm)]
        rfl
      · rfl
    · rfl
  · have hlong := Nat.le_of_not_lt hshort
    have hnone : growth bytes offset.toNat data = 0 := Nat.sub_eq_zero_of_le hlong
    have hholds : WriteHolds bytes offset data := .inl hnone
    rw [if_neg hshort, hnone, if_pos (Nat.zero_le _), if_pos hholds, splice_of_le hlong]
    exact congrArg (fun left => Except.ok (_, left)) (UInt64.sub_zero budget).symm

theorem writeAt_of_fits (hb : bytes.length < UInt64.size)
    (hfits : WriteFits bytes offset data budget) (hholds : WriteHolds bytes offset data) :
    writeAt bytes offset data budget = .ok (splice bytes offset.toNat data,
      budget - UInt64.ofNat (growth bytes offset.toNat data)) := by
  rw [writeAt_eq hb, if_pos hfits, if_pos hholds]

theorem fits_of_writeAt {p : Bytes × UInt64} (hb : bytes.length < UInt64.size)
    (hw : writeAt bytes offset data budget = .ok p) :
    WriteFits bytes offset data budget ∧ WriteHolds bytes offset data ∧
      p = (splice bytes offset.toNat data,
        budget - UInt64.ofNat (growth bytes offset.toNat data)) := by
  rw [writeAt_eq hb] at hw
  split at hw
  · next hfits =>
    split at hw
    · next hholds =>
      cases hw
      exact ⟨hfits, hholds, rfl⟩
    · cases hw
  · cases hw

theorem WriteFits.paid (hfits : WriteFits bytes offset data budget) :
    (budget - UInt64.ofNat (growth bytes offset.toNat data)).toNat +
      growth bytes offset.toNat data = budget.toNat := by
  rw [toNat_sub_ofNat hfits.2]
  exact Nat.sub_add_cancel hfits.2

theorem writeAt_balance (hb : bytes.length < UInt64.size)
    (hw : writeAt bytes offset data budget = .ok (out, left)) :
    out.length < UInt64.size ∧ out.length + left.toNat = bytes.length + budget.toNat := by
  obtain ⟨hfits, -, heq⟩ := fits_of_writeAt hb hw
  cases heq
  have hpaid := hfits.paid
  have hend := hfits.1
  rw [length_splice]
  refine ⟨?_, by omega⟩
  unfold growth
  omega

end Splicing

end Buildbox
