import Buildbox.Proofs.Utf8.Encoding

/-! The byte order of encodings is the order of the texts. -/

namespace Buildbox.Utf8

theorem cons_lt_cons_of_lt {a b : UInt8} {xs ys : Bytes} (h : a.toNat < b.toNat) :
    a :: xs < b :: ys :=
  List.cons_lt_cons_iff.mpr (.inl (UInt8.lt_iff_toNat_lt.mpr h))

theorem cons_lt_cons_of_le {a b : UInt8} {xs ys : Bytes} (h : a.toNat ≤ b.toNat)
    (hrest : a.toNat = b.toNat → xs < ys) : a :: xs < b :: ys := by
  obtain hlt | heq := Nat.lt_or_eq_of_le h
  · exact cons_lt_cons_of_lt hlt
  · exact List.cons_lt_cons_iff.mpr (.inr ⟨UInt8.toNat_inj.mp heq, hrest heq⟩)

theorem utf8EncodeChar_append_lt {a b : Char} (h : a < b) (xs ys : Bytes) :
    String.utf8EncodeChar a ++ xs < String.utf8EncodeChar b ++ ys := by
  have hlt : a.toNat < b.toNat := h
  have ha := char_bounds a
  have hb := char_bounds b
  simp only [String.utf8EncodeChar, Char.toNat_val]
  repeat' split
  all_goals simp only [List.cons_append, List.nil_append]
  -- Either the first bytes differ, or the characters are of one length and some byte does.
  all_goals
    first
    | refine cons_lt_cons_of_lt ?_
      simp only [UInt8.toNat_ofNat']
      omega
    | refine cons_lt_cons_of_le ?_ fun h1 => cons_lt_cons_of_lt ?_ <;>
        simp only [UInt8.toNat_ofNat'] at * <;> omega
    | refine cons_lt_cons_of_le ?_ fun h1 => cons_lt_cons_of_le ?_ fun h2 =>
          cons_lt_cons_of_lt ?_ <;>
        simp only [UInt8.toNat_ofNat'] at * <;> omega
    | refine cons_lt_cons_of_le ?_ fun h1 => cons_lt_cons_of_le ?_ fun h2 =>
          cons_lt_cons_of_le ?_ fun h3 => cons_lt_cons_of_lt ?_ <;>
        simp only [UInt8.toNat_ofNat'] at * <;> omega

theorem encodeChars_lt {as bs : List Char} (h : as < bs) : encodeChars as < encodeChars bs := by
  induction h with
  | @nil b bs =>
    obtain ⟨bytes, hb⟩ := exists_written b
    have hencode : encodeChars (b :: bs) = bytes ++ encodeChars bs := by
      rw [hb.eq_utf8EncodeChar]
      rfl
    rw [hencode]
    cases hb <;> exact List.nil_lt_cons _ _
  | rel hab => exact utf8EncodeChar_append_lt hab _ _
  | cons _ ih => exact List.append_left_lt ih

theorem encode_lt {s t : String} (h : s < t) : encode s < encode t :=
  encodeChars_lt (String.lt_iff.mp h)

end Buildbox.Utf8
