import Buildbox.Text.Stream

/-! The byte forms of characters. `Written` lists them by the class of the first byte, as the
readers of this library tell characters apart, and `written_iff` says that they are the encodings
of the standard library. -/

namespace Buildbox.Utf8

theorem toNat_ofNat {n : Nat} (h : n < 0xD800 ∨ 0xDFFF < n ∧ n < 0x110000) :
    (Char.ofNat n).toNat = n := by
  rw [Char.ofNat, dif_pos h]
  rfl

theorem byte_eq_ofNat {b : UInt8} {n : Nat} (h : b.toNat = n) : b = UInt8.ofNat n := by
  rw [← h, UInt8.ofNat_toNat]

theorem isTail_iff {b : UInt8} : isTail b = true ↔ 0x80 ≤ b.toNat ∧ b.toNat ≤ 0xBF := by
  simp [isTail, UInt8.le_iff_toNat_le]

section Lead

variable {a low high : UInt8} {tails : Nat}

theorem lead_eq (a : UInt8) : lead a =
    if a.toNat < 0x80 then .ascii
    else if a.toNat < 0xC2 then .invalid
    else if a.toNat ≤ 0xDF then .multi 1 0x80 0xBF
    else if a.toNat = 0xE0 then .multi 2 0xA0 0xBF
    else if a.toNat = 0xED then .multi 2 0x80 0x9F
    else if a.toNat ≤ 0xEF then .multi 2 0x80 0xBF
    else if a.toNat = 0xF0 then .multi 3 0x90 0xBF
    else if a.toNat ≤ 0xF3 then .multi 3 0x80 0xBF
    else if a.toNat = 0xF4 then .multi 3 0x80 0x8F
    else .invalid := by
  simp only [lead, UInt8.lt_iff_toNat_lt, UInt8.le_iff_toNat_le, ← UInt8.toNat_inj]
  rfl

theorem lead_eq_ascii_iff : lead a = .ascii ↔ a.toNat < 0x80 := by
  grind [lead_eq]

theorem lead_eq_multi (h : lead a = .multi tails low high) :
    tails = 1 ∧ (0xC2 ≤ a.toNat ∧ a.toNat ≤ 0xDF) ∧ low.toNat = 0x80 ∧ high.toNat = 0xBF ∨
    tails = 2 ∧ a.toNat = 0xE0 ∧ low.toNat = 0xA0 ∧ high.toNat = 0xBF ∨
    tails = 2 ∧ a.toNat = 0xED ∧ low.toNat = 0x80 ∧ high.toNat = 0x9F ∨
    tails = 2 ∧ (0xE1 ≤ a.toNat ∧ a.toNat ≤ 0xEF ∧ a.toNat ≠ 0xED) ∧
      low.toNat = 0x80 ∧ high.toNat = 0xBF ∨
    tails = 3 ∧ a.toNat = 0xF0 ∧ low.toNat = 0x90 ∧ high.toNat = 0xBF ∨
    tails = 3 ∧ (0xF1 ≤ a.toNat ∧ a.toNat ≤ 0xF3) ∧ low.toNat = 0x80 ∧ high.toNat = 0xBF ∨
    tails = 3 ∧ a.toNat = 0xF4 ∧ low.toNat = 0x80 ∧ high.toNat = 0x8F := by
  rw [lead_eq] at h
  repeat' split at h
  all_goals cases h
  all_goals simp only [UInt8.reduceToNat, Nat.reduceEqDiff, true_and, and_true, false_and,
    or_false, false_or]
  all_goals omega

theorem exists_lead_eq_two {b : UInt8} (ha : 0xC2 ≤ a.toNat ∧ a.toNat ≤ 0xDF)
    (hb : isTail b = true) : ∃ low high, lead a = .multi 1 low high ∧ low ≤ b ∧ b ≤ high := by
  rw [isTail_iff] at hb
  refine ⟨0x80, 0xBF, ?_, UInt8.le_iff_toNat_le.mpr hb.1, UInt8.le_iff_toNat_le.mpr hb.2⟩
  rw [lead_eq, if_neg (by omega), if_neg (by omega), if_pos (by omega)]

theorem exists_lead_eq_three {b : UInt8} (ha : 0xE0 ≤ a.toNat ∧ a.toNat ≤ 0xEF)
    (hb : isTail b = true) (hfirst : a.toNat = 0xE0 → 0xA0 ≤ b.toNat)
    (hlast : a.toNat = 0xED → b.toNat ≤ 0x9F) :
    ∃ low high, lead a = .multi 2 low high ∧ low ≤ b ∧ b ≤ high := by
  rw [isTail_iff] at hb
  simp only [UInt8.le_iff_toNat_le]
  rw [lead_eq, if_neg (by omega), if_neg (by omega), if_neg (by omega)]
  by_cases h0 : a.toNat = 0xE0
  · exact ⟨0xA0, 0xBF, if_pos h0, hfirst h0, hb.2⟩
  · by_cases hD : a.toNat = 0xED
    · exact ⟨0x80, 0x9F, by rw [if_neg h0, if_pos hD], hb.1, hlast hD⟩
    · exact ⟨0x80, 0xBF, by rw [if_neg h0, if_neg hD, if_pos ha.2], hb.1, hb.2⟩

theorem exists_lead_eq_four {b : UInt8} (ha : 0xF0 ≤ a.toNat ∧ a.toNat ≤ 0xF4)
    (hb : isTail b = true) (hfirst : a.toNat = 0xF0 → 0x90 ≤ b.toNat)
    (hlast : a.toNat = 0xF4 → b.toNat ≤ 0x8F) :
    ∃ low high, lead a = .multi 3 low high ∧ low ≤ b ∧ b ≤ high := by
  rw [isTail_iff] at hb
  simp only [UInt8.le_iff_toNat_le]
  rw [lead_eq, if_neg (by omega), if_neg (by omega), if_neg (by omega), if_neg (by omega),
    if_neg (by omega), if_neg (by omega)]
  by_cases h0 : a.toNat = 0xF0
  · exact ⟨0x90, 0xBF, if_pos h0, hfirst h0, hb.2⟩
  · by_cases h4 : a.toNat = 0xF4
    · exact ⟨0x80, 0x8F, by rw [if_neg h0, if_neg (by omega), if_pos h4], hb.1, hlast h4⟩
    · exact ⟨0x80, 0xBF, by rw [if_neg h0, if_pos (by omega)], hb.1, hb.2⟩

end Lead

inductive Written : Bytes → Char → Prop
  | one {a : UInt8} (hlead : lead a = .ascii) : Written [a] (char1 a)
  | two {a b low high : UInt8} (hlead : lead a = .multi 1 low high) (hlow : low ≤ b)
      (hhigh : b ≤ high) : Written [a, b] (char2 a b)
  | three {a b c low high : UInt8} (hlead : lead a = .multi 2 low high) (hlow : low ≤ b)
      (hhigh : b ≤ high) (hc : isTail c = true) : Written [a, b, c] (char3 a b c)
  | four {a b c d low high : UInt8} (hlead : lead a = .multi 3 low high) (hlow : low ≤ b)
      (hhigh : b ≤ high) (hc : isTail c = true) (hd : isTail d = true) :
      Written [a, b, c, d] (char4 a b c d)

theorem Written.eq_utf8EncodeChar {bs : Bytes} {x : Char} (h : Written bs x) :
    bs = String.utf8EncodeChar x := by
  cases h with
  | @one a hlead =>
    have ha := lead_eq_ascii_iff.mp hlead
    have hx : (char1 a).toNat = a.toNat := toNat_ofNat (by omega)
    simp only [String.utf8EncodeChar, Char.toNat_val, hx]
    rw [if_pos (by omega), UInt8.ofNat_toNat]
  | @two a b low high hlead hlow hhigh =>
    rw [UInt8.le_iff_toNat_le] at hlow hhigh
    have hlead := lead_eq_multi hlead
    have hx : (char2 a b).toNat = a.toNat % 32 * 64 + payload b :=
      toNat_ofNat (by simp only [payload]; omega)
    simp only [String.utf8EncodeChar, Char.toNat_val, hx, payload]
    rw [if_neg (by omega), if_pos (by omega)]
    congr 1
    · exact byte_eq_ofNat (by omega)
    · congr 1
      exact byte_eq_ofNat (by omega)
  | @three a b c low high hlead hlow hhigh hc =>
    rw [UInt8.le_iff_toNat_le] at hlow hhigh
    rw [isTail_iff] at hc
    have hlead := lead_eq_multi hlead
    have hx : (char3 a b c).toNat = (a.toNat % 16 * 64 + payload b) * 64 + payload c :=
      toNat_ofNat (by simp only [payload]; omega)
    simp only [String.utf8EncodeChar, Char.toNat_val, hx, payload]
    rw [if_neg (by omega), if_neg (by omega), if_pos (by omega)]
    congr 1
    · exact byte_eq_ofNat (by omega)
    · congr 1
      · exact byte_eq_ofNat (by omega)
      · congr 1
        exact byte_eq_ofNat (by omega)
  | @four a b c d low high hlead hlow hhigh hc hd =>
    rw [UInt8.le_iff_toNat_le] at hlow hhigh
    rw [isTail_iff] at hc hd
    have hlead := lead_eq_multi hlead
    have hx : (char4 a b c d).toNat =
        ((a.toNat % 8 * 64 + payload b) * 64 + payload c) * 64 + payload d :=
      toNat_ofNat (by simp only [payload]; omega)
    simp only [String.utf8EncodeChar, Char.toNat_val, hx, payload]
    rw [if_neg (by omega), if_neg (by omega), if_neg (by omega)]
    congr 1
    · exact byte_eq_ofNat (by omega)
    · congr 1
      · exact byte_eq_ofNat (by omega)
      · congr 1
        · exact byte_eq_ofNat (by omega)
        · congr 1
          exact byte_eq_ofNat (by omega)

theorem char_bounds (x : Char) :
    x.toNat < 0xD800 ∨ 0xDFFF < x.toNat ∧ x.toNat < 0x110000 :=
  x.valid

theorem toNat_ofNat_byte {n : Nat} (h : n < 256) : (UInt8.ofNat n).toNat = n := by
  rw [UInt8.toNat_ofNat', Nat.mod_eq_of_lt h]

theorem isTail_ofNat (n : Nat) : isTail (UInt8.ofNat (n % 64 + 0x80)) = true := by
  rw [isTail_iff, toNat_ofNat_byte (by omega)]
  omega

theorem payload_ofNat (n : Nat) : payload (UInt8.ofNat (n % 64 + 0x80)) = n % 64 := by
  rw [payload, toNat_ofNat_byte (by omega)]
  omega

theorem exists_written (x : Char) : ∃ bs, Written bs x := by
  have hx := char_bounds x
  have done {n : Nat} (h : n = x.toNat) : Char.ofNat n = x := by rw [h, Char.ofNat_toNat]
  rcases Nat.lt_or_ge x.toNat 0x80 with h1 | h1
  · have ha : (UInt8.ofNat x.toNat).toNat = x.toNat := toNat_ofNat_byte (by omega)
    have hw := Written.one (a := UInt8.ofNat x.toNat) (lead_eq_ascii_iff.mpr (by omega))
    rw [char1, ha, done rfl] at hw
    exact ⟨_, hw⟩
  rcases Nat.lt_or_ge x.toNat 0x800 with h2 | h2
  · have ha : (UInt8.ofNat (x.toNat / 64 + 0xC0)).toNat = x.toNat / 64 + 0xC0 :=
      toNat_ofNat_byte (by omega)
    obtain ⟨low, high, hlead, hlow, hhigh⟩ :=
      exists_lead_eq_two (a := UInt8.ofNat (x.toNat / 64 + 0xC0)) (by omega)
        (isTail_ofNat x.toNat)
    have hw := Written.two hlead hlow hhigh
    rw [char2, ha, payload_ofNat, done (by omega)] at hw
    exact ⟨_, hw⟩
  rcases Nat.lt_or_ge x.toNat 0x10000 with h3 | h3
  · have ha : (UInt8.ofNat (x.toNat / 4096 + 0xE0)).toNat = x.toNat / 4096 + 0xE0 :=
      toNat_ofNat_byte (by omega)
    have hb : (UInt8.ofNat (x.toNat / 64 % 64 + 0x80)).toNat = x.toNat / 64 % 64 + 0x80 :=
      toNat_ofNat_byte (by omega)
    obtain ⟨low, high, hlead, hlow, hhigh⟩ :=
      exists_lead_eq_three (a := UInt8.ofNat (x.toNat / 4096 + 0xE0)) (by omega)
        (isTail_ofNat (x.toNat / 64)) (by omega) (by omega)
    have hw := Written.three hlead hlow hhigh (isTail_ofNat x.toNat)
    rw [char3, ha, payload_ofNat, payload_ofNat, done (by omega)] at hw
    exact ⟨_, hw⟩
  · have ha : (UInt8.ofNat (x.toNat / 262144 + 0xF0)).toNat = x.toNat / 262144 + 0xF0 :=
      toNat_ofNat_byte (by omega)
    have hb : (UInt8.ofNat (x.toNat / 4096 % 64 + 0x80)).toNat = x.toNat / 4096 % 64 + 0x80 :=
      toNat_ofNat_byte (by omega)
    obtain ⟨low, high, hlead, hlow, hhigh⟩ :=
      exists_lead_eq_four (a := UInt8.ofNat (x.toNat / 262144 + 0xF0)) (by omega)
        (isTail_ofNat (x.toNat / 4096)) (by omega) (by omega)
    have hw := Written.four hlead hlow hhigh (isTail_ofNat (x.toNat / 64)) (isTail_ofNat x.toNat)
    rw [char4, ha, payload_ofNat, payload_ofNat, payload_ofNat, done (by omega)] at hw
    exact ⟨_, hw⟩

theorem written_iff {bs : Bytes} {x : Char} : Written bs x ↔ bs = String.utf8EncodeChar x := by
  constructor
  · exact Written.eq_utf8EncodeChar
  · rintro rfl
    obtain ⟨bs, h⟩ := exists_written x
    exact h.eq_utf8EncodeChar ▸ h

theorem Written.eq_of_zero_mem {bs : Bytes} {x : Char} (hw : Written bs x) (h : 0 ∈ bs) :
    x = '\x00' := by
  have htail {b : UInt8} (hb : isTail b = true) : 0 ≠ b := by
    rintro rfl
    cases hb
  have hmulti {a b low high : UInt8} {tails : Nat} (hlead : lead a = .multi tails low high)
      (hlow : low ≤ b) : 0 ≠ a ∧ 0 ≠ b := by
    rw [UInt8.le_iff_toNat_le] at hlow
    have hbounds := lead_eq_multi hlead
    have hzero : (0 : UInt8).toNat = 0 := rfl
    refine ⟨?_, ?_⟩ <;> rintro rfl <;> omega
  cases hw with
  | one hlead =>
    rw [← List.mem_singleton.mp h]
    rfl
  | two hlead hlow =>
    obtain ⟨ha, hb⟩ := hmulti hlead hlow
    simp [ha, hb] at h
  | three hlead hlow hhigh hc =>
    obtain ⟨ha, hb⟩ := hmulti hlead hlow
    simp [ha, hb, htail hc] at h
  | four hlead hlow hhigh hc hd =>
    obtain ⟨ha, hb⟩ := hmulti hlead hlow
    simp [ha, hb, htail hc, htail hd] at h

theorem zero_not_mem_encode {s : String} (h : '\x00' ∉ s.toList) : 0 ∉ encode s := by
  intro hzero
  obtain ⟨x, hx, hbyte⟩ := List.mem_flatMap.mp hzero
  exact h ((written_iff.mpr rfl).eq_of_zero_mem hbyte ▸ hx)

end Buildbox.Utf8
