import Buildbox.Proofs.Utf8.Encoding

/-! Bytes as text, said without a procedure: `Reading` lets characters stand for themselves and
puts one replacement character for each fault, the longest start of a character that breaks off.
It holds of one text, the one that `lossy` gives. -/

namespace Buildbox.Utf8

inductive Opening : Bytes → Prop
  | one {a low high : UInt8} {tails : Nat} (hlead : lead a = .multi tails low high) :
      Opening [a]
  | two {a b low high : UInt8} {tails : Nat} (hlead : lead a = .multi tails low high)
      (hlow : low ≤ b) (hhigh : b ≤ high) (htails : tails ≠ 1) : Opening [a, b]
  | three {a b c low high : UInt8} {tails : Nat} (hlead : lead a = .multi tails low high)
      (hlow : low ≤ b) (hhigh : b ≤ high) (htails : tails ≠ 1) (hc : isTail c = true)
      (htails' : tails ≠ 2) : Opening [a, b, c]

theorem lead_tails {a low high : UInt8} {tails : Nat} (h : lead a = .multi tails low high)
    (h1 : tails ≠ 1) (h2 : tails ≠ 2) : tails = 3 := by
  have := lead_eq_multi h
  omega

theorem low_le_high {a low high : UInt8} {tails : Nat} (h : lead a = .multi tails low high) :
    low ≤ high := by
  have := lead_eq_multi h
  rw [UInt8.le_iff_toNat_le]
  omega

theorem not_outside {b low high : UInt8} (hlow : low ≤ b) (hhigh : b ≤ high) :
    ¬ (b < low ∨ high < b) := by
  rw [not_or, UInt8.not_lt, UInt8.not_lt]
  exact ⟨hlow, hhigh⟩

theorem Opening.exists_written {p : Bytes} (h : Opening p) :
    ∃ q x, q ≠ [] ∧ Written (p ++ q) x := by
  have htail : isTail 0x80 = true := by decide
  cases h with
  | @one a low high tails hlead =>
    by_cases h1 : tails = 1
    · subst h1
      exact ⟨[low], _, by simp, .two hlead (UInt8.le_refl _) (low_le_high hlead)⟩
    by_cases h2 : tails = 2
    · subst h2
      exact ⟨[low, 0x80], _, by simp, .three hlead (UInt8.le_refl _) (low_le_high hlead) htail⟩
    · cases lead_tails hlead h1 h2
      exact ⟨[low, 0x80, 0x80], _, by simp,
        .four hlead (UInt8.le_refl _) (low_le_high hlead) htail htail⟩
  | @two a b low high tails hlead hlow hhigh h1 =>
    by_cases h2 : tails = 2
    · subst h2
      exact ⟨[0x80], _, by simp, .three hlead hlow hhigh htail⟩
    · cases lead_tails hlead h1 h2
      exact ⟨[0x80, 0x80], _, by simp, .four hlead hlow hhigh htail htail⟩
  | @three a b c low high tails hlead hlow hhigh h1 hc h2 =>
    cases lead_tails hlead h1 h2
    exact ⟨[0x80], _, by simp, .four hlead hlow hhigh hc htail⟩

theorem Opening.length_le {p : Bytes} (h : Opening p) : p.length ≤ 3 := by
  cases h <;> simp

theorem Written.opening_take {bs : Bytes} {x : Char} {n : Nat} (h : Written bs x) (h0 : 0 < n)
    (hn : n < bs.length) : Opening (bs.take n) := by
  cases h with
  | one hlead =>
    rw [List.length_singleton] at hn
    omega
  | two hlead hlow hhigh =>
    obtain rfl : n = 1 := Nat.le_antisymm (Nat.le_of_lt_succ hn) h0
    exact .one hlead
  | three hlead hlow hhigh hc =>
    have hn : n < 3 := hn
    obtain rfl | rfl : n = 1 ∨ n = 2 := by omega
    · exact .one hlead
    · exact .two hlead hlow hhigh (by decide)
  | four hlead hlow hhigh hc hd =>
    have hn : n < 4 := hn
    obtain rfl | rfl | rfl : n = 1 ∨ n = 2 ∨ n = 3 := by omega
    · exact .one hlead
    · exact .two hlead hlow hhigh (by decide)
    · exact .three hlead hlow hhigh (by decide) hc (by decide)

theorem opening_iff {p : Bytes} : Opening p ↔
    p ≠ [] ∧ ∃ x, p <+: String.utf8EncodeChar x ∧ p ≠ String.utf8EncodeChar x := by
  constructor
  · intro h
    obtain ⟨q, x, hq, hw⟩ := h.exists_written
    rw [written_iff] at hw
    refine ⟨by cases h <;> exact List.cons_ne_nil _ _, x, ⟨q, hw⟩, fun he => hq ?_⟩
    exact List.self_eq_append_right.mp (he.trans hw.symm)
  · rintro ⟨hp, x, hx, hne⟩
    have hw : Written (String.utf8EncodeChar x) x := written_iff.mpr rfl
    rw [List.prefix_iff_eq_take.mp hx]
    refine hw.opening_take (List.length_pos_iff.mpr hp) (Nat.lt_of_le_of_ne hx.length_le ?_)
    exact fun he => hne (hx.eq_of_length he)

section Scan

variable {p q : Bytes} {b : UInt8} {x : Char}

theorem Written.scan (h : Written p x) : scan p = .char x := by
  cases h with
  | one hlead => simp [Utf8.scan, hlead]
  | two hlead hlow hhigh => simp [Utf8.scan, hlead, not_outside hlow hhigh]
  | three hlead hlow hhigh hc => simp [Utf8.scan, hlead, hc]
  | four hlead hlow hhigh hc hd => simp [Utf8.scan, hd]

theorem Opening.scan (h : Opening p) : scan p = .unfinished := by
  cases h with
  | one hlead => simp [Utf8.scan, hlead]
  | two hlead hlow hhigh h1 =>
    simp [Utf8.scan, hlead, not_outside hlow hhigh, h1]
  | three hlead hlow hhigh h1 hc h2 => simp [Utf8.scan, hlead, hc, h2]

theorem scan_singleton (b : UInt8) :
    (∃ x, Utf8.scan [b] = .char x ∧ Written [b] x) ∨
    (Utf8.scan [b] = .unfinished ∧ Opening [b]) ∨
    (Utf8.scan [b] = .invalid ∧ lead b = .invalid) := by
  cases hlead : lead b with
  | ascii => exact .inl ⟨_, (Written.one hlead).scan, .one hlead⟩
  | multi tails low high => exact .inr (.inl ⟨(Opening.one hlead).scan, .one hlead⟩)
  | invalid => exact .inr (.inr ⟨by simp [Utf8.scan, hlead], rfl⟩)

theorem Opening.scan_append (h : Opening p) (b : UInt8) :
    (∃ x, Utf8.scan (p ++ [b]) = .char x ∧ Written (p ++ [b]) x) ∨
    (Utf8.scan (p ++ [b]) = .unfinished ∧ Opening (p ++ [b])) ∨
    (Utf8.scan (p ++ [b]) = .invalid ∧
      ∀ rest, lossy (p ++ b :: rest) = replacement :: lossy (b :: rest)) := by
  cases h with
  | @one a low high tails hlead =>
    by_cases hb : b < low ∨ high < b
    · refine .inr (.inr ⟨by simp [Utf8.scan, hlead, hb], fun rest => ?_⟩)
      rw [List.singleton_append, lossy, hlead]
      simp only [if_pos hb]
    rw [not_or, UInt8.not_lt, UInt8.not_lt] at hb
    by_cases h1 : tails = 1
    · subst h1
      have hw := Written.two hlead hb.1 hb.2
      exact .inl ⟨_, hw.scan, hw⟩
    · have ho := Opening.two hlead hb.1 hb.2 h1
      exact .inr (.inl ⟨ho.scan, ho⟩)
  | @two a c low high tails hlead hlow hhigh h1 =>
    have hc := not_outside hlow hhigh
    by_cases hb : isTail b = true
    · by_cases h2 : tails = 2
      · subst h2
        have hw := Written.three hlead hlow hhigh hb
        exact .inl ⟨_, hw.scan, hw⟩
      · have ho := Opening.three hlead hlow hhigh h1 hb h2
        exact .inr (.inl ⟨ho.scan, ho⟩)
    · refine .inr (.inr ⟨by simp [Utf8.scan, hlead, hb], fun rest => ?_⟩)
      change lossy (a :: c :: b :: rest) = _
      rw [lossy, hlead]
      simp only [if_neg hc, if_neg h1, hb, Bool.not_false, if_true]
  | @three a c d low high tails hlead hlow hhigh h1 hd h2 =>
    have hc := not_outside hlow hhigh
    by_cases hb : isTail b = true
    · cases lead_tails hlead h1 h2
      have hw := Written.four hlead hlow hhigh hd hb
      exact .inl ⟨_, hw.scan, hw⟩
    · refine .inr (.inr ⟨by simp [Utf8.scan, hb], fun rest => ?_⟩)
      change lossy (a :: c :: d :: b :: rest) = _
      rw [lossy, hlead]
      simp only [if_neg hc, if_neg h1, if_neg h2, hd, hb, Bool.not_false, if_true, Bool.not_true,
        Bool.false_eq_true, if_false]

end Scan

section Lossy

theorem lossy_written {bs : Bytes} {x : Char} (h : Written bs x) (rest : Bytes) :
    lossy (bs ++ rest) = x :: lossy rest := by
  cases h with
  | one hlead => rw [List.singleton_append, lossy, hlead]
  | @two a b low high hlead hlow hhigh =>
    have hb := not_outside hlow hhigh
    change lossy (a :: b :: rest) = _
    rw [lossy, hlead]
    simp only [if_neg hb, if_true]
  | @three a b c low high hlead hlow hhigh hc =>
    have hb := not_outside hlow hhigh
    change lossy (a :: b :: c :: rest) = _
    rw [lossy, hlead]
    simp [if_neg hb, hc]
  | @four a b c d low high hlead hlow hhigh hc hd =>
    have hb := not_outside hlow hhigh
    change lossy (a :: b :: c :: d :: rest) = _
    rw [lossy, hlead]
    simp [if_neg hb, hc, hd]

theorem lossy_opening {p : Bytes} (h : Opening p) : lossy p = [replacement] := by
  cases h with
  | one hlead => rw [lossy, hlead]
  | @two a b low high tails hlead hlow hhigh h1 =>
    have hb := not_outside hlow hhigh
    rw [lossy, hlead]
    simp only [if_neg hb, if_neg h1]
  | @three a b c low high tails hlead hlow hhigh h1 hc h2 =>
    have hb := not_outside hlow hhigh
    rw [lossy, hlead]
    simp [if_neg hb, if_neg h1, if_neg h2, hc]

theorem lossy_invalid {b : UInt8} (h : lead b = .invalid) (rest : Bytes) :
    lossy (b :: rest) = replacement :: lossy rest := by
  rw [lossy, h]

theorem lossy_encodeChars (cs : List Char) : lossy (encodeChars cs) = cs := by
  induction cs with
  | nil => rw [encodeChars, List.flatMap_nil, lossy_nil]
  | cons x cs ih =>
    rw [encodeChars, List.flatMap_cons, lossy_written (written_iff.mpr rfl)]
    exact congrArg (x :: ·) ih

theorem lossyText_encode (s : String) : lossyText (encode s) = s := by
  rw [lossyText, encode, lossy_encodeChars, String.ofList_toList]

theorem decode?_encode (s : String) : decode? (encode s) = some s := by
  unfold decode?
  dsimp only
  rw [encode, lossy_encodeChars, if_pos rfl, String.ofList_toList]

theorem encode_inj {s t : String} (h : encode s = encode t) : s = t := by
  rw [← lossyText_encode s, h, lossyText_encode]

end Lossy

/-- The bytes `bad` are the longest start of a character in front of `rest`, though no character
starts there, or a single byte that starts none. -/
structure Fault (bad rest : Bytes) : Prop where
  ne_nil : bad ≠ []
  no_char : ∀ x, ¬ String.utf8EncodeChar x <+: bad ++ rest
  start : bad.length = 1 ∨ ∃ x, bad <+: String.utf8EncodeChar x
  longest : ∀ x p, p <+: String.utf8EncodeChar x → p <+: bad ++ rest → p.length ≤ bad.length

/-- Bytes as a text: characters stand for themselves, and each fault for one replacement. -/
inductive Reading : Bytes → List Char → Prop
  | done : Reading [] []
  | char (x : Char) {rest : Bytes} {xs : List Char} (h : Reading rest xs) :
      Reading (String.utf8EncodeChar x ++ rest) (x :: xs)
  | fault {bad rest : Bytes} {xs : List Char} (hbad : Fault bad rest) (h : Reading rest xs) :
      Reading (bad ++ rest) (replacement :: xs)

section Fault

variable {p q bad rest : Bytes} {b : UInt8} {x : Char}

theorem Opening.ne_nil (h : Opening p) : p ≠ [] := (opening_iff.mp h).1

theorem written_or_opening (h : p <+: String.utf8EncodeChar x) (hp : p ≠ []) :
    Written p x ∨ Opening p := by
  by_cases he : p = String.utf8EncodeChar x
  · exact .inl (written_iff.mpr he)
  · exact .inr (opening_iff.mpr ⟨hp, x, h, he⟩)

theorem scan_ne_invalid (h : p <+: String.utf8EncodeChar x) (hp : p ≠ []) :
    scan p ≠ .invalid := by
  rcases written_or_opening h hp with h | h <;> rw [h.scan] <;> exact Scan.noConfusion

theorem Opening.starts_no_char (h : Opening p) (x : Char) :
    ¬ String.utf8EncodeChar x <+: p := by
  intro hx
  obtain ⟨-, y, hy, hne⟩ := opening_iff.mp h
  have hw : Written (String.utf8EncodeChar x) x := written_iff.mpr rfl
  have ho : Opening (String.utf8EncodeChar x) := by
    refine opening_iff.mpr ⟨String.utf8EncodeChar_ne_nil, y, hx.trans hy, fun he => hne ?_⟩
    exact hy.eq_of_length_le (he ▸ hx.length_le)
  have hs := hw.scan
  rw [ho.scan] at hs
  cases hs

theorem exists_head_of_longer (h : q <+: p ++ rest) (hlen : p.length < q.length) :
    ∃ b, rest.head? = some b ∧ p ++ [b] <+: q := by
  cases rest with
  | nil =>
    rw [List.append_nil] at h
    exact absurd h.length_le (Nat.not_le.mpr hlen)
  | cons b r =>
    refine ⟨b, rfl, List.prefix_of_prefix_length_le (⟨r, by simp⟩ : p ++ [b] <+: p ++ b :: r) h ?_⟩
    rwa [List.length_append, List.length_singleton]

theorem fault_of_stuck (hne : p ≠ []) (hstart : p.length = 1 ∨ Opening p)
    (hchar : ∀ x, ¬ String.utf8EncodeChar x <+: p)
    (hstuck : ∀ x b, rest.head? = some b → ¬ p ++ [b] <+: String.utf8EncodeChar x) :
    Fault p rest where
  ne_nil := hne
  -- A character that went on behind `p` would begin with `p` and the byte that is stuck.
  no_char x hx := by
    rcases Nat.lt_or_ge p.length (String.utf8EncodeChar x).length with hlen | hlen
    · obtain ⟨b, hb, hpre⟩ := exists_head_of_longer hx hlen
      exact hstuck x b hb hpre
    · exact hchar x (List.prefix_of_prefix_length_le hx (List.prefix_append _ _) hlen)
  start := hstart.imp_right fun h => (opening_iff.mp h).2.imp fun _ hx => hx.1
  longest x q hx hq := by
    refine Nat.le_of_not_lt fun hlen => ?_
    obtain ⟨b, hb, hpre⟩ := exists_head_of_longer hq hlen
    exact hstuck x b hb (hpre.trans hx)

theorem fault_of_invalid_lead (h : lead b = .invalid) (rest : Bytes) : Fault [b] rest := by
  have hb (x : Char) : ¬ [b] <+: String.utf8EncodeChar x := fun hx =>
    scan_ne_invalid hx (List.cons_ne_nil _ _) (by simp [scan, h])
  refine fault_of_stuck (List.cons_ne_nil _ _) (.inl rfl) (fun x hx => ?_) fun x c _ hx => ?_
  · rcases List.prefix_cons_iff.mp hx with he | ⟨t, he, ht⟩
    · exact String.utf8EncodeChar_ne_nil he
    · exact hb x (he ▸ by simp_all)
  · exact hb x ((List.prefix_append [b] [c]).trans hx)

theorem Opening.fault (h : Opening p)
    (hstuck : ∀ b, rest.head? = some b → Utf8.scan (p ++ [b]) = .invalid) : Fault p rest :=
  fault_of_stuck h.ne_nil (.inr h) h.starts_no_char fun _ b hb hx =>
    scan_ne_invalid hx (by simp) (hstuck b hb)

theorem Fault.scan (h : Fault bad (b :: rest)) (ho : Opening bad) :
    Utf8.scan (bad ++ [b]) = .invalid := by
  rcases ho.scan_append b with ⟨x, -, hw⟩ | ⟨-, hopen⟩ | ⟨hs, -⟩
  · refine absurd ?_ (h.no_char x)
    rw [← written_iff.mp hw]
    exact ⟨rest, by simp⟩
  -- Had the byte kept the character open, the fault would not be the longest one.
  · obtain ⟨-, x, hx, -⟩ := opening_iff.mp hopen
    have hlen := h.longest x _ hx ⟨rest, by simp⟩
    rw [List.length_append, List.length_singleton] at hlen
    exact absurd hlen (Nat.not_succ_le_self _)
  · exact hs

end Fault

theorem Reading.eq_lossy {bs : Bytes} {xs : List Char} (h : Reading bs xs) : xs = lossy bs := by
  induction h with
  | done => rfl
  | char x _ ih => rw [lossy_written (written_iff.mpr rfl), ih]
  | @fault bad rest xs hbad _ ih =>
    rw [ih]
    by_cases ho : Opening bad
    · cases rest with
      | nil => rw [List.append_nil, lossy_opening ho, lossy_nil]
      | cons b rest =>
        rcases ho.scan_append b with ⟨x, hs, -⟩ | ⟨hs, -⟩ | ⟨-, hl⟩
        · rw [hbad.scan ho] at hs
          cases hs
        · rw [hbad.scan ho] at hs
          cases hs
        · exact (hl rest).symm
    -- Bytes that no character starts with are a single byte, and `lossy` looks no further.
    · have hlen : bad.length = 1 := hbad.start.resolve_right fun ⟨x, hx⟩ => by
        rcases written_or_opening hx hbad.ne_nil with hw | ho'
        · exact hbad.no_char x (written_iff.mp hw ▸ List.prefix_append _ _)
        · exact ho ho'
      obtain ⟨b, rfl⟩ := List.length_eq_one_iff.mp hlen
      rcases scan_singleton b with ⟨x, -, hw⟩ | ⟨-, ho'⟩ | ⟨-, hlead⟩
      · exact absurd (written_iff.mp hw ▸ List.prefix_append _ _) (hbad.no_char x)
      · exact absurd ho' ho
      · exact (lossy_invalid hlead rest).symm

theorem reading_lossy_append (bs : Bytes) :
    Reading bs (lossy bs) ∧ ∀ p, Opening p → Reading (p ++ bs) (lossy (p ++ bs)) := by
  induction bs with
  | nil =>
    refine ⟨.done, fun p hp => ?_⟩
    rw [List.append_nil, lossy_opening hp]
    simpa using Reading.fault (hp.fault (by simp)) .done
  | cons b bs ih =>
    have hfirst : Reading (b :: bs) (lossy (b :: bs)) := by
      rcases scan_singleton b with ⟨x, -, hw⟩ | ⟨-, ho⟩ | ⟨-, hlead⟩
      · have h := Reading.char x ih.1
        rwa [← lossy_written (written_iff.mpr rfl), ← written_iff.mp hw] at h
      · exact ih.2 [b] ho
      · rw [lossy_invalid hlead]
        exact .fault (fault_of_invalid_lead hlead bs) ih.1
    refine ⟨hfirst, fun p hp => ?_⟩
    rcases hp.scan_append b with ⟨x, -, hw⟩ | ⟨-, ho⟩ | ⟨hs, hl⟩
    · have h := Reading.char x ih.1
      rw [← lossy_written (written_iff.mpr rfl), ← written_iff.mp hw] at h
      simpa using h
    · simpa using ih.2 _ ho
    · rw [hl]
      exact .fault (hp.fault fun c hc => by simp_all) hfirst

theorem reading_iff {bs : Bytes} {xs : List Char} : Reading bs xs ↔ xs = lossy bs := by
  constructor
  · exact Reading.eq_lossy
  · rintro rfl
    exact (reading_lossy_append bs).1

end Buildbox.Utf8
