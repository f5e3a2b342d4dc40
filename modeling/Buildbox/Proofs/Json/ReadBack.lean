import Buildbox.Json.Reader

/-! JSON text is read back as it was written: strings and integers of 64 bits whatever follows them,
and with them any document that is no deeper than the reader goes. -/

namespace Buildbox.Json

section Strings

def escapes : List (Char × Char) :=
  [('"', '"'), ('\\', '\\'), ('\n', 'n'), ('\r', 'r'), ('\t', 't'), ('\x08', 'b'), ('\x0c', 'f')]

def pieceOf (c : Char) : Piece :=
  if c.toNat < 0x20 ∧ c ∉ escapes.map (·.1) then .unit c.toNat else .char c

theorem writeChar_of_mem {c e : Char} (h : (c, e) ∈ escapes) :
    writeChar c = ['\\', e] ∧ pieceOf c = .char c ∧
      ∀ rest, readPieces ('\\' :: e :: rest) =
        (readPieces rest).bind fun (pieces, rest) => some (.char c :: pieces, rest) := by
  simp only [escapes, List.mem_cons, Prod.mk.injEq, List.not_mem_nil, or_false] at h
  rcases h with ⟨rfl, rfl⟩ | ⟨rfl, rfl⟩ | ⟨rfl, rfl⟩ | ⟨rfl, rfl⟩ | ⟨rfl, rfl⟩ | ⟨rfl, rfl⟩ |
    ⟨rfl, rfl⟩ <;> exact ⟨rfl, rfl, fun _ => rfl⟩

theorem writeChar_of_not_mem {c : Char} (h : c ∉ escapes.map (·.1)) :
    writeChar c =
      if c.toNat < 0x20 then
        ['\\', 'u', '0', '0', Bytes.hexDigit (c.toNat / 16), Bytes.hexDigit (c.toNat % 16)]
      else [c] := by
  simp only [escapes, List.map_cons, List.map_nil, List.mem_cons, List.not_mem_nil, or_false,
    not_or] at h
  simp only [writeChar, h, if_false]

theorem digitValue?_hexDigit : ∀ n < 16, digitValue? (Bytes.hexDigit n) = some n := by
  decide

theorem readPieces_plain {c : Char} (hquote : c ≠ '"') (hslash : c ≠ '\\') (hlow : ¬ c.toNat < 0x20)
    (rest : List Char) :
    readPieces (c :: rest) =
      (readPieces rest).bind fun (pieces, rest) => some (.char c :: pieces, rest) := by
  rw [readPieces, if_neg hlow]
  · rfl
  · exact hquote
  · rintro _ _ _ _ _ rfl
    exact absurd rfl hslash
  · rintro _ _ rfl
    exact absurd rfl hslash

theorem readPieces_writeChar (c : Char) (rest : List Char) :
    readPieces (writeChar c ++ rest) =
      (readPieces rest).bind fun (pieces, rest) => some (pieceOf c :: pieces, rest) := by
  by_cases hescape : c ∈ escapes.map (·.1)
  · obtain ⟨⟨d, e⟩, hmem, hd⟩ := List.mem_map.mp hescape
    obtain rfl : d = c := hd
    obtain ⟨hwrite, hpiece, hread⟩ := writeChar_of_mem hmem
    rw [hwrite, hpiece]
    exact hread rest
  rw [writeChar_of_not_mem hescape]
  by_cases hlow : c.toNat < 0x20
  · have hhigh := digitValue?_hexDigit (c.toNat / 16) (by omega)
    have hdigit := digitValue?_hexDigit (c.toNat % 16) (by omega)
    have hzero : digitValue? '0' = some 0 := rfl
    have hvalue : ((0 * 16 + 0) * 16 + c.toNat / 16) * 16 + c.toNat % 16 = c.toNat := by omega
    rw [if_pos hlow, pieceOf, if_pos ⟨hlow, hescape⟩]
    simp only [List.cons_append, List.nil_append]
    rw [readPieces, hhigh, hdigit, hzero]
    simp only [Option.bind_eq_bind, Option.bind_some, hvalue]
  · have hplain : ¬ (c.toNat < 0x20 ∧ c ∉ escapes.map (·.1)) := fun h => hlow h.1
    have hquote : c ≠ '"' := by
      rintro rfl
      exact hescape (by decide)
    have hslash : c ≠ '\\' := by
      rintro rfl
      exact hescape (by decide)
    rw [if_neg hlow, pieceOf, if_neg hplain]
    exact readPieces_plain hquote hslash hlow rest

theorem assemble_pieceOf_cons (c : Char) (pieces : List Piece) :
    assemble (pieceOf c :: pieces) = (assemble pieces).map (c :: ·) := by
  unfold pieceOf
  split
  · next hunit =>
    have hlow := hunit.1
    have hchar : Char.ofNat c.toNat = c := Char.ofNat_toNat c
    have hhigh : ¬ (0xD800 ≤ c.toNat ∧ c.toNat < 0xDC00) := by omega
    have hlater : ¬ (0xDC00 ≤ c.toNat ∧ c.toNat < 0xE000) := by omega
    have hneither : ¬ (0xD800 ≤ c.toNat ∧ c.toNat < 0xE000) := by omega
    rcases pieces with _ | ⟨_ | _, rest⟩
    · simp only [assemble, if_neg hneither, hchar]
    · simp only [assemble, if_neg hneither, hchar]
    · rw [assemble, if_neg hhigh, if_neg hlater, hchar]
  · rfl

theorem assemble_map_pieceOf (cs : List Char) : assemble (cs.map pieceOf) = some cs := by
  induction cs with
  | nil => rfl
  | cons c cs ih =>
    rw [List.map_cons, assemble_pieceOf_cons, ih]
    rfl

theorem readPieces_writeChars (cs rest : List Char) :
    readPieces (cs.flatMap writeChar ++ '"' :: rest) = some (cs.map pieceOf, rest) := by
  induction cs with
  | nil => rfl
  | cons c cs ih =>
    rw [List.flatMap_cons, List.append_assoc, readPieces_writeChar, ih]
    rfl

theorem readString_write (cs rest : List Char) :
    readString (cs.flatMap writeChar ++ '"' :: rest) = some (some cs, rest) := by
  rw [readString, readPieces_writeChars, ← assemble_map_pieceOf cs]
  rfl

end Strings

section Numbers

def EndsNumber (rest : List Char) : Prop :=
  ∀ c ∈ rest.head?, isDigit c = false ∧ c ≠ '.' ∧ c ≠ 'e' ∧ c ≠ 'E'

theorem isDigit_of_mem_toDigits {n : Nat} {c : Char} (h : c ∈ Nat.toDigits 10 n) :
    isDigit c = true := by
  have hdigit := Nat.isDigit_of_mem_toDigits (by decide) (by decide) h
  simp only [Char.isDigit, Bool.and_eq_true, decide_eq_true_eq] at hdigit
  simp only [isDigit, Bool.and_eq_true, decide_eq_true_eq]
  exact hdigit

theorem digitsValue_toDigits (n : Nat) : digitsValue (Nat.toDigits 10 n) = n := by
  have h := Nat.ofDigitChars_ten_toDigits (n := n)
  rwa [Nat.ofDigitChars_eq_foldl] at h

theorem head?_toDigits {n : Nat} (hn : 0 < n) : (Nat.toDigits 10 n).head? ≠ some '0' := by
  induction n using Nat.strongRecOn with
  | ind n ih =>
    by_cases hlow : n < 10
    · rw [Nat.toDigits_of_lt_base hlow]
      simp [Nat.digitChar_eq_zero]
      omega
    · have hhead := ih (n / 10) (by omega) (by omega)
      have hne : Nat.toDigits 10 (n / 10) ≠ [] := Nat.toDigits_ne_nil
      rw [Nat.toDigits_of_base_le (by decide) (by omega), List.head?_append,
        List.head?_eq_some_head hne]
      rwa [List.head?_eq_some_head hne] at hhead

theorem takeWhile_toDigits (n : Nat) {rest : List Char} (hrest : EndsNumber rest) :
    (Nat.toDigits 10 n ++ rest).takeWhile isDigit = Nat.toDigits 10 n ∧
      (Nat.toDigits 10 n ++ rest).dropWhile isDigit = rest := by
  have hall : ∀ c ∈ Nat.toDigits 10 n, isDigit c = true := fun _ h => isDigit_of_mem_toDigits h
  rw [List.takeWhile_append_of_pos hall, List.dropWhile_append_of_pos hall]
  rcases rest with _ | ⟨c, rest⟩
  · exact ⟨List.append_nil _, rfl⟩
  · have hc : ¬ isDigit c = true := by
      rw [(hrest c rfl).1]
      exact Bool.false_ne_true
    rw [List.takeWhile_cons_of_neg hc, List.dropWhile_cons_of_neg hc]
    exact ⟨List.append_nil _, rfl⟩

theorem readFraction_of_endsNumber {rest : List Char} (hrest : EndsNumber rest) :
    readFraction rest = some ([], rest) := by
  rcases rest with _ | ⟨c, rest⟩
  · rfl
  · have hpoint : c ≠ '.' := (hrest c rfl).2.1
    rw [readFraction]
    rintro _ h
    exact hpoint (List.cons.inj h).1

theorem readExponent_of_endsNumber {rest : List Char} (hrest : EndsNumber rest) :
    readExponent rest = some ([], none, rest) := by
  rcases rest with _ | ⟨c, rest⟩
  · rfl
  · obtain ⟨-, -, hlower, hupper⟩ := hrest c rfl
    have hno : ¬ (c = 'e' ∨ c = 'E') := not_or.mpr ⟨hlower, hupper⟩
    simp only [readExponent, if_neg hno]

theorem toDigits_wellFormed (n : Nat) :
    ((Nat.toDigits 10 n).isEmpty ||
      ((Nat.toDigits 10 n).head? == some '0' && (Nat.toDigits 10 n).length > 1)) = false := by
  have hne : (Nat.toDigits 10 n).isEmpty = false := by
    rw [List.isEmpty_eq_false_iff]
    exact Nat.toDigits_ne_nil
  rw [hne, Bool.false_or]
  rcases Nat.eq_zero_or_pos n with rfl | hn
  · rfl
  · rw [beq_eq_false_iff_ne.mpr (head?_toDigits hn), Bool.false_and]

theorem readNumber_nat {n : Nat} {rest : List Char} (hhigh : n < UInt64.size)
    (hrest : EndsNumber rest) :
    readNumber (Nat.toDigits 10 n ++ rest) = some (.int n, rest) := by
  obtain ⟨htake, hdrop⟩ := takeWhile_toDigits n hrest
  have hsign : ∀ body, Nat.toDigits 10 n ++ rest ≠ '-' :: body := by
    intro body h
    have hne : Nat.toDigits 10 n ≠ [] := Nat.toDigits_ne_nil
    obtain ⟨c, digits, hdigits⟩ := List.exists_cons_of_ne_nil hne
    have hc : isDigit c = true := isDigit_of_mem_toDigits (hdigits ▸ List.mem_cons_self)
    rw [hdigits, List.cons_append] at h
    rw [(List.cons.inj h).1] at hc
    exact absurd hc (by decide)
  rw [readNumber]
  simp only [htake, hdrop, toDigits_wellFormed, readFraction_of_endsNumber hrest,
    readExponent_of_endsNumber hrest, digitsValue_toDigits, Option.bind_eq_bind, Option.bind_some,
    Bool.false_eq_true, if_false, List.isEmpty_nil, Option.isNone_none, Bool.and_self, if_true,
    if_pos hhigh]
  · rfl
  · exact hsign

theorem readNumber_negative {n : Nat} {rest : List Char} (hlow : 0 < n) (hhigh : n ≤ 1 <<< 63)
    (hrest : EndsNumber rest) :
    readNumber ('-' :: Nat.toDigits 10 n ++ rest) = some (.int (-n), rest) := by
  obtain ⟨htake, hdrop⟩ := takeWhile_toDigits n hrest
  rw [List.cons_append, readNumber]
  simp only [htake, hdrop, toDigits_wellFormed, readFraction_of_endsNumber hrest,
    readExponent_of_endsNumber hrest, digitsValue_toDigits, Option.bind_eq_bind, Option.bind_some,
    Bool.false_eq_true, if_false, List.isEmpty_nil, Option.isNone_none, Bool.and_self, if_true,
    hlow, hhigh, and_self]
  rfl

theorem readNumber_writeInt {n : Int} {rest : List Char} (hlow : -(1 <<< 63) ≤ n)
    (hhigh : n < UInt64.size) (hrest : EndsNumber rest) :
    readNumber (writeInt n ++ rest) = some (.int n, rest) := by
  rcases n with n | n
  · exact readNumber_nat (Int.ofNat_lt.mp hhigh) hrest
  · have hpower : ((1 <<< 63 : Nat) : Int) = 1 <<< 63 := rfl
    exact readNumber_negative (Nat.succ_pos n) (by omega) hrest

end Numbers

/-- Values that text carries exactly, with no more than `depth` arrays and objects inside each
other. -/
inductive Plain : (depth : Nat) → Json → Prop where
  | null (depth : Nat) : Plain depth .null
  | bool (depth : Nat) (b : Bool) : Plain depth (.bool b)
  | int (depth : Nat) (n : Int) (low : -(1 <<< 63) ≤ n) (high : n < UInt64.size) :
      Plain depth (.int n)
  | str (depth : Nat) (s : String) : Plain depth (.str s)
  | arr (depth : Nat) (items : List Json) (each : ∀ v ∈ items, Plain depth v) :
      Plain (depth + 1) (.arr items)
  | obj (depth : Nat) (members : List (String × Json)) (each : ∀ m ∈ members, Plain depth m.2) :
      Plain (depth + 1) (.obj members)

def ReadBack (depth : Nat) (v : Json) : Prop :=
  ∀ fuel rest, (write v).length < fuel → EndsNumber rest →
    readValue fuel depth (write v ++ rest) = some (v, rest)

def Opens (cs : List Char) : Prop :=
  ∃ c ∈ cs.head?, isSpace c = false ∧ c ≠ ']'

section Text

theorem skipSpace_cons {c : Char} (h : isSpace c = false) (rest : List Char) :
    skipSpace (c :: rest) = c :: rest := by
  rw [skipSpace, List.dropWhile_cons_of_neg]
  rw [h]
  exact Bool.false_ne_true

theorem skipSpace_of_opens {cs : List Char} (h : Opens cs) (rest : List Char) :
    skipSpace (cs ++ rest) = cs ++ rest ∧ ∀ body, cs ++ rest ≠ ']' :: body := by
  obtain ⟨c, hc, hspace, hclose⟩ := h
  obtain ⟨cs, rfl⟩ := List.head?_eq_some_iff.mp hc
  refine ⟨skipSpace_cons hspace _, ?_⟩
  intro body heq
  exact hclose (List.cons.inj heq).1

def startsNumber (c : Char) : Bool :=
  isDigit c || c == '-'

theorem ne_of_startsNumber {c d : Char} (hc : startsNumber c = true)
    (hd : startsNumber d = false) : c ≠ d := by
  rintro rfl
  exact absurd (hc.symm.trans hd) (by decide)

theorem startsNumber_writeInt (n : Int) : ∃ c cs, writeInt n = c :: cs ∧ startsNumber c = true := by
  rcases n with n | n
  · have hne : Nat.toDigits 10 n ≠ [] := Nat.toDigits_ne_nil
    obtain ⟨c, cs, hcs⟩ := List.exists_cons_of_ne_nil hne
    have hdigit : isDigit c = true := isDigit_of_mem_toDigits (hcs ▸ List.mem_cons_self)
    refine ⟨c, cs, hcs, ?_⟩
    rw [startsNumber, hdigit, Bool.true_or]
  · exact ⟨'-', _, rfl, rfl⟩

theorem isSpace_of_startsNumber {c : Char} (h : startsNumber c = true) : isSpace c = false := by
  have hother : ∀ d, startsNumber d = false → (c == d) = false := fun d hd =>
    beq_eq_false_iff_ne.mpr (ne_of_startsNumber h hd)
  rw [isSpace, hother ' ' rfl, hother '\n' rfl, hother '\t' rfl, hother '\r' rfl]
  rfl

theorem opens_write {depth : Nat} {v : Json} (h : Plain depth v) : Opens (write v) := by
  rcases h with _ | ⟨_, _ | _⟩ | ⟨_, n, _, _⟩ | _ | _ | _
  · exact ⟨'n', rfl, by decide⟩
  · exact ⟨'f', rfl, by decide⟩
  · exact ⟨'t', rfl, by decide⟩
  · obtain ⟨c, cs, hcs, hstart⟩ := startsNumber_writeInt n
    refine ⟨c, ?_, isSpace_of_startsNumber hstart, ne_of_startsNumber hstart rfl⟩
    rw [write, hcs]
    rfl
  · exact ⟨'"', rfl, by decide⟩
  · exact ⟨'[', rfl, by decide⟩
  · exact ⟨'\x7b', rfl, by decide⟩

theorem opens_writeItems {depth : Nat} {v : Json} {items : List Json} (h : Plain depth v) :
    Opens (writeItems (v :: items)) := by
  obtain ⟨c, hc, hopens⟩ := opens_write h
  obtain ⟨cs, hcs⟩ := List.head?_eq_some_iff.mp hc
  rcases items with _ | ⟨w, items⟩ <;>
  · rw [writeItems, hcs]
    exact ⟨c, rfl, hopens⟩

theorem writeMembers_cons (m : String × Json) (members : List (String × Json)) :
    ∃ cs, writeMembers (m :: members) = '"' :: cs := by
  rcases members with _ | ⟨n, members⟩ <;> exact ⟨_, rfl⟩

theorem endsNumber_cons {c : Char} (h : c = ',' ∨ c = ']' ∨ c = '\x7d') (rest : List Char) :
    EndsNumber (c :: rest) := by
  rintro _ ⟨⟩
  rcases h with rfl | rfl | rfl <;> decide

end Text

section Steps

variable {depth fuel : Nat}

theorem readValue_number {c : Char} (hstart : startsNumber c = true) (cs : List Char) :
    readValue (fuel + 1) depth (c :: cs) = readNumber (c :: cs) := by
  rw [readValue, skipSpace_cons (isSpace_of_startsNumber hstart)]
  split
  · next h => exact absurd (List.cons.inj h).1 (ne_of_startsNumber hstart rfl)
  · next h => exact absurd (List.cons.inj h).1 (ne_of_startsNumber hstart rfl)
  · next h => exact absurd (List.cons.inj h).1 (ne_of_startsNumber hstart rfl)
  · next h => exact absurd (List.cons.inj h).1 (ne_of_startsNumber hstart rfl)
  · next h => exact absurd (List.cons.inj h).1 (ne_of_startsNumber hstart rfl)
  · next h => exact absurd (List.cons.inj h).1 (ne_of_startsNumber hstart rfl)
  · rfl

theorem writeString_append (cs rest : List Char) :
    writeString cs ++ rest = '"' :: (cs.flatMap writeChar ++ '"' :: rest) := by
  rw [writeString, List.cons_append, List.cons_append, List.append_assoc]
  rfl

theorem readValue_string (s : String) (rest : List Char) :
    readValue (fuel + 1) depth (writeString s.toList ++ rest) = some (.str s, rest) := by
  rw [writeString_append, readValue, skipSpace_cons (by decide)]
  simp only [readString_write, Option.bind_eq_bind, Option.bind_some, String.ofList_toList]

theorem readItems_last {cs rest : List Char} {v : Json}
    (hv : readValue fuel depth cs = some (v, ']' :: rest)) :
    readItems (fuel + 1) depth cs = some ([v], rest) := by
  rw [readItems, hv]
  rfl

theorem readItems_more {cs more rest : List Char} {v : Json} {vs : List Json}
    (hv : readValue fuel depth cs = some (v, ',' :: more))
    (hvs : readItems fuel depth more = some (vs, rest)) :
    readItems (fuel + 1) depth cs = some (v :: vs, rest) := by
  rw [readItems, hv]
  simp only [Option.bind_eq_bind, Option.bind_some, skipSpace_cons (c := ',') rfl, hvs]

theorem readMembers_last {cs rest : List Char} {key : String} {v : Json}
    (hv : readValue fuel depth cs = some (v, '\x7d' :: rest)) :
    readMembers (fuel + 1) depth (writeString key.toList ++ ':' :: cs) =
      some (some [(key, v)], rest) := by
  rw [writeString_append, readMembers, skipSpace_cons (by decide)]
  simp only [readString_write, Option.bind_eq_bind, Option.bind_some, hv,
    skipSpace_cons (c := ':') rfl, skipSpace_cons (c := '\x7d') rfl, Option.map_some,
    String.ofList_toList]

theorem readMembers_more {cs more rest : List Char} {key : String} {v : Json}
    {ms : List (String × Json)} (hv : readValue fuel depth cs = some (v, ',' :: more))
    (hms : readMembers fuel depth more = some (some ms, rest)) :
    readMembers (fuel + 1) depth (writeString key.toList ++ ':' :: cs) =
      some (some ((key, v) :: ms), rest) := by
  rw [writeString_append, readMembers, skipSpace_cons (by decide)]
  simp only [readString_write, Option.bind_eq_bind, Option.bind_some, hv, hms,
    skipSpace_cons (c := ':') rfl, skipSpace_cons (c := ',') rfl, Option.map_some,
    String.ofList_toList]

theorem readValue_items {cs rest : List Char} {items : List Json} (hopens : Opens cs)
    (hitems : readItems fuel depth (cs ++ rest) = some (items, rest)) :
    readValue (fuel + 1) (depth + 1) ('[' :: cs ++ rest) = some (.arr items, rest) := by
  obtain ⟨hskip, hclose⟩ := skipSpace_of_opens hopens rest
  rw [List.cons_append, readValue, skipSpace_cons (by decide)]
  simp only [hskip, Nat.add_sub_cancel, hitems, Option.bind_eq_bind, Option.bind_some]
  rfl

theorem readValue_members {cs rest : List Char} {members : List (String × Json)}
    (hmembers : readMembers fuel depth ('"' :: cs) = some (some members, rest)) :
    readValue (fuel + 1) (depth + 1) ('\x7b' :: '"' :: cs) = some (.obj members, rest) := by
  rw [readValue, skipSpace_cons (by decide)]
  simp only [skipSpace_cons (c := '"') rfl, Nat.add_sub_cancel]
  split
  · next h => exact absurd (List.cons.inj h).1 (by decide)
  · rw [hmembers]
    rfl

end Steps

section Values

variable {depth : Nat}

theorem readBack_items {items : List Json} (hne : items ≠ [])
    (heach : ∀ v ∈ items, ReadBack depth v) (rest : List Char) (fuel : Nat)
    (hfuel : (writeItems items).length < fuel) :
    readItems fuel depth (writeItems items ++ rest) = some (items, rest) := by
  induction items generalizing fuel with
  | nil => exact absurd rfl hne
  | cons v items ih =>
    rcases fuel with _ | fuel
    · exact absurd hfuel (Nat.not_lt_zero _)
    have hv := heach v List.mem_cons_self
    rcases items with _ | ⟨w, items⟩
    · rw [writeItems, List.length_append, List.length_singleton] at hfuel
      have hends := endsNumber_cons (.inr (.inl rfl)) rest
      rw [writeItems, List.append_assoc]
      exact readItems_last (hv fuel _ (by omega) hends)
    · rw [writeItems, List.length_append, List.length_cons] at hfuel
      have hends := endsNumber_cons (.inl rfl) (writeItems (w :: items) ++ rest)
      have hlater := ih (List.cons_ne_nil _ _) (fun u hu => heach u (List.mem_cons_of_mem _ hu))
        fuel (by omega)
      rw [writeItems, List.append_assoc]
      exact readItems_more (hv fuel _ (by omega) hends) hlater

theorem readBack_members {members : List (String × Json)} (hne : members ≠ [])
    (heach : ∀ m ∈ members, ReadBack depth m.2) (rest : List Char) (fuel : Nat)
    (hfuel : (writeMembers members).length < fuel) :
    readMembers fuel depth (writeMembers members ++ rest) = some (some members, rest) := by
  induction members generalizing fuel with
  | nil => exact absurd rfl hne
  | cons m members ih =>
    rcases fuel with _ | fuel
    · exact absurd hfuel (Nat.not_lt_zero _)
    obtain ⟨key, v⟩ := m
    have hv : ReadBack depth v := heach (key, v) List.mem_cons_self
    rcases members with _ | ⟨m, members⟩
    · simp only [writeMembers, List.length_append, List.length_cons, List.length_nil] at hfuel
      have hends := endsNumber_cons (.inr (.inr rfl)) rest
      have htext : writeMembers [(key, v)] ++ rest =
          writeString key.toList ++ ':' :: (write v ++ '\x7d' :: rest) := by
        simp only [writeMembers, List.append_assoc, List.cons_append, List.nil_append]
      rw [htext]
      exact readMembers_last (hv fuel _ (by omega) hends)
    · simp only [writeMembers, List.length_append, List.length_cons] at hfuel
      have hends := endsNumber_cons (.inl rfl) (writeMembers (m :: members) ++ rest)
      have hlater := ih (List.cons_ne_nil _ _) (fun u hu => heach u (List.mem_cons_of_mem _ hu))
        fuel (by omega)
      have htext : writeMembers ((key, v) :: m :: members) ++ rest =
          writeString key.toList ++ ':' ::
            (write v ++ ',' :: (writeMembers (m :: members) ++ rest)) := by
        simp only [writeMembers, List.append_assoc, List.cons_append]
      rw [htext]
      exact readMembers_more (hv fuel _ (by omega) hends) hlater

theorem readBack_of_plain {v : Json} (h : Plain depth v) : ReadBack depth v := by
  induction h with
  | null depth =>
    intro fuel rest hfuel _
    rcases fuel with _ | fuel
    · exact absurd hfuel (Nat.not_lt_zero _)
    · rfl
  | bool depth b =>
    intro fuel rest hfuel _
    rcases fuel with _ | fuel
    · exact absurd hfuel (Nat.not_lt_zero _)
    · cases b <;> rfl
  | int depth n low high =>
    intro fuel rest hfuel hrest
    rcases fuel with _ | fuel
    · exact absurd hfuel (Nat.not_lt_zero _)
    · obtain ⟨c, cs, hcs, hstart⟩ := startsNumber_writeInt n
      have hnumber := readNumber_writeInt low high hrest
      rw [hcs] at hnumber
      rw [write, hcs]
      exact (readValue_number hstart _).trans hnumber
  | str depth s =>
    intro fuel rest hfuel _
    rcases fuel with _ | fuel
    · exact absurd hfuel (Nat.not_lt_zero _)
    · exact readValue_string s rest
  | arr depth items each ih =>
    intro fuel rest hfuel _
    rcases fuel with _ | fuel
    · exact absurd hfuel (Nat.not_lt_zero _)
    rcases items with _ | ⟨v, items⟩
    · rfl
    · rw [write, List.length_cons] at hfuel
      have hitems := readBack_items (List.cons_ne_nil _ _) ih rest fuel (by omega)
      exact readValue_items (opens_writeItems (each v List.mem_cons_self)) hitems
  | obj depth members each ih =>
    intro fuel rest hfuel _
    rcases fuel with _ | fuel
    · exact absurd hfuel (Nat.not_lt_zero _)
    rcases members with _ | ⟨m, members⟩
    · rfl
    · rw [write, List.length_cons] at hfuel
      have hmembers := readBack_members (List.cons_ne_nil _ _) ih rest fuel (by omega)
      obtain ⟨cs, hcs⟩ := writeMembers_cons m members
      rw [hcs] at hmembers
      rw [write, hcs]
      exact readValue_members hmembers

/-- A document is read back from its text. -/
theorem parse?_render {v : Json} (h : Plain depthLimit v) : parse? (render v) = some v := by
  have hread := readBack_of_plain h (2 * (write v).length + 2) [] (by omega) nofun
  rw [List.append_nil] at hread
  rw [parse?, render, String.toList_ofList, parseChars?, hread]
  rfl

end Values

end Buildbox.Json
