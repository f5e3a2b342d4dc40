import Buildbox.Proofs.Archive.Entries
import Buildbox.Proofs.Archive.Members

/-! Containers that end too early. What can be read of one without a fault stands at the front of
any container that it starts. Of an archive of several members no more than that is decoded. -/

namespace Buildbox.Tar

def Cursor.extend (c : Cursor) (more : Bytes) : Cursor :=
  { c with ahead := c.ahead ++ more }

def Cursor.Reaches (c : Cursor) : Prop :=
  c.skip ≤ c.ahead.length

def sizeWith (records : List (Option Attribute)) (header : Header) (declared : Nat) : Nat :=
  let kind := Header.kind header
  if kind = .longName ∨ kind = .longLink ∨ kind = .attributes ∨ kind = .globalAttributes then
    declared
  else (attributeSize? records).getD declared

def rounded (size : Nat) : Nat :=
  (size + (blockSize - 1)) / blockSize * blockSize

inductive Role where
  | describes (d : Description)
  | sparse
  | plain
  | refused (detail : String)

def roleOf (d : Description) (raw : Raw) : Role :=
  let kind := Header.kind raw.header
  let describes := Header.format raw.header ≠ .old
  if describes ∧ kind = .longName then
    if d.longName.isSome then .refused "two long name entries describing the same member"
    else .describes { d with longName := some raw.data }
  else if describes ∧ kind = .longLink then
    if d.longLink.isSome then .refused "two long name entries describing the same member"
    else .describes { d with longLink := some raw.data }
  else if describes ∧ kind = .attributes then
    if d.attributes.isSome then .refused "two pax extensions entries describing the same member"
    else .describes { d with attributes := some raw.data }
  else if kind = .sparse then .sparse else .plain

def entryOf (d : Description) (raw : Raw) : Entry :=
  ⟨d.path raw.header, Header.kind raw.header, raw.size, raw.data⟩

def readOn (d : Description) (n : Nat) (raw : Raw) (c : Cursor) : Step Entry :=
  match roleOf d raw with
  | .describes d => readEntry d n c
  | .sparse =>
    match readSparse raw c with
    | .ok c => .entry (entryOf d raw) c
    | .error detail => .malformed detail
  | .plain => .entry (entryOf d raw) c
  | .refused detail => .malformed detail

section Follows

variable {ε α β γ δ : Type} {P : α → β → Prop} {Q : γ → δ → Prop}

def Follows (P : α → β → Prop) (x : Except ε α) (y : Except ε β) : Prop :=
  ∀ a, x = .ok a → ∃ b, y = .ok b ∧ P a b

theorem Follows.pure {a : α} {b : β} (h : P a b) :
    Follows P (Pure.pure a : Except ε α) (Pure.pure b) := by
  rintro _ ⟨⟩
  exact ⟨b, rfl, h⟩

theorem Follows.throw (e : ε) (y : Except ε β) : Follows P (throw e) y := by
  rintro _ ⟨⟩

theorem Follows.refl (x : Except ε α) : Follows Eq x x :=
  fun a h => ⟨a, h, rfl⟩

theorem Follows.mono {P' : α → β → Prop} {x : Except ε α} {y : Except ε β} (h : Follows P x y)
    (hP : ∀ a b, P a b → P' a b) : Follows P' x y := by
  intro a ha
  obtain ⟨b, hb, hab⟩ := h a ha
  exact ⟨b, hb, hP a b hab⟩

theorem Follows.bind {x : Except ε α} {y : Except ε β} {f : α → Except ε γ} {g : β → Except ε δ}
    (h : Follows P x y) (hf : ∀ a b, P a b → Follows Q (f a) (g b)) :
    Follows Q (x >>= f) (y >>= g) := by
  intro c hc
  obtain ⟨a, hx, hc⟩ := ok_of_bind hc
  obtain ⟨b, hy, hab⟩ := h a hx
  rw [hy]
  exact hf a b hab c hc

theorem Follows.ite {p : Prop} [Decidable p] {x x' : Except ε α} {y y' : Except ε β}
    (h : Follows P x y) (h' : Follows P x' y') :
    Follows P (if p then x else x') (if p then y else y') := by
  split
  · exact h
  · exact h'

theorem Follows.guard {p q : Prop} [Decidable p] [Decidable q] {e : ε} {x : Except ε α}
    {y y' : Except ε β} (hq : ¬ p → ¬ q) (h : ¬ p → Follows P x y) :
    Follows P (if p then .error e else x) (if q then y' else y) := by
  by_cases hp : p
  · rw [if_pos hp]
    exact .throw e _
  · rw [if_neg hp, if_neg (hq hp)]
    exact h hp

end Follows

section Readers

variable {c rest : Cursor} {raw : Raw} {records : List (Option Attribute)} {bs : Bytes}

theorem isShort_iff {n : Nat} : isShort bs n = true ↔ bs.length < n := by
  cases n with
  | zero => exact iff_of_false nofun (Nat.not_lt_zero _)
  | succ n => rw [isShort, List.isEmpty_iff, List.drop_eq_nil_iff, Nat.lt_succ_iff]

theorem le_rounded (size : Nat) : size ≤ rounded size := by
  unfold rounded blockSize
  omega

theorem readRaw_eq_entry : readRaw c records = .entry raw rest ↔
    ∃ header body declared, c.Reaches ∧ c.ahead.drop c.skip = header ++ body ∧
      header.length = blockSize ∧ header.all (· = 0) = false ∧
      Header.checkedSize header = .ok declared ∧
      ¬ (UInt64.size ≤ sizeWith records header declared + (blockSize - 1) ∨
        UInt64.size ≤ c.next + blockSize + rounded (sizeWith records header declared)) ∧
      raw = ⟨header, sizeWith records header declared,
        body.take (sizeWith records header declared)⟩ ∧
      rest = ⟨body, rounded (sizeWith records header declared),
        c.next + blockSize + rounded (sizeWith records header declared)⟩ := by
  constructor
  · intro h
    unfold readRaw at h
    split at h
    · cases h
    next hshort =>
    dsimp only at h
    split at h
    · cases h
    split at h
    · cases h
    next hheader =>
    split at h
    · cases h
    next hzero =>
    split at h
    · cases h
    next declared hdeclared =>
    change (if UInt64.size ≤ sizeWith records _ declared + (blockSize - 1) ∨
        UInt64.size ≤ c.next + blockSize + rounded (sizeWith records _ declared) then _
      else _) = _ at h
    split at h
    · cases h
    next hfits =>
    cases h
    refine ⟨_, _, declared, ?_, (List.take_append_drop blockSize _).symm, ?_, ?_, hdeclared, hfits,
      rfl, rfl⟩
    · exact Nat.not_lt.mp fun hlt => hshort (isShort_iff.mpr hlt)
    · have hle : (List.take blockSize (c.ahead.drop c.skip)).length ≤ blockSize :=
        List.length_take_le _ _
      exact Nat.le_antisymm hle (Nat.not_lt.mp hheader)
    · exact Bool.eq_false_iff.mpr hzero
  · rintro ⟨header, body, declared, hreach, hahead, hlength, hzero, hdeclared, hfits, rfl, rfl⟩
    have hshort : ¬ isShort c.ahead c.skip = true := fun h =>
      Nat.not_lt.mpr hreach (isShort_iff.mp h)
    have htake : (header ++ body).take blockSize = header := List.take_left' hlength
    have hdrop : (header ++ body).drop blockSize = body := List.drop_left' hlength
    have hne : (header ++ body).isEmpty = false := by
      rw [List.isEmpty_eq_false_iff, List.ne_nil_iff_length_pos, List.length_append, hlength]
      exact Nat.lt_add_right _ (by decide)
    unfold readRaw
    rw [if_neg hshort]
    simp only [hahead, htake, hdrop, hne, hlength, hzero, Bool.false_eq_true, if_false,
      Nat.lt_irrefl, hdeclared]
    exact if_neg hfits

theorem readRaw_extend (h : readRaw c records = .entry raw rest) (hrest : rest.Reaches)
    (more : Bytes) : readRaw (c.extend more) records = .entry raw (rest.extend more) := by
  obtain ⟨header, body, declared, hreach, hahead, hlength, hzero, hdeclared, hfits, rfl, rfl⟩ :=
    readRaw_eq_entry.mp h
  have hbody : sizeWith records header declared ≤ body.length :=
    Nat.le_trans (le_rounded _) hrest
  have hreach' : (c.extend more).Reaches := by
    rw [Cursor.Reaches, Cursor.extend, List.length_append]
    exact Nat.le_add_right_of_le hreach
  have hahead' : (c.extend more).ahead.drop c.skip = header ++ (body ++ more) := by
    rw [Cursor.extend, List.drop_append_of_le_length hreach, hahead, List.append_assoc]
  refine readRaw_eq_entry.mpr ⟨header, body ++ more, declared, hreach', hahead', hlength, hzero,
    hdeclared, hfits, ?_, rfl⟩
  rw [List.take_append_of_le_length hbody]

def Cursor.Passes (c : Cursor) (more : Bytes) (d d' : Cursor) : Prop :=
  d' = d.extend more ∧ d.skip = c.skip ∧ d.ahead.length ≤ c.ahead.length

theorem readExtensions_extend (size : Nat) (r : Reach) (more : Bytes) {n m : Nat} (hnm : n ≤ m) :
    Follows (fun p q => q.1 = p.1 ∧ c.Passes more p.2 q.2) (readExtensions size r c n)
      (readExtensions size r (c.extend more) m) := by
  induction n generalizing r c m with
  | zero => exact .throw _ _
  | succ n ih =>
    obtain ⟨m, rfl⟩ := Nat.exists_eq_add_of_le' hnm
    have hempty : ¬ c.ahead.isEmpty = true → ¬ (c.ahead ++ more).isEmpty = true := by
      rw [List.isEmpty_iff, List.isEmpty_iff, List.append_eq_nil_iff]
      exact fun h h' => h h'.1
    have hlonger : c.ahead.length ≤ (c.ahead ++ more).length := by
      rw [List.length_append]
      exact Nat.le_add_right _ _
    have hshort : ¬ isShort c.ahead blockSize = true →
        ¬ isShort (c.ahead ++ more) blockSize = true := by
      rw [isShort_iff, isShort_iff]
      omega
    refine .guard hempty fun _ => .guard hshort fun hwhole => ?_
    have hlength : blockSize ≤ c.ahead.length :=
      Nat.not_lt.mp fun hlt => hwhole (isShort_iff.mpr hlt)
    have hblock : (c.extend more).ahead.take blockSize = c.ahead.take blockSize :=
      List.take_append_of_le_length hlength
    have hdrop : (c.extend more).ahead.drop blockSize = c.ahead.drop blockSize ++ more :=
      List.drop_append_of_le_length hlength
    dsimp only
    rw [hblock, hdrop]
    refine (Follows.refl _).bind ?_
    rintro r _ rfl
    have hless : (c.ahead.drop blockSize).length ≤ c.ahead.length := by
      rw [List.length_drop]
      exact Nat.sub_le _ _
    refine .ite ((ih r (Nat.le_add_left n m)).mono ?_) (.pure ⟨rfl, rfl, rfl, hless⟩)
    rintro ⟨r, d⟩ ⟨_, d'⟩ ⟨rfl, hd, hskip, hahead⟩
    exact ⟨rfl, hd, hskip, Nat.le_trans hahead hless⟩

theorem readSparse_extend (more : Bytes) :
    Follows (c.Passes more) (readSparse raw c) (readSparse raw (c.extend more)) := by
  have hfuel : c.ahead.length / blockSize + 1 ≤ (c.extend more).ahead.length / blockSize + 1 := by
    rw [Cursor.extend, List.length_append]
    exact Nat.succ_le_succ (Nat.div_le_div_right (Nat.le_add_right _ _))
  refine .ite (.throw _ _) ((Follows.refl _).bind ?_)
  rintro r _ rfl
  have hstay : Follows (fun p q => q.1 = p.1 ∧ c.Passes more p.2 q.2)
      (pure (r, c) : Except String (Reach × Cursor)) (pure (r, c.extend more)) :=
    .pure ⟨rfl, rfl, rfl, Nat.le_refl _⟩
  refine .ite ((readExtensions_extend raw.size r more hfuel).bind ?_) (hstay.bind ?_)
  all_goals
    rintro ⟨r, d⟩ ⟨_, d'⟩ ⟨rfl, hd⟩
    refine (Follows.refl _).bind ?_
    rintro size _ rfl
    exact .ite (.throw _ _) (.ite (.throw _ _) (.pure hd))

theorem readEntry_succ (d : Description) (n : Nat) (c : Cursor) :
    readEntry d (n + 1) c =
      match readRaw c d.records with
      | .malformed detail => .malformed detail
      | .done =>
        if d.isEmpty then .done
        else .malformed "members found describing a future member but no future member found"
      | .entry raw rest => readOn d n raw rest := by
  rw [readEntry]
  cases readRaw c d.records with
  | malformed detail => rfl
  | done => rfl
  | entry raw rest =>
    dsimp only [readOn, roleOf]
    split_ifs <;> rfl

theorem readEntry_of_not_reaches (hc : ¬ c.Reaches) (d : Description) (n : Nat) :
    ∃ detail, readEntry d n c = .malformed detail := by
  cases n with
  | zero => exact ⟨_, rfl⟩
  | succ n =>
    have hshort : isShort c.ahead c.skip = true := isShort_iff.mpr (Nat.not_le.mp hc)
    have hraw : readRaw c d.records = .malformed "unexpected EOF during skip" := if_pos hshort
    rw [readEntry, hraw]
    exact ⟨_, rfl⟩

theorem reaches_of_readEntry {d : Description} {e : Entry} {n : Nat}
    (h : readEntry d n c = .entry e rest) : c.Reaches := by
  by_contra hc
  obtain ⟨detail, hdetail⟩ := readEntry_of_not_reaches hc d n
  rw [hdetail] at h
  cases h

theorem reaches_of_readEntries {es : List Entry} {n : Nat} (hn : 0 < n)
    (h : readEntries n c = (es, none)) : c.Reaches := by
  obtain ⟨n, rfl⟩ := Nat.exists_eq_add_of_lt hn
  by_contra hc
  obtain ⟨detail, hdetail⟩ := readEntry_of_not_reaches hc {} (0 + n)
  rw [readEntries, hdetail] at h
  cases h

theorem readEntry_eq_entry {d : Description} {e : Entry} {n : Nat} :
    readEntry d (n + 1) c = .entry e rest ↔
      ∃ raw next, readRaw c d.records = .entry raw next ∧ readOn d n raw next = .entry e rest := by
  rw [readEntry_succ]
  cases readRaw c d.records with
  | malformed detail => exact iff_of_false nofun nofun
  | done =>
    refine iff_of_false ?_ nofun
    dsimp only
    split <;> nofun
  | entry raw next =>
    constructor
    · intro h
      exact ⟨raw, next, rfl, h⟩
    · rintro ⟨_, _, ⟨⟩, h⟩
      exact h

theorem readEntry_spec {d : Description} {e : Entry} {n m : Nat} (hnm : n ≤ m) (more : Bytes)
    (h : readEntry d n c = .entry e rest) :
    rest.ahead.length + blockSize ≤ c.ahead.length ∧
      (rest.Reaches → readEntry d m (c.extend more) = .entry e (rest.extend more)) := by
  induction n generalizing d c m with
  | zero => cases h
  | succ n ih =>
    obtain ⟨m, rfl⟩ := Nat.exists_eq_add_of_le' hnm
    obtain ⟨raw, next, hraw, hon⟩ := readEntry_eq_entry.mp h
    have hless : next.ahead.length + blockSize = c.ahead.length - c.skip := by
      obtain ⟨header, body, _, _, hahead, hlength, _, _, _, _, rfl⟩ := readRaw_eq_entry.mp hraw
      have hsplit := congrArg List.length hahead
      rw [List.length_drop, List.length_append, hlength] at hsplit
      rw [hsplit, Nat.add_comm]
    have hmore : next.Reaches →
        readOn d (m + n) raw (next.extend more) = .entry e (rest.extend more) →
        readEntry d (m + n + 1) (c.extend more) = .entry e (rest.extend more) :=
      fun hnext hon => readEntry_eq_entry.mpr ⟨raw, _, readRaw_extend hraw hnext more, hon⟩
    unfold readOn at hon hmore
    cases hrole : roleOf d raw with
    | describes d' =>
      rw [hrole] at hon hmore
      obtain ⟨hlength, hlater⟩ := ih (Nat.le_add_left n m) hon
      have hnext : next.Reaches := reaches_of_readEntry hon
      exact ⟨by omega, fun hrest => hmore hnext (hlater hrest)⟩
    | sparse =>
      rw [hrole] at hon hmore
      cases hsparse : readSparse raw next with
      | error detail =>
        rw [hsparse] at hon
        cases hon
      | ok stop =>
        rw [hsparse] at hon
        cases hon
        obtain ⟨_, hstop, rfl, hskip, hlength⟩ := readSparse_extend more rest hsparse
        refine ⟨by omega, fun hrest => hmore ?_ (by rw [hstop])⟩
        unfold Cursor.Reaches at hrest ⊢
        omega
    | plain =>
      rw [hrole] at hon hmore
      cases hon
      exact ⟨by omega, fun hrest => hmore hrest rfl⟩
    | refused detail =>
      rw [hrole] at hon
      cases hon

theorem readRaw_eq_done : readRaw c records = .done ↔
    c.Reaches ∧ (c.ahead.drop c.skip = [] ∨ blockSize ≤ (c.ahead.drop c.skip).length ∧
      ((c.ahead.drop c.skip).take blockSize).all (· = 0) = true) := by
  unfold readRaw
  by_cases hreach : c.Reaches
  · have hshort : ¬ isShort c.ahead c.skip = true := fun h =>
      Nat.not_lt.mpr hreach (isShort_iff.mp h)
    rw [if_neg hshort, and_iff_right hreach]
    dsimp only
    by_cases hempty : c.ahead.drop c.skip = []
    · rw [if_pos (List.isEmpty_iff.mpr hempty)]
      exact iff_of_true rfl (.inl hempty)
    rw [if_neg (mt List.isEmpty_iff.mp hempty), or_iff_right hempty]
    by_cases hlength : ((c.ahead.drop c.skip).take blockSize).length < blockSize
    · rw [if_pos hlength]
      rw [List.length_take] at hlength
      exact iff_of_false nofun fun h => by omega
    rw [if_neg hlength]
    rw [List.length_take] at hlength
    rw [and_iff_right (by omega)]
    split
    · next hzero => exact iff_of_true rfl hzero
    · next hzero =>
      refine iff_of_false ?_ hzero
      split
      · nofun
      · split_ifs <;> nofun
  · have hshort : isShort c.ahead c.skip = true := isShort_iff.mpr (Nat.not_le.mp hreach)
    rw [if_pos hshort]
    exact iff_of_false nofun fun h => hreach h.1

/-- An end mark. -/
def mark : Bytes :=
  List.replicate blockSize 0

theorem readRaw_mark (h : readRaw c records = .done) {more : Bytes} (hmore : mark <+: more) :
    readRaw (c.extend more) records = .done := by
  obtain ⟨hreach, hend⟩ := readRaw_eq_done.mp h
  obtain ⟨back, rfl⟩ := hmore
  refine readRaw_eq_done.mpr ⟨?_, .inr ?_⟩
  · rw [Cursor.Reaches, Cursor.extend, List.length_append]
    exact Nat.le_add_right_of_le hreach
  have hahead : (c.extend (mark ++ back)).ahead.drop c.skip =
      c.ahead.drop c.skip ++ (mark ++ back) :=
    List.drop_append_of_le_length hreach
  have hskip : (c.extend (mark ++ back)).skip = c.skip := rfl
  rw [hskip, hahead]
  rcases hend with hempty | ⟨hlength, hzero⟩
  · have hlength : mark.length = blockSize := List.length_replicate
    rw [hempty, List.nil_append, List.take_left' hlength, List.length_append, hlength]
    exact ⟨Nat.le_add_right _ _, List.all_replicate ▸ rfl⟩
  · rw [List.take_append_of_le_length hlength, List.length_append]
    exact ⟨Nat.le_add_right_of_le hlength, hzero⟩

theorem not_isEmpty_of_describes {d d' : Description} (h : roleOf d raw = .describes d') :
    d'.isEmpty = false := by
  unfold roleOf at h
  dsimp only at h
  split_ifs at h <;> cases h <;> simp [Description.isEmpty]

theorem readEntry_eq_done {d : Description} {n : Nat} (h : readEntry d n c = .done) :
    readRaw c d.records = .done ∧ d.isEmpty = true := by
  induction n generalizing d c with
  | zero => cases h
  | succ n ih =>
    rw [readEntry_succ] at h
    cases hraw : readRaw c d.records with
    | malformed detail =>
      rw [hraw] at h
      cases h
    | done =>
      rw [hraw] at h
      dsimp only at h
      split at h
      · next hempty => exact ⟨rfl, hempty⟩
      · cases h
    | entry raw next =>
      rw [hraw] at h
      change readOn d n raw next = .done at h
      unfold readOn at h
      cases hrole : roleOf d raw with
      | describes d' =>
        rw [hrole] at h
        exact absurd (ih h).2 (by rw [not_isEmpty_of_describes hrole]; exact Bool.false_ne_true)
      | sparse =>
        rw [hrole] at h
        cases hsparse : readSparse raw next <;> rw [hsparse] at h <;> cases h
      | plain =>
        rw [hrole] at h
        cases h
      | refused detail =>
        rw [hrole] at h
        cases h

theorem readEntries_mark {n m : Nat} (hnm : n ≤ m) (h : readEntry {} n c = .done) {more : Bytes}
    (hmore : mark <+: more) : readEntries (m + 1) (c.extend more) = ([], none) := by
  have hraw := readRaw_mark (readEntry_eq_done h).1 hmore
  cases n with
  | zero => cases h
  | succ n =>
    obtain ⟨m, rfl⟩ := Nat.exists_eq_add_of_le' hnm
    have hdone : readEntry {} (m + (n + 1)) (c.extend more) = .done := by
      rw [← Nat.add_assoc, readEntry_succ, hraw]
      rfl
    rw [readEntries, hdone]

theorem readEntries_extend {es : List Entry} {n m : Nat} (hnm : n ≤ m)
    (hfuel : c.ahead.length / blockSize + 2 ≤ n) (h : readEntries n c = (es, none)) (more : Bytes) :
    ∃ later fault, readEntries m (c.extend more) = (es ++ later, fault) ∧
      (mark <+: more → later = [] ∧ fault = none) := by
  induction n generalizing c es m with
  | zero => exact absurd hfuel (Nat.not_succ_le_zero _)
  | succ n ih =>
    obtain ⟨m, rfl⟩ := Nat.exists_eq_add_of_le' hnm
    rw [readEntries] at h
    split at h
    · next hdone =>
      cases h
      by_cases hmark : mark <+: more
      · exact ⟨[], none, readEntries_mark (Nat.le_add_left n m) hdone hmark, fun _ => ⟨rfl, rfl⟩⟩
      · exact ⟨_, _, rfl, fun h => absurd h hmark⟩
    · cases h
    · next e rest hentry =>
      obtain ⟨hlength, hmore⟩ := readEntry_spec (Nat.le_add_left n m) more hentry
      have hdiv : rest.ahead.length / blockSize + 2 ≤ n := by
        unfold blockSize at hlength hfuel ⊢
        omega
      cases hes : readEntries n rest with
      | mk later fault =>
        rw [hes] at h
        cases h
        obtain ⟨others, fault, hothers, hmark⟩ := ih (Nat.le_add_left n m) hdiv hes
        -- There is fuel left for another attempt, which would fail were the data cut short.
        have hpos : 0 < n := Nat.lt_of_lt_of_le (Nat.succ_pos _) hdiv
        have hrest : rest.Reaches := reaches_of_readEntries hpos hes
        refine ⟨others, fault, ?_, hmark⟩
        rw [← Nat.add_assoc, readEntries, hmore hrest]
        dsimp only
        rw [hothers]
        rfl

theorem entries_append {bs : Bytes} {es : List Entry} (h : entries bs = (es, none)) (more : Bytes) :
    ∃ later fault, entries (bs ++ more) = (es ++ later, fault) ∧
      (mark <+: more → later = [] ∧ fault = none) := by
  have hfuel : bs.length / blockSize + 2 ≤ (bs ++ more).length / blockSize + 2 := by
    rw [List.length_append]
    exact Nat.add_le_add_right (Nat.div_le_div_right (Nat.le_add_right _ _)) 2
  exact readEntries_extend hfuel (Nat.le_refl _) h more

end Readers

end Buildbox.Tar

namespace Buildbox.Archive

open Gzip (IsMember stored)

variable {bs content rest : Bytes} {only : Option String}

theorem decode_of_member? (h : Gzip.member? bs = .ok (content, rest)) (url : String) :
    decode url bs only = (ofTar content only).mapError (.archive url) := by
  obtain ⟨body, tail, hbody, -⟩ := Gzip.member?_eq_ok.mp h
  have hunpack : unpack bs = .ok content := by
    rw [unpack, if_pos (Gzip.isGzip_of_skipHeader hbody), Gzip.decompress_of_member? h]
    rfl
  rw [decode, hunpack]
  dsimp only
  cases ofTar content only <;> rfl

theorem decode_of_members {m p : Bytes} {ms ps : List Bytes}
    (h : List.Forall₂ IsMember (m :: ms) (p :: ps)) (url : String) :
    decode url (m :: ms).flatten only = (ofTar p only).mapError (.archive url) := by
  have hmember : Gzip.member? (m ++ ms.flatten) = .ok (p, ms.flatten) := by
    cases h with
    | cons hm _ => exact Gzip.member?_append hm ms.flatten
  exact decode_of_member? hmember url

theorem entries_of_ofTar {d : Directory} (h : ofTar bs only = .ok d) :
    ∃ es, Tar.entries bs = (es, none) ∧ addEntries only .empty es = .ok d := by
  have hes : Tar.entries bs = ((Tar.entries bs).1, none) :=
    Prod.ext rfl (whole_of_ofTar h).1
  rw [ofTar_eq_addEntries hes] at h
  exact ⟨_, hes, h⟩

theorem ofTar_congr {bs' : Bytes} (h : Tar.entries bs = Tar.entries bs') :
    ofTar bs only = ofTar bs' only := by
  rw [ofTar, ofTar, h]

/-- A container that was compressed part by part is decoded to the tree of its first part, without
a fault if that part can be read. It is a tree of the first entries of the container, and the tree
of all of them if the first part holds the end mark. -/
theorem first_part_decoded {m p : Bytes} {ms ps : List Bytes}
    (h : List.Forall₂ IsMember (m :: ms) (p :: ps)) (url : String) (only : Option String) :
    let file := (m :: ms).flatten
    let container := (p :: ps).flatten
    Gzip.contents file = .ok container ∧
      decode url file only = (ofTar p only).mapError (.archive url) ∧
      (∀ d, decode url file only = .ok d → ∃ first later fault,
        Tar.entries container = (first ++ later, fault) ∧ addEntries only .empty first = .ok d) ∧
      ∀ front back es, p = front ++ Tar.mark ++ back → Tar.entries front = (es, none) →
        decode url file only = (ofTar container only).mapError (.archive url) := by
  intro file container
  have hcontents : Gzip.contents file = .ok container :=
    Gzip.contents_flatten h (List.cons_ne_nil m ms)
  have hdecode : decode url file only = (ofTar p only).mapError (.archive url) :=
    decode_of_members h url
  refine ⟨hcontents, hdecode, fun d hd => ?_, fun front back es hp hfront => ?_⟩
  · have hd' : ofTar p only = .ok d := by
      rw [hdecode] at hd
      cases hp : ofTar p only with
      | error fault =>
        rw [hp] at hd
        cases hd
      | ok d' =>
        rw [hp] at hd
        cases hd
        rfl
    obtain ⟨first, hfirst, hadd⟩ := entries_of_ofTar hd'
    obtain ⟨later, fault, hlater, -⟩ := Tar.entries_append hfirst ps.flatten
    exact ⟨first, later, fault, hlater, hadd⟩
  · have hended : ∀ more, Tar.entries (front ++ Tar.mark ++ more) = (es, none) := by
      intro more
      obtain ⟨later, fault, hlater, hmark⟩ := Tar.entries_append hfront (Tar.mark ++ more)
      obtain ⟨rfl, rfl⟩ := hmark (List.prefix_append Tar.mark more)
      rwa [List.append_nil, ← List.append_assoc] at hlater
    have hcontainer : container = front ++ Tar.mark ++ (back ++ ps.flatten) := by
      rw [← List.append_assoc, ← hp]
      rfl
    have hsame : Tar.entries p = Tar.entries container := by
      rw [hcontainer, hp, hended, hended]
    rw [hdecode, ofTar_congr hsame]

def twoParts (whole : Bool) : List Bytes :=
  [member "a" 0x30 [1] ++ if whole then Tar.mark else [], member "b" 0x30 []]

def twoMembers (whole : Bool) : List Bytes :=
  (twoParts whole).map fun part => stored [part]

theorem isMember_twoMembers (whole : Bool) :
    List.Forall₂ IsMember (twoMembers whole) (twoParts whole) := by
  have hlength : ∀ part ∈ twoParts whole, part.length < 65536 := by
    revert whole
    decide +kernel
  have hmember : ∀ part ∈ twoParts whole, IsMember (stored [part]) part := by
    intro part hpart
    have h := Gzip.isMember_stored (List.forall_mem_singleton.mpr (hlength part hpart))
    rwa [List.flatten_singleton] at h
  exact .cons (hmember _ List.mem_cons_self)
    (.cons (hmember _ (List.mem_cons_of_mem _ List.mem_cons_self)) .nil)

theorem first_part_decoded_marked :
    List.Forall₂ IsMember (twoMembers true) (twoParts true) ∧
      Gzip.contents (twoMembers true).flatten = .ok (twoParts true).flatten ∧
      decode "u" (twoMembers true).flatten none = .ok (.file "a" [1] .empty) ∧
      decode "u" (twoMembers true).flatten none =
        (ofTar (twoParts true).flatten none).mapError (.archive "u") := by
  have hmembers := isMember_twoMembers true
  obtain ⟨hcontents, hdecode, -, hmarked⟩ := first_part_decoded hmembers "u" none
  have hfront : Tar.entries (member "a" 0x30 [1]) =
      ([⟨Utf8.encode "a", .file, 1, [1]⟩], none) := by decide +kernel
  have htree : ofTar (member "a" 0x30 [1] ++ Tar.mark) none = .ok (.file "a" [1] .empty) := by
    decide +kernel
  refine ⟨hmembers, hcontents, hdecode.trans (htree ▸ rfl), ?_⟩
  exact hmarked (member "a" 0x30 [1]) [] _ (List.append_nil _).symm hfront

theorem later_member_lost :
    List.Forall₂ IsMember (twoMembers false) (twoParts false) ∧
      Gzip.contents (twoMembers false).flatten = .ok (twoParts false).flatten ∧
      ofTar (twoParts false).flatten none = .ok (.file "a" [1] (.file "b" [] .empty)) ∧
      decode "u" (twoMembers false).flatten none = .ok (.file "a" [1] .empty) ∧
      decode "u" (twoMembers false).flatten none ≠
        (ofTar (twoParts false).flatten none).mapError (.archive "u") := by
  have hmembers := isMember_twoMembers false
  have hcontents := Gzip.contents_flatten hmembers (List.cons_ne_nil _ _)
  have hcontainer : ofTar (twoParts false).flatten none =
      .ok (.file "a" [1] (.file "b" [] .empty)) := by decide +kernel
  have hfirst : ofTar (member "a" 0x30 [1] ++ []) none = .ok (.file "a" [1] .empty) := by
    decide +kernel
  have hdecode : decode "u" (twoMembers false).flatten none = .ok (.file "a" [1] .empty) :=
    (decode_of_members hmembers "u").trans (hfirst ▸ rfl)
  refine ⟨hmembers, hcontents, hcontainer, hdecode, ?_⟩
  rw [hdecode, hcontainer]
  nofun

end Buildbox.Archive
