import Buildbox.Archive.Gzip
import Buildbox.Proofs.Archive.Inflating
import Buildbox.Proofs.Lists
import Mathlib.Data.List.Forall2

/-! Gzip files of several members. A member is read alike whatever follows it, and every content is
that of some member; but a file is decompressed to the content of its first one alone. -/

namespace Buildbox.Gzip

open Inflate (inflate inflate_append)

variable {bs rest content : Bytes}

def skipEnd (content bs : Bytes) : Except Fault Bytes :=
  if bs.length < 8 then .error .cutShort
  else if Bytes.toNatLE (bs.take 4) = (Crc32.checksum content).toNat ∧
      Bytes.toNatLE ((bs.drop 4).take 4) = content.length % UInt32.size then .ok (bs.drop 8)
  else .error .checksum

def member? (bs : Bytes) : Except Fault (Bytes × Bytes) := do
  let body ← skipHeader bs
  let (content, rest) ← (inflate body).mapError .ofInflate
  return (content, ← skipEnd content rest)

/-- A member and nothing else. -/
def IsMember (bs content : Bytes) : Prop :=
  member? bs = .ok (content, [])

def contentsFrom : (fuel : Nat) → Bytes → Except Fault Bytes
  | 0, _ => .error .cutShort
  | fuel + 1, bs => do
    let (content, rest) ← member? bs
    if rest.isEmpty then return content else return content ++ (← contentsFrom fuel rest)

/-- The contents of all members of a file; each takes up some bytes. -/
def contents (bs : Bytes) : Except Fault Bytes :=
  contentsFrom bs.length bs

section Headers

def Skips (skip : Bytes → Except Fault Bytes) : Prop :=
  ∀ bs rest, skip bs = .ok rest →
    rest.length ≤ bs.length ∧ ∀ more, skip (bs ++ more) = .ok (rest ++ more)

def optionally (asked : Prop) [Decidable asked] (skip : Bytes → Except Fault Bytes) (bs : Bytes) :
    Except Fault Bytes :=
  if asked then skip bs else .ok bs

theorem optionally_bind (asked : Prop) [Decidable asked] (skip g : Bytes → Except Fault Bytes)
    (bs : Bytes) :
    (optionally asked skip bs >>= g) = if asked then skip bs >>= g else pure bs >>= g := by
  unfold optionally
  by_cases hasked : asked
  · rw [if_pos hasked, if_pos hasked]
  · rw [if_neg hasked, if_neg hasked]
    rfl

theorem Skips.optionally {skip : Bytes → Except Fault Bytes} (h : Skips skip) (asked : Prop)
    [Decidable asked] : Skips (optionally asked skip) := by
  intro bs rest hskip
  unfold Gzip.optionally at hskip ⊢
  split at hskip
  · next hasked =>
    simp only [if_pos hasked]
    exact h bs rest hskip
  · next hasked =>
    cases hskip
    exact ⟨Nat.le_refl _, fun _ => if_neg hasked⟩

theorem Skips.bind {skip skip' : Bytes → Except Fault Bytes} (h : Skips skip) (h' : Skips skip') :
    Skips fun bs => skip bs >>= skip' := by
  intro bs rest hskip
  change skip bs >>= skip' = _ at hskip
  change _ ∧ ∀ more, skip (bs ++ more) >>= skip' = _
  obtain ⟨mid, hfirst, hskip⟩ := ok_of_bind hskip
  obtain ⟨hmid, hmore⟩ := h bs mid hfirst
  obtain ⟨hrest, hmore'⟩ := h' mid rest hskip
  refine ⟨Nat.le_trans hrest hmid, fun more => ?_⟩
  rw [hmore more]
  exact hmore' more

theorem skips_skipText : Skips skipText := by
  intro bs rest h
  simp only [skipText] at h
  split at h
  · cases h
  next hshort =>
  split at h
  · next zero tail htail =>
    cases h
    have hlength : (bs.takeWhile (· ≠ 0)).length + (rest.length + 1) = bs.length := by
      have hdrop := congrArg List.length htail
      rw [List.length_drop, List.length_cons] at hdrop
      omega
    refine ⟨by omega, fun more => ?_⟩
    have htext : (bs ++ more).takeWhile (· ≠ 0) = bs.takeWhile (· ≠ 0) := by
      rw [List.takeWhile_append, if_neg (by omega)]
    have hdrop : (bs ++ more).drop (bs.takeWhile (· ≠ 0)).length = zero :: (rest ++ more) := by
      rw [List.drop_append_of_le_length (by omega), htail, List.cons_append]
    simp only [skipText, htext, if_neg hshort, hdrop]
  · cases h

theorem skips_skipExtra : Skips skipExtra := by
  intro bs rest h
  rcases bs with _ | ⟨a, _ | ⟨b, bs⟩⟩
  · cases h
  · cases h
  simp only [skipExtra] at h
  split at h
  · next hlength =>
    cases h
    refine ⟨?_, fun more => ?_⟩
    · simp only [List.length_drop, List.length_cons]
      omega
    have hlonger : a.toNat + 256 * b.toNat ≤ (bs ++ more).length := by
      rw [List.length_append]
      exact Nat.le_add_right_of_le hlength
    simp only [skipExtra, List.cons_append, if_pos hlonger,
      List.drop_append_of_le_length hlength]
  · cases h

theorem skipChecksum_append {all : Bytes} (h : skipChecksum all bs = .ok rest)
    (hlength : bs.length ≤ all.length) (more : Bytes) :
    skipChecksum (all ++ more) (bs ++ more) = .ok (rest ++ more) := by
  rcases bs with _ | ⟨a, _ | ⟨b, bs⟩⟩
  · cases h
  · cases h
  have hcovered : (all ++ more).take ((all ++ more).length - (bs ++ more).length - 2) =
      all.take (all.length - bs.length - 2) := by
    rw [List.length_append, List.length_append, Nat.add_sub_add_right]
    exact List.take_append_of_le_length (by omega)
  simp only [skipChecksum] at h
  split at h
  · next hsum =>
    cases h
    simp only [skipChecksum, List.cons_append, hcovered, if_pos hsum]
  · cases h

def skipFields (flags : UInt8) (bs : Bytes) : Except Fault Bytes :=
  optionally (flags &&& 4 ≠ 0) skipExtra bs >>= fun bs =>
    optionally (flags &&& 8 ≠ 0) skipText bs >>= optionally (flags &&& 16 ≠ 0) skipText

theorem skips_skipFields (flags : UInt8) : Skips (skipFields flags) :=
  (skips_skipExtra.optionally _).bind
    ((skips_skipText.optionally _).bind (skips_skipText.optionally _))

theorem skipHeader_cons (a b method flags m₁ m₂ m₃ m₄ level system : UInt8) (bs : Bytes) :
    skipHeader (a :: b :: method :: flags :: m₁ :: m₂ :: m₃ :: m₄ :: level :: system :: bs) =
      if a ≠ 0x1F ∨ b ≠ 0x8B ∨ method ≠ 8 ∨ flags &&& 0xE0 ≠ 0 then .error .header
      else skipFields flags bs >>= optionally (flags &&& 2 ≠ 0) (skipChecksum
        (a :: b :: method :: flags :: m₁ :: m₂ :: m₃ :: m₄ :: level :: system :: bs)) := by
  rw [skipHeader]
  split
  · rfl
  · simp only [skipFields, bind_assoc]
    simp only [optionally_bind]
    rfl

theorem skipHeader_eq_ok : skipHeader bs = .ok rest ↔
    ∃ flags m₁ m₂ m₃ m₄ level system fields mid,
      bs = 0x1F :: 0x8B :: 8 :: flags :: m₁ :: m₂ :: m₃ :: m₄ :: level :: system :: fields ∧
      flags &&& 0xE0 = 0 ∧ skipFields flags fields = .ok mid ∧
      optionally (flags &&& 2 ≠ 0) (skipChecksum bs) mid = .ok rest := by
  constructor
  · intro h
    rcases bs with _ | ⟨a, _ | ⟨b, _ | ⟨method, _ | ⟨flags, _ | ⟨m₁, _ | ⟨m₂, _ | ⟨m₃, _ | ⟨m₄,
      _ | ⟨level, _ | ⟨system, fields⟩⟩⟩⟩⟩⟩⟩⟩⟩⟩
    iterate 10 cases h
    rw [skipHeader_cons] at h
    split at h
    · cases h
    · next hfixed =>
      simp only [not_or, Decidable.not_not] at hfixed
      obtain ⟨rfl, rfl, rfl, hflags⟩ := hfixed
      obtain ⟨mid, hmid, h⟩ := ok_of_bind h
      exact ⟨flags, m₁, m₂, m₃, m₄, level, system, fields, mid, rfl, hflags, hmid, h⟩
  · rintro ⟨flags, m₁, m₂, m₃, m₄, level, system, fields, mid, rfl, hflags, hmid, hrest⟩
    rw [skipHeader_cons, if_neg (by simp [hflags]), hmid]
    exact hrest

theorem skipHeader_append (h : skipHeader bs = .ok rest) (more : Bytes) :
    skipHeader (bs ++ more) = .ok (rest ++ more) := by
  obtain ⟨flags, m₁, m₂, m₃, m₄, level, system, fields, mid, hbs, hflags, hmid, hrest⟩ :=
    skipHeader_eq_ok.mp h
  obtain ⟨hlength, hmore⟩ := skips_skipFields flags fields mid hmid
  refine skipHeader_eq_ok.mpr ⟨flags, m₁, m₂, m₃, m₄, level, system, fields ++ more, mid ++ more,
    congrArg (· ++ more) hbs, hflags, hmore more, ?_⟩
  unfold optionally at hrest ⊢
  split at hrest
  · next hasked =>
    rw [if_pos hasked]
    refine skipChecksum_append hrest ?_ more
    simp only [hbs, List.length_cons]
    omega
  · next hasked =>
    cases hrest
    rw [if_neg hasked]

theorem isGzip_of_skipHeader (h : skipHeader bs = .ok rest) : isGzip bs = true := by
  obtain ⟨_, _, _, _, _, _, _, _, _, rfl, -⟩ := skipHeader_eq_ok.mp h
  rfl

theorem skipEnd_append (h : skipEnd content bs = .ok rest) (more : Bytes) :
    skipEnd content (bs ++ more) = .ok (rest ++ more) := by
  unfold skipEnd at h ⊢
  split at h
  · cases h
  next hlength =>
  split at h
  · next hend =>
    cases h
    have hlong : 8 ≤ bs.length := Nat.not_lt.mp hlength
    have hlonger : ¬ (bs ++ more).length < 8 := by
      rw [List.length_append]
      omega
    have hsum : (bs ++ more).take 4 = bs.take 4 :=
      List.take_append_of_le_length (by omega)
    have hsize : ((bs ++ more).drop 4).take 4 = (bs.drop 4).take 4 := by
      rw [List.drop_append_of_le_length (by omega)]
      exact List.take_append_of_le_length (by rw [List.length_drop]; omega)
    rw [if_neg hlonger, hsum, hsize, if_pos hend, List.drop_append_of_le_length hlong]
  · cases h

end Headers

section Contents

variable {body tail : Bytes} {ms ps : List Bytes}

theorem member?_eq (hbody : skipHeader bs = .ok body)
    (hinflate : inflate body = .ok (content, tail)) :
    member? bs = (skipEnd content tail).map (content, ·) := by
  rw [member?, hbody]
  change (inflate body).mapError Fault.ofInflate >>= _ = _
  rw [hinflate]
  change skipEnd content tail >>= _ = _
  cases skipEnd content tail <;> rfl

theorem member?_eq_ok : member? bs = .ok (content, rest) ↔
    ∃ body tail, skipHeader bs = .ok body ∧ inflate body = .ok (content, tail) ∧
      skipEnd content tail = .ok rest := by
  constructor
  · intro h
    obtain ⟨body, hbody, h⟩ := ok_of_bind h
    obtain ⟨⟨_, tail⟩, hread, h⟩ := ok_of_bind h
    obtain ⟨_, hend, ⟨⟩⟩ := ok_of_bind h
    have hinflate : inflate body = .ok (content, tail) := by
      cases hbits : inflate body with
      | error fault =>
        rw [hbits] at hread
        cases hread
      | ok p =>
        rw [hbits] at hread
        cases hread
        rfl
    exact ⟨body, tail, hbody, hinflate, hend⟩
  · rintro ⟨body, tail, hbody, hinflate, hend⟩
    rw [member?_eq hbody hinflate, hend]
    rfl

theorem decompress_of_member? (h : member? bs = .ok (content, rest)) :
    decompress bs = .ok content := by
  obtain ⟨body, tail, hbody, hinflate, hend⟩ := member?_eq_ok.mp h
  rw [decompress, hbody]
  change (inflate body).mapError Fault.ofInflate >>= _ = _
  rw [hinflate]
  unfold skipEnd at hend
  split at hend
  · cases hend
  next hlength =>
  split at hend
  · next hfits =>
    change (if tail.length < 8 then _ else if _ ∧ _ then _ else _) = _
    rw [if_neg hlength, if_pos hfits]
    rfl
  · cases hend

theorem member?_append (h : member? bs = .ok (content, rest)) (more : Bytes) :
    member? (bs ++ more) = .ok (content, rest ++ more) := by
  obtain ⟨body, tail, hbody, hinflate, hend⟩ := member?_eq_ok.mp h
  exact member?_eq_ok.mpr ⟨_, _, skipHeader_append hbody more, inflate_append hinflate more,
    skipEnd_append hend more⟩

theorem IsMember.ne_nil (h : IsMember bs content) : bs ≠ [] := by
  rintro rfl
  cases h

theorem contentsFrom_flatten (h : List.Forall₂ IsMember ms ps) (hne : ms ≠ []) {fuel : Nat}
    (hfuel : ms.length ≤ fuel) : contentsFrom fuel ms.flatten = .ok ps.flatten := by
  induction h generalizing fuel with
  | nil => exact absurd rfl hne
  | @cons m p ms ps hm hms ih =>
    obtain ⟨fuel, rfl⟩ := Nat.exists_eq_add_of_le' hfuel
    -- What is left behind the first member is the other members.
    have hfirst : member? (m ++ ms.flatten) = .ok (p, ms.flatten) := member?_append hm _
    have hlater : contentsFrom (fuel + (ms.length + 1)) (m ++ ms.flatten) =
        if ms.flatten.isEmpty then .ok p
        else (contentsFrom (fuel + ms.length) ms.flatten).map (p ++ ·) := by
      rw [← Nat.add_assoc, contentsFrom, hfirst]
      change (if ms.flatten.isEmpty then _ else _) = _
      split
      · rfl
      · cases contentsFrom (fuel + ms.length) ms.flatten <;> rfl
    rw [List.flatten_cons, List.length_cons, hlater]
    cases hms with
    | nil => exact congrArg Except.ok (List.append_nil p).symm
    | @cons n q ms ps hn hms =>
      have hfull : ¬ (n :: ms).flatten.isEmpty = true := by
        rw [List.isEmpty_iff, List.flatten_cons]
        exact fun heq => hn.ne_nil (List.append_eq_nil_iff.mp heq).1
      rw [if_neg hfull, ih (List.cons_ne_nil n ms) (Nat.le_add_left _ _)]
      rfl

theorem contents_flatten (h : List.Forall₂ IsMember ms ps) (hne : ms ≠ []) :
    contents ms.flatten = .ok ps.flatten := by
  have hlength : ms.length ≤ ms.flatten.length := by
    clear hne
    induction h with
    | nil => exact Nat.le_refl 0
    | @cons m p ms ps hm hms ih =>
      have hpos : 0 < m.length := List.length_pos_iff.mpr hm.ne_nil
      rw [List.flatten_cons, List.length_append, List.length_cons]
      omega
  exact contentsFrom_flatten h hne hlength

end Contents

section Stored

def storedBlock (final : Bool) (chunk : Bytes) : Bytes :=
  (if final then 1 else 0) :: Bytes.ofNatLE 2 chunk.length ++
    Bytes.ofNatLE 2 (65535 - chunk.length) ++ chunk

def stored (chunks : List Bytes) : Bytes :=
  [0x1F, 0x8B, 8, 0, 0, 0, 0, 0, 0, 255] ++
    (chunks.flatMap (storedBlock false) ++ (storedBlock true [] ++
      (Bytes.ofNatLE 4 (Crc32.checksum chunks.flatten).toNat ++
        Bytes.ofNatLE 4 chunks.flatten.length)))

theorem readStored_stored {chunk : Bytes} (h : chunk.length < 65536) (out : Array UInt8)
    (current : UInt8) (left : Nat) (more : Bytes) :
    Inflate.readStored out ⟨current, left, Bytes.ofNatLE 2 chunk.length ++
        (Bytes.ofNatLE 2 (65535 - chunk.length) ++ (chunk ++ more))⟩ =
      .ok (out ++ chunk.toArray, { rest := more }) := by
  have hlength : (UInt8.ofNat chunk.length).toNat + 256 * (UInt8.ofNat (chunk.length / 256)).toNat =
      chunk.length := by
    rw [UInt8.toNat_ofNat', UInt8.toNat_ofNat']
    omega
  have hother : (UInt8.ofNat (65535 - chunk.length)).toNat +
      256 * (UInt8.ofNat ((65535 - chunk.length) / 256)).toNat = 65535 - chunk.length := by
    rw [UInt8.toNat_ofNat', UInt8.toNat_ofNat']
    omega
  have hsum : ¬ chunk.length + (65535 - chunk.length) ≠ 65535 := by omega
  have hroom : ¬ (chunk ++ more).length < chunk.length := by
    rw [List.length_append]
    omega
  simp only [Inflate.readStored, Bytes.ofNatLE, List.cons_append, List.nil_append, hlength, hother,
    if_neg hsum, if_neg hroom, List.take_left', List.drop_left']

theorem bit_zero (left : Nat) (rest : Bytes) :
    Inflate.bit ⟨0, left + 1, rest⟩ = .ok (0, ⟨0, left, rest⟩) := by
  have hshift : (0 : UInt8) >>> 1 = 0 := by decide
  rw [Inflate.bit, Inflate.Bits.next, hshift]
  rfl

theorem readBlock_stored {chunk : Bytes} (h : chunk.length < 65536) (final : Bool)
    (out : Array UInt8) (more : Bytes) :
    ∃ s : Inflate.Bits, Inflate.bit { rest := storedBlock final chunk ++ more } =
        .ok (final.toNat, s) ∧
      Inflate.readBlock out s = .ok (out ++ chunk.toArray, { rest := more }) := by
  have hread := readStored_stored h out 0 5 more
  have hbits : ∀ rest, Inflate.bits 2 ⟨0, 7, rest⟩ = .ok (0, ⟨0, 5, rest⟩) := by
    intro rest
    refine Inflate.bind_eq_ok.mpr ⟨0, _, bit_zero 6 rest, ?_⟩
    refine Inflate.bind_eq_ok.mpr ⟨0, ⟨0, 5, rest⟩, ?_, rfl⟩
    exact Inflate.bind_eq_ok.mpr ⟨0, _, bit_zero 5 rest, rfl⟩
  have hfinal : ∀ rest, Inflate.bit { rest := (if final then 1 else 0) :: rest } =
      .ok (final.toNat, ⟨0, 7, rest⟩) := by
    intro rest
    have hshift : (1 : UInt8) >>> 1 = 0 ∧ (0 : UInt8) >>> 1 = 0 := by decide
    cases final
    · simp only [Inflate.bit, Inflate.Bits.next, Bool.false_eq_true, if_false, hshift]
      rfl
    · simp only [Inflate.bit, Inflate.Bits.next, if_true, hshift]
      rfl
  refine ⟨⟨0, 7, _⟩, ?_, Inflate.bind_eq_ok.mpr ⟨0, _, hbits _, hread⟩⟩
  simp only [storedBlock, List.cons_append, List.append_assoc]
  exact hfinal _

theorem readBlocks_stored {chunks : List Bytes} (h : ∀ c ∈ chunks, c.length < 65536)
    (more : Bytes) (out : Array UInt8) {fuel : Nat} (hfuel : chunks.length < fuel) :
    Inflate.readBlocks fuel out
        { rest := chunks.flatMap (storedBlock false) ++ (storedBlock true [] ++ more) } =
      .ok (out ++ chunks.flatten.toArray, { rest := more }) := by
  induction chunks generalizing out fuel with
  | nil =>
    obtain ⟨fuel, rfl⟩ := Nat.exists_eq_add_of_lt hfuel
    have hempty : ([] : Bytes).length < 65536 := by decide
    obtain ⟨s, hbit, hblock⟩ := readBlock_stored hempty true out more
    refine Inflate.bind_eq_ok.mpr ⟨_, s, hbit, ?_⟩
    exact Inflate.bind_eq_ok.mpr ⟨_, _, hblock, rfl⟩
  | cons c chunks ih =>
    obtain ⟨fuel, rfl⟩ := Nat.exists_eq_add_of_lt hfuel
    obtain ⟨s, hbit, hblock⟩ := readBlock_stored (h c List.mem_cons_self) false out
      (chunks.flatMap (storedBlock false) ++ (storedBlock true [] ++ more))
    have hrest : ∀ c ∈ chunks, c.length < 65536 := fun c hc => h c (List.mem_cons_of_mem _ hc)
    have hmore : chunks.length < chunks.length + 1 + fuel := by omega
    have hlater := ih hrest (out ++ c.toArray) hmore
    rw [List.flatMap_cons, List.append_assoc, List.flatten_cons]
    refine Inflate.bind_eq_ok.mpr ⟨_, s, hbit, ?_⟩
    refine Inflate.bind_eq_ok.mpr ⟨_, _, hblock, ?_⟩
    have hout : out ++ (c ++ chunks.flatten).toArray =
        out ++ c.toArray ++ chunks.flatten.toArray := by
      rw [Array.append_assoc, ← List.append_toArray c]
    rw [hout, ← hlater]
    rfl

theorem length_le_flatMap_storedBlock (chunks : List Bytes) :
    chunks.length ≤ (chunks.flatMap (storedBlock false)).length := by
  induction chunks with
  | nil => exact Nat.le_refl 0
  | cons c chunks ih =>
    have hblock : 0 < (storedBlock false c).length := Nat.zero_lt_succ _
    rw [List.flatMap_cons, List.length_append, List.length_cons]
    omega

theorem inflate_stored {chunks : List Bytes} (h : ∀ c ∈ chunks, c.length < 65536) (more : Bytes) :
    inflate (chunks.flatMap (storedBlock false) ++ (storedBlock true [] ++ more)) =
      .ok (chunks.flatten, more) := by
  have hlength := length_le_flatMap_storedBlock chunks
  rw [inflate, readBlocks_stored h more #[] ?fuel]
  · rw [Array.empty_append]
    rfl
  · rw [List.length_append]
    omega

theorem skipEnd_stored (content : Bytes) :
    skipEnd content (Bytes.ofNatLE 4 (Crc32.checksum content).toNat ++
      Bytes.ofNatLE 4 content.length) = .ok [] := by
  have hsum : Bytes.toNatLE (Bytes.ofNatLE 4 (Crc32.checksum content).toNat) =
      (Crc32.checksum content).toNat := by
    rw [Bytes.toNatLE_ofNatLE]
    exact Nat.mod_eq_of_lt (Crc32.checksum content).toNat_lt
  have hsize : Bytes.toNatLE (Bytes.ofNatLE 4 content.length) =
      content.length % UInt32.size := Bytes.toNatLE_ofNatLE 4 _
  have hlength : ∀ n, (Bytes.ofNatLE 4 n).length = 4 := Bytes.length_ofNatLE 4
  have hboth : ∀ n m, (Bytes.ofNatLE 4 n ++ Bytes.ofNatLE 4 m).length = 8 := by
    intro n m
    rw [List.length_append, hlength, hlength]
  rw [skipEnd, if_neg (Nat.not_lt.mpr (Nat.le_of_eq (hboth _ _).symm)),
    List.take_left' (hlength _), List.drop_left' (hlength _),
    List.take_of_length_le (Nat.le_of_eq (hlength _)), if_pos ⟨hsum, hsize⟩,
    List.drop_eq_nil_of_le (Nat.le_of_eq (hboth _ _))]

theorem isMember_stored {chunks : List Bytes} (h : ∀ c ∈ chunks, c.length < 65536) :
    IsMember (stored chunks) chunks.flatten :=
  member?_eq_ok.mpr ⟨_, _, rfl, inflate_stored h _, skipEnd_stored _⟩

/-- Whatever a file is to hold, some member holds it. -/
theorem exists_isMember (content : Bytes) : ∃ m, IsMember m content := by
  have hchunks : ∀ c ∈ content.map ([·]), c.length < 65536 := by
    intro c hc
    obtain ⟨b, -, rfl⟩ := List.mem_map.mp hc
    exact (by decide : 1 < 65536)
  have hflatten : (content.map ([·])).flatten = content := by
    rw [← List.flatMap_def]
    exact List.flatMap_singleton' content
  exact ⟨_, hflatten ▸ isMember_stored hchunks⟩

end Stored

end Buildbox.Gzip
