import Buildbox.Archive.Inflate

/-! Inflating takes no notice of what follows a stream: with more input behind, each reader takes
what it took before and leaves so much more. -/

namespace Buildbox.Inflate

variable {α β : Type}

def Bits.extend (s : Bits) (more : Bytes) : Bits :=
  { s with rest := s.rest ++ more }

def Extends (r q : Reader α) : Prop :=
  ∀ s a t, r s = .ok (a, t) → ∀ more, q (s.extend more) = .ok (a, t.extend more)

section Steps

theorem Bits.count_le_extend (s : Bits) (more : Bytes) : s.count ≤ (s.extend more).count := by
  have hlength : (s.rest ++ more).length = s.rest.length + more.length := List.length_append
  simp only [Bits.count, Bits.extend, hlength]
  omega

theorem bind_eq_ok {r : Reader α} {f : α → Reader β} {s u : Bits} {b : β} :
    (r >>= f) s = .ok (b, u) ↔ ∃ a t, r s = .ok (a, t) ∧ f a t = .ok (b, u) := by
  have hbind : (r >>= f) s = (r s >>= fun p => f p.1 p.2) := rfl
  rw [hbind]
  cases hr : r s with
  | error fault => exact iff_of_false nofun nofun
  | ok p =>
    constructor
    · intro h
      exact ⟨p.1, p.2, rfl, h⟩
    · rintro ⟨a, t, heq, h⟩
      cases heq
      exact h

theorem Extends.pure (a : α) : Extends (Pure.pure a) (Pure.pure a) := by
  rintro s _ _ ⟨⟩ more
  rfl

theorem Extends.throw (fault : Fault) (q : Reader α) : Extends (throw fault) q := by
  rintro s _ _ ⟨⟩

theorem Extends.bind {r q : Reader α} {f g : α → Reader β} (hr : Extends r q)
    (hf : ∀ a, Extends (f a) (g a)) : Extends (r >>= f) (q >>= g) := by
  intro s b u h more
  obtain ⟨a, t, ha, hb⟩ := bind_eq_ok.mp h
  exact bind_eq_ok.mpr ⟨a, t.extend more, hr s a t ha more, hf a t b u hb more⟩

theorem Extends.map {r q : Reader α} (h : Extends r q) (f : α → β) :
    Extends (f <$> r) (f <$> q) :=
  h.bind fun a => .pure (f a)

theorem Extends.ite {p : Prop} [Decidable p] {r q r' q' : Reader α} (h : Extends r q)
    (h' : Extends r' q') : Extends (if p then r else r') (if p then q else q') := by
  split
  · exact h
  · exact h'

theorem Extends.count {f : Nat → Reader α} (h : ∀ n m, n ≤ m → Extends (f n) (f m)) :
    Extends (get >>= fun s => f s.count) (get >>= fun s => f s.count) := by
  intro s b u hb more
  obtain ⟨_, _, ⟨⟩, hb⟩ := bind_eq_ok.mp hb
  refine bind_eq_ok.mpr ⟨_, _, rfl, ?_⟩
  exact h _ _ (s.count_le_extend more) s b u hb more

theorem Extends.mapM {f : β → Reader α} (h : ∀ b, Extends (f b) (f b)) (bs : List β) :
    Extends (bs.mapM f) (bs.mapM f) := by
  induction bs with
  | nil => exact .pure []
  | cons b bs ih =>
    rw [List.mapM_cons]
    exact (h b).bind fun a => ih.bind fun as => .pure (a :: as)

end Steps

section Codes

theorem extends_bit : Extends bit bit := by
  rintro ⟨current, left, rest⟩ a t h more
  cases left with
  | succ n =>
    cases h
    rfl
  | zero =>
    cases rest with
    | nil => cases h
    | cons b rest =>
      cases h
      rfl

theorem extends_bits (n : Nat) : Extends (bits n) (bits n) := by
  induction n with
  | zero => exact .pure 0
  | succ n ih => exact extends_bit.bind fun b => ih.bind fun bs => .pure (b + 2 * bs)

theorem extends_readFrom (c : Code) (counts : List Nat) (code first index : Nat) :
    Extends (c.readFrom code first index counts) (c.readFrom code first index counts) := by
  induction counts generalizing code first index with
  | nil => exact .throw .corrupt _
  | cons count counts ih =>
    refine extends_bit.bind fun b => .ite ?_ (.ite (.throw .corrupt _) (ih _ _ _))
    split
    · next symbol _ => exact .pure symbol
    · exact .throw .corrupt _

theorem extends_read (c : Code) : Extends c.read c.read :=
  extends_readFrom c _ 0 0 0

theorem extends_extended (table : List (Nat × Nat)) (symbol : Nat) :
    Extends (extended table symbol) (extended table symbol) := by
  unfold extended
  split
  · next base extra _ => exact (extends_bits extra).bind fun n => .pure (base + n)
  · exact .throw .corrupt _

theorem extends_readLengths (c : Code) (total fuel : Nat) (done : List Nat) :
    Extends (readLengths c total fuel done) (readLengths c total fuel done) := by
  induction fuel generalizing done with
  | zero => exact .throw .corrupt _
  | succ fuel ih =>
    refine .ite (.pure done) (.ite (.throw .corrupt _) ((extends_read c).bind fun symbol => ?_))
    refine .ite (ih _) (.ite ?_ ?_)
    · cases done with
      | nil => exact .throw .corrupt _
      | cons last done => exact (extends_bits 2).bind fun n => ih _
    · exact .ite (((extends_bits 3).map _).bind fun n => ih _)
        (((extends_bits 7).map _).bind fun n => ih _)

theorem extends_readCodes : Extends readCodes readCodes := by
  refine (extends_bits 5).bind fun l => (extends_bits 5).bind fun d => (extends_bits 4).bind ?_
  intro written
  refine .ite (.throw .corrupt _) ?_
  refine (Extends.mapM (fun _ => extends_bits 3) _).bind fun given => ?_
  dsimp only
  split
  · next c _ =>
    refine (extends_readLengths c _ _ []).bind fun lengths => ?_
    split
    · split
      · next l _ _ d _ => exact .pure (l, d)
      · exact .throw .corrupt _
    · exact .throw .corrupt _
  · exact .throw .corrupt _

end Codes

section Blocks

theorem extends_readSymbols (literals distances : Code) {n m : Nat} (h : n ≤ m)
    (out : Array UInt8) :
    Extends (readSymbols literals distances n out) (readSymbols literals distances m out) := by
  -- The fuel is no part of the input: more of it does no harm either.
  induction n generalizing m out with
  | zero => exact .throw .corrupt _
  | succ n ih =>
    obtain ⟨m, rfl⟩ := Nat.exists_eq_add_of_le' h
    have hlater := fun out => ih (m := m + n) (Nat.le_add_left n m) out
    refine (extends_read literals).bind fun symbol => .ite (hlater _) (.ite (.pure out) ?_)
    refine (extends_extended lengthTable _).bind fun length => ?_
    refine (extends_read distances).bind fun symbol => ?_
    exact (extends_extended distanceTable symbol).bind fun distance => hlater _

theorem extends_readStored (out : Array UInt8) : Extends (readStored out) (readStored out) := by
  rintro ⟨current, left, rest⟩ a t h more
  rcases rest with _ | ⟨a, _ | ⟨b, _ | ⟨c, _ | ⟨d, rest⟩⟩⟩⟩
  · cases h
  · cases h
  · cases h
  · cases h
  · have hlonger : rest.length ≤ (rest ++ more).length := by
      rw [List.length_append]
      exact Nat.le_add_right _ _
    simp only [readStored] at h
    split at h
    · cases h
    · next hcheck =>
      split at h
      · cases h
      · next hlength =>
        cases h
        have hle : a.toNat + 256 * b.toNat ≤ rest.length := Nat.not_lt.mp hlength
        simp only [readStored, Bits.extend, List.cons_append]
        rw [if_neg hcheck, if_neg (by omega), List.take_append_of_le_length hle,
          List.drop_append_of_le_length hle]

theorem extends_readBlock (out : Array UInt8) : Extends (readBlock out) (readBlock out) := by
  refine (extends_bits 2).bind fun kind => ?_
  split
  · exact extends_readStored out
  · split
    · split
      · next l _ _ d _ => exact .count fun n m h => extends_readSymbols l d (Nat.succ_le_succ h) out
      · exact .throw .corrupt _
    · exact .throw .corrupt _
  · refine extends_readCodes.bind fun codes => ?_
    exact .count fun n m h => extends_readSymbols codes.1 codes.2 (Nat.succ_le_succ h) out
  · exact .throw .corrupt _

theorem extends_readBlocks {n m : Nat} (h : n ≤ m) (out : Array UInt8) :
    Extends (readBlocks n out) (readBlocks m out) := by
  induction n generalizing m out with
  | zero => exact .throw .corrupt _
  | succ n ih =>
    obtain ⟨m, rfl⟩ := Nat.exists_eq_add_of_le' h
    refine extends_bit.bind fun final => (extends_readBlock out).bind fun out => ?_
    exact .ite (.pure out) (ih (Nat.le_add_left n m) out)

/-- A stream is inflated alike whatever follows it. -/
theorem inflate_append {bs content rest : Bytes} (h : inflate bs = .ok (content, rest))
    (more : Bytes) : inflate (bs ++ more) = .ok (content, rest ++ more) := by
  have hfuel : 8 * bs.length + 1 ≤ 8 * (bs ++ more).length + 1 := by
    rw [List.length_append]
    omega
  unfold inflate at h ⊢
  cases hread : readBlocks (8 * bs.length + 1) #[] { rest := bs } with
  | error fault =>
    rw [hread] at h
    cases h
  | ok p =>
    obtain ⟨out, s⟩ := p
    have hmore := extends_readBlocks hfuel #[] _ _ _ hread more
    rw [hread] at h
    cases h
    rw [Bits.extend] at hmore
    rw [hmore]
    rfl

end Blocks

end Buildbox.Inflate
