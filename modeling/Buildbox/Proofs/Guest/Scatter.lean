import Buildbox.Guest.Memory

/-! Writing to guest memory fails only where something would not lie in it, and spreading data over
buffers only at a buffer that has to take some of it. -/

namespace Buildbox

namespace GuestMemory

variable {m m' : GuestMemory} {p : Address} {data : Bytes} {e : Errno} {v : IoVec} {vs : List IoVec}

theorem write_eq_error :
    m.write p data = .error e ↔ m.size < p.toNat + data.length ∧ e = .fault := by
  unfold write check
  by_cases hp : p.toNat + data.length ≤ m.size
  · simp [hp, bind, Except.bind, pure, Except.pure, Nat.not_lt.mpr hp]
  · simp [hp, bind, Except.bind, Nat.lt_of_not_le hp, eq_comm]

theorem size_write (h : m.write p data = .ok m') : m'.size = m.size := by
  have hp : p.toNat + data.length ≤ m.size := by
    refine Nat.le_of_not_lt fun hlt => ?_
    rw [write_eq_error.mpr ⟨hlt, rfl⟩] at h
    cases h
  have hlen := congrArg List.length (contents_write h)
  simp only [length_contents, List.length_append, List.length_take, List.length_drop] at hlen
  omega

theorem totalCapacity_cons (v : IoVec) (vs : List IoVec) :
    totalCapacity (v :: vs) = v.length.toNat + totalCapacity vs := by
  have hfrom (n : Nat) : vs.foldl (fun n v => n + v.length.toNat) n = n + totalCapacity vs := by
    induction vs generalizing n with
    | nil => rfl
    | cons w vs ih =>
      have hw : totalCapacity (w :: vs) = 0 + w.length.toNat + totalCapacity vs := ih _
      rw [List.foldl_cons, ih, hw]
      omega
  have hv : totalCapacity (v :: vs) = 0 + v.length.toNat + totalCapacity vs := hfrom _
  rw [hv, Nat.zero_add]

theorem capacity_eq_ok {array : Address} {count : UInt32} {n : Nat} :
    m.capacity array count = .ok n ↔
      ∃ vs, m.iovecs array count = .ok vs ∧ totalCapacity vs = n := by
  unfold capacity
  cases m.iovecs array count <;> simp [bind, Except.bind, pure, Except.pure]

def Overruns (m : GuestMemory) (n : Nat) (vs : List IoVec) : Prop :=
  ∃ earlier v later, vs = earlier ++ v :: later ∧ totalCapacity earlier < n ∧
    m.size < v.pointer.toNat + min v.length.toNat (n - totalCapacity earlier)

theorem not_overruns_nil {n : Nat} : ¬ m.Overruns n [] := by
  rintro ⟨earlier, v, later, heq, -⟩
  simp at heq

theorem overruns_cons {n : Nat} :
    m.Overruns n (v :: vs) ↔
      (0 < n ∧ m.size < v.pointer.toNat + min v.length.toNat n) ∨
        m.Overruns (n - v.length.toNat) vs := by
  constructor
  · rintro ⟨earlier, w, later, heq, hlt, hout⟩
    cases earlier with
    | nil =>
      cases heq
      exact .inl ⟨hlt, hout⟩
    | cons _ earlier =>
      cases heq
      rw [totalCapacity_cons] at hlt hout
      rw [Nat.sub_add_eq] at hout
      exact .inr ⟨earlier, w, later, rfl, by omega, hout⟩
  · rintro (⟨hlt, hout⟩ | ⟨earlier, w, later, rfl, hlt, hout⟩)
    · exact ⟨[], v, vs, rfl, hlt, hout⟩
    · refine ⟨v :: earlier, w, later, rfl, ?_, ?_⟩
      · rw [totalCapacity_cons]
        omega
      · rwa [totalCapacity_cons, Nat.sub_add_eq]

theorem scatterAll_spec (m : GuestMemory) (data : Bytes) (vs : List IoVec) :
    (m.scatterAll data vs).2.size = m.size ∧
      ∀ e, (m.scatterAll data vs).1 = .error e ↔ m.Overruns data.length vs ∧ e = .fault := by
  induction vs generalizing m data with
  | nil =>
    refine ⟨rfl, fun e => iff_of_false ?_ fun h => not_overruns_nil h.1⟩
    intro herr
    cases herr
  | cons v vs ih =>
    unfold scatterAll
    by_cases hdata : data = []
    · rw [if_pos hdata]
      refine ⟨rfl, fun e => iff_of_false ?_ fun ⟨⟨earlier, _, _, _, hlt, _⟩, _⟩ => ?_⟩
      · intro herr
        cases herr
      · rw [hdata] at hlt
        exact Nat.not_lt_zero _ hlt
    · rw [if_neg hdata]
      dsimp only
      have hpos : 0 < data.length := List.length_pos_iff.mpr hdata
      have hnow : (data.take v.length.toNat).length = min v.length.toNat data.length :=
        List.length_take
      cases hw : m.write v.pointer (data.take v.length.toNat) with
      | error e =>
        obtain ⟨hout, rfl⟩ := write_eq_error.mp hw
        rw [hnow] at hout
        refine ⟨rfl, fun e => ?_⟩
        rw [overruns_cons]
        simp [hpos, hout, eq_comm]
      | ok m₁ =>
        have hin : ¬ m.size < v.pointer.toNat + min v.length.toNat data.length := by
          intro hlt
          rw [← hnow] at hlt
          rw [write_eq_error.mpr ⟨hlt, rfl⟩] at hw
          cases hw
        have hsize : m₁.size = m.size := size_write hw
        have hrest := ih m₁ (data.drop v.length.toNat)
        rw [hsize, List.length_drop] at hrest
        have hsame : m₁.Overruns (data.length - v.length.toNat) vs ↔
            m.Overruns data.length (v :: vs) := by
          rw [overruns_cons, or_iff_right fun h => hin h.2]
          unfold Overruns
          rw [hsize]
        rw [hsame] at hrest
        dsimp only
        cases hs : m₁.scatterAll (data.drop v.length.toNat) vs with
        | mk answer m₂ =>
          rw [hs] at hrest
          cases answer with
          | error e => exact hrest
          | ok n =>
            refine ⟨hrest.1, fun e => ?_⟩
            rw [← hrest.2 e]
            simp

end GuestMemory

end Buildbox
