/-! Lists as this library uses them: the actions of a run, what lasts to its end, states of which
one is changed, and paths above one another. And steps one after another that may fail. -/

namespace Buildbox

section Runs

variable {σ γ : Type} {act : σ → γ → σ} {p : σ → Prop} {s : σ} {actions : List γ}

theorem exists_turn (hbefore : ¬ p s) (hafter : p (actions.foldl act s)) :
    ∃ before action after, actions = before ++ action :: after ∧
      ¬ p (before.foldl act s) ∧ p (act (before.foldl act s) action) := by
  induction actions generalizing s with
  | nil => exact absurd hafter hbefore
  | cons action rest ih =>
    by_cases hnow : p (act s action)
    · exact ⟨[], action, rest, rfl, hbefore, hnow⟩
    · obtain ⟨before, later, after, rfl, hturn⟩ := ih hnow hafter
      exact ⟨action :: before, later, after, rfl, hturn⟩

end Runs

section Lasting

variable {σ γ : Type} {act : σ → γ → σ} {p : σ → Prop} {sets ends : γ → Prop} {s : σ}
  {actions : List γ}

theorem foldl_iff_last (hact : ∀ s a, p (act s a) ↔ sets a ∨ ¬ ends a ∧ p s) :
    p (actions.foldl act s) ↔
      (∃ before action after, actions = before ++ action :: after ∧ sets action ∧
        ∀ a ∈ after, ¬ ends a) ∨ p s ∧ ∀ a ∈ actions, ¬ ends a := by
  induction actions generalizing s with
  | nil => simp
  | cons first rest ih =>
    rw [List.foldl_cons, ih, hact, List.forall_mem_cons]
    constructor
    · rintro (⟨before, action, after, rfl, hsets, hafter⟩ | ⟨hsets | ⟨hends, hp⟩, hrest⟩)
      · exact .inl ⟨first :: before, action, after, rfl, hsets, hafter⟩
      · exact .inl ⟨[], first, rest, rfl, hsets, hrest⟩
      · exact .inr ⟨hp, hends, hrest⟩
    · rintro (⟨before, action, after, heq, hsets, hafter⟩ | ⟨hp, hends, hrest⟩)
      · cases before with
        | nil =>
          obtain ⟨rfl, rfl⟩ := List.cons.inj heq
          exact .inr ⟨.inl hsets, hafter⟩
        | cons head before =>
          obtain ⟨rfl, rfl⟩ := List.cons.inj heq
          exact .inl ⟨before, action, after, rfl, hsets, hafter⟩
      · exact .inr ⟨.inr ⟨hends, hp⟩, hrest⟩

end Lasting

section Changes

variable {γ : Type} {l : List γ} {i : Nat} {a : γ}

theorem countP_set_toNat (ha : l[i]? = some a) (p : γ → Bool) (b : γ) :
    (l.set i b).countP p + (p a).toNat = l.countP p + (p b).toNat := by
  obtain ⟨hi, rfl⟩ := List.getElem?_eq_some_iff.mp ha
  have hle := List.boole_getElem_le_countP (p := p) hi
  have htoNat (c : Bool) : c.toNat = if c then 1 else 0 := by cases c <;> rfl
  rw [List.countP_set hi, htoNat, htoNat]
  omega

theorem map_set_of_eq {δ : Type} (ha : l[i]? = some a) (f : γ → δ) {b : γ} (hb : f b = f a) :
    (l.set i b).map f = l.map f := by
  obtain ⟨hi, rfl⟩ := List.getElem?_eq_some_iff.mp ha
  rw [List.map_set, hb, ← List.getElem_map f, List.set_getElem_self]
  simpa using hi

end Changes

section Prefixes

variable {γ : Type} {p q : List γ}

theorem prefix_dropLast_iff (hp : p ≠ []) : q <+: p.dropLast ↔ q <+: p ∧ q ≠ p := by
  obtain ⟨ps, n, hps⟩ := p.eq_nil_or_concat.resolve_left hp
  rw [List.concat_eq_append] at hps
  rw [hps, List.dropLast_concat, List.prefix_concat_iff]
  constructor
  · intro hq
    refine ⟨.inr hq, fun heq => ?_⟩
    have hlen : q.length ≤ ps.length := hq.length_le
    rw [heq, List.length_append, List.length_singleton] at hlen
    exact absurd hlen (Nat.not_succ_le_self _)
  · rintro ⟨rfl | hq, hne⟩
    · exact absurd rfl hne
    · exact hq

end Prefixes

section Steps

theorem ok_of_bind {ε α γ : Type} {x : Except ε α} {k : α → Except ε γ} {c : γ}
    (h : (x >>= k) = .ok c) : ∃ a, x = .ok a ∧ k a = .ok c := by
  cases x with
  | error e => cases h
  | ok a => exact ⟨a, rfl, h⟩

end Steps

end Buildbox
