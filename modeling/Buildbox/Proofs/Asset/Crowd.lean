import Buildbox.Asset.Crowd

/-! However many callers there are and in whatever order they go on, the value of a key is made by
one of them at a time, and it is made once. -/

namespace Buildbox

namespace OnceMap

variable {κ α : Type} {c : OnceMap κ α} {key other : κ} {a b : α}

theorem mem_filling_start : other ∈ (c.start key).filling ↔ other = key ∨ other ∈ c.filling :=
  List.mem_cons

variable [DecidableEq κ]

@[simp] theorem get?_abandon : (c.abandon key).get? other = c.get? other := rfl

theorem mem_filling_abandon :
    other ∈ (c.abandon key).filling ↔ other ∈ c.filling ∧ other ≠ key := by
  simp [abandon]

theorem exists_getElem?_of_get? (ha : c.get? key = some a) :
    ∃ n : Nat, c.filled[n]? = some (key, a) := by
  obtain ⟨⟨k, b⟩, hp, rfl⟩ := Option.map_eq_some_iff.mp ha
  obtain rfl : k = key := by simpa using List.find?_some hp
  exact List.mem_iff_getElem?.mp (List.mem_of_find?_eq_some hp)

theorem get?_fill_of_some (ha : c.get? key = some a) :
    (c.fill other b).get? key = some a := by
  obtain ⟨p, hp, rfl⟩ := Option.map_eq_some_iff.mp ha
  rw [get?, fill, List.find?_append, hp]
  rfl

theorem get?_fill_of_ne (h : other ≠ key) : (c.fill other b).get? key = c.get? key := by
  have hlast : List.find? (fun p : κ × α => p.1 = key) [(other, b)] = none := by simp [h]
  rw [get?, fill, List.find?_append, hlast, Option.or_none]
  rfl

theorem get?_fill_self (hn : c.get? key = none) : (c.fill key b).get? key = some b := by
  have hnone : c.filled.find? (·.1 = key) = none := Option.map_eq_none_iff.mp hn
  rw [get?, fill, List.find?_append, hnone]
  simp

end OnceMap

section Strides

variable {σ κ α : Type} {r : Recipe σ κ α} {key : κ} {bytes : Bytes}

def Recipe.Gives (r : Recipe σ κ α) (key : κ) (bytes : Bytes) : Prop :=
  ∃ before after, r.fetch key before = .ok bytes after

variable [DecidableEq κ]

/-- What a caller for a key may do to the map in one step, whether it goes on or goes away. -/
inductive Stride (r : Recipe σ κ α) (key : κ) (c : OnceMap κ α) :
    Errand α → Errand α → OnceMap κ α → Prop where
  | stay {e : Errand α} : Stride r key c e e c
  | take {a : α} (ha : c.get? key = some a) : Stride r key c .waiting (.ended (.ok a)) c
  | claim (hn : c.get? key = none) (hf : key ∉ c.filling) :
    Stride r key c .waiting .fetching (c.start key)
  | fetch {bytes : Bytes} (hg : r.Gives key bytes) :
    Stride r key c .fetching (.fetched bytes) c
  | fill {bytes : Bytes} {a : α} (ha : r.make c.size key bytes = .ok a) :
    Stride r key c (.fetched bytes) (.ended (.ok a)) (c.fill key a)
  | fail {e : Errand α} {f : Failure} (he : e.holds) :
    Stride r key c e (.ended (.error f)) (c.abandon key)
  | quit {e : Errand α} (he : e.holds) : Stride r key c e .dropped (c.abandon key)
  | turn {e : Errand α} (he : e.holds = false) (hn : ∀ answer, e ≠ .ended answer) :
    Stride r key c e .dropped c

variable {e e' : Errand α} {c c' : OnceMap κ α} {world world' : σ} {other : κ}

theorem stride_step (hs : r.step key e c world = (e', c', world')) :
    Stride r key c e e' c' := by
  unfold Recipe.step at hs
  cases e with
  | waiting =>
    cases ha : c.get? key with
    | some a =>
      simp only [ha] at hs
      cases hs
      exact .take ha
    | none =>
      by_cases hf : key ∈ c.filling
      · simp only [ha, if_pos hf] at hs
        cases hs
        exact .stay
      · simp only [ha, if_neg hf] at hs
        cases hs
        exact .claim ha hf
  | fetching =>
    cases hb : r.fetch key world with
    | ok =>
      simp only [hb] at hs
      cases hs
      exact .fetch ⟨world, world', hb⟩
    | error f =>
      simp only [hb] at hs
      cases hs
      exact .fail rfl
  | fetched bytes =>
    cases ha : r.make c.size key bytes with
    | ok a =>
      simp only [ha] at hs
      cases hs
      exact .fill ha
    | error f =>
      simp only [ha] at hs
      cases hs
      exact .fail rfl
  | ended | dropped =>
    cases hs
    exact .stay

theorem stride_leave (hs : e.leave key c = (e', c')) : Stride r key c e e' c' := by
  unfold Errand.leave at hs
  cases e with
  | ended =>
    cases hs
    exact .stay
  | waiting | dropped =>
    cases hs
    exact .turn rfl nofun
  | fetching | fetched =>
    cases hs
    exact .quit rfl

namespace Stride

theorem keeps (hs : Stride r key c e e' c') {a : α} (ha : c.get? other = some a) :
    c'.get? other = some a := by
  cases hs with
  | fill => exact OnceMap.get?_fill_of_some ha
  | _ => exact ha

theorem apart (hs : Stride r key c e e' c') (hne : key ≠ other) :
    c'.get? other = c.get? other ∧ (other ∈ c'.filling ↔ other ∈ c.filling) := by
  have habandon : other ∈ (c.abandon key).filling ↔ other ∈ c.filling :=
    OnceMap.mem_filling_abandon.trans (and_iff_left (Ne.symm hne))
  cases hs with
  | stay | take | fetch | turn => exact ⟨rfl, Iff.rfl⟩
  | claim => exact ⟨rfl, OnceMap.mem_filling_start.trans (or_iff_right (Ne.symm hne))⟩
  | fill => exact ⟨OnceMap.get?_fill_of_ne hne, habandon⟩
  | fail | quit => exact ⟨rfl, habandon⟩

theorem balance (hs : Stride r key c e e' c') (hf : e.holds → key ∈ c.filling) :
    (if e'.holds then 1 else 0) + (if key ∈ c.filling then 1 else 0) =
      (if e.holds then 1 else 0) + (if key ∈ c'.filling then 1 else 0) := by
  have habandon : key ∉ (c.abandon key).filling := fun h =>
    (OnceMap.mem_filling_abandon.mp h).2 rfl
  cases hs with
  | stay => rfl
  | take | fetch => rfl
  | claim _ hn => simp [Errand.holds, hn, OnceMap.mem_filling_start]
  | fill => simpa [Errand.holds, OnceMap.fill, habandon] using hf rfl
  | fail he | quit he =>
    rw [if_pos he, if_pos (hf he), if_neg habandon]
    rfl
  | turn he =>
    rw [he]
    rfl

theorem ended {answer : Except Failure α} (hs : Stride r key c (.ended answer) e' c') :
    e' = .ended answer := by
  cases hs with
  | stay => rfl
  | fail he | quit he => exact absurd he nofun
  | turn _ hn => exact absurd rfl (hn answer)

theorem failed {f : Failure} (hs : Stride r key c e (.ended (.error f)) c')
    (hne : e ≠ .ended (.error f)) : e.holds ∧ c' = c.abandon key := by
  cases hs with
  | stay => exact absurd rfl hne
  | fail he => exact ⟨he, rfl⟩

theorem filled {a : α} (hs : Stride r key c e e' c') (hn : c.get? other = none)
    (ha : c'.get? other = some a) : key = other ∧ e' = .ended (.ok a) := by
  by_cases hne : key = other
  · subst hne
    refine ⟨rfl, ?_⟩
    cases hs with
    | fill =>
      rw [OnceMap.get?_fill_self hn] at ha
      cases ha
      rfl
    | stay | take | claim | fetch | fail | quit | turn => exact absurd (hn.symm.trans ha) nofun
  · rw [(hs.apart hne).1, hn] at ha
    cases ha

end Stride

theorem get?_leave : (e.leave key c).2.get? other = c.get? other := by
  unfold Errand.leave
  split
  · rfl
  · split <;> rfl

theorem leave_of_holds (he : e.holds) : e.leave key c = (.dropped, c.abandon key) := by
  unfold Errand.leave
  split
  · cases he
  · rw [if_pos he]

end Strides

namespace Crowd

variable {σ κ α : Type} [DecidableEq κ]

def held (c : Crowd σ κ α) (key : κ) : Nat :=
  c.callers.countP fun p => p.key = key ∧ p.errand.holds

/-- A key has a holder while it is being filled, and then has no value yet. Whoever ended well got
the value that is there, and every value that is there was made by somebody who ended with it. -/
structure Orderly (r : Nat → Recipe σ κ α) (c : Crowd σ κ α) : Prop where
  held : ∀ key, c.held key = if key ∈ c.cache.filling then 1 else 0
  vacant : ∀ key ∈ c.cache.filling, c.cache.get? key = none
  given : ∀ p ∈ c.callers, ∀ bytes, p.errand = .fetched bytes → (r p.store).Gives p.key bytes
  shared : ∀ p ∈ c.callers, ∀ a, p.errand = .ended (.ok a) → c.cache.get? p.key = some a
  made : ∀ n key a, c.cache.filled[n]? = some (key, a) → ∃ p ∈ c.callers, p.key = key ∧
    p.errand = .ended (.ok a) ∧ ∃ bytes, (r p.store).Gives key bytes ∧
      (r p.store).make n key bytes = .ok a

variable {r : Nat → Recipe σ κ α} {c : Crowd σ κ α} {i : Nat} {p : Caller κ α} {e : Errand α}
  {cache : OnceMap κ α} {key : κ}

theorem orderly_start (world : σ) : (start world : Crowd σ κ α).Orderly r where
  held _ := rfl
  vacant _ hk := absurd hk List.not_mem_nil
  given _ hp := absurd hp List.not_mem_nil
  shared _ hp := absurd hp List.not_mem_nil
  made _ _ _ hn := by simp [start] at hn

theorem Orderly.mem_filling (ho : c.Orderly r) (hp : p ∈ c.callers) (he : p.errand.holds) :
    p.key ∈ c.cache.filling := by
  have hpos : 0 < c.held p.key := List.countP_pos_iff.mpr ⟨p, hp, by simp [he]⟩
  by_cases hf : p.key ∈ c.cache.filling
  · exact hf
  · rw [ho.held, if_neg hf] at hpos
    exact absurd hpos (Nat.lt_irrefl 0)

theorem go_of_step {world : σ} (hp : c.callers[i]? = some p)
    (hs : (r p.store).step p.key p.errand c.cache c.world = (e, cache, world)) :
    c.go r i =
      { world, cache, callers := c.callers.set i { p with errand := e },
        asked := if p.errand.asks then c.asked ++ [p.key] else c.asked } := by
  simp only [go, hp, hs]

theorem go_eq (hp : c.callers[i]? = some p) : ∃ world e cache,
    Stride (r p.store) p.key c.cache p.errand e cache ∧ c.go r i =
      { world, cache, callers := c.callers.set i { p with errand := e },
        asked := if p.errand.asks then c.asked ++ [p.key] else c.asked } := by
  rcases hs : (r p.store).step p.key p.errand c.cache c.world with ⟨e, cache, world⟩
  exact ⟨world, e, cache, stride_step hs, go_of_step hp hs⟩

theorem asked_go (hp : c.callers[i]? = some p) :
    (c.go r i).asked = if p.errand.asks then c.asked ++ [p.key] else c.asked := by
  simp only [go, hp]

theorem drop_eq (hp : c.callers[i]? = some p) : ∃ e cache,
    Stride (r p.store) p.key c.cache p.errand e cache ∧ c.drop i =
      { c with cache, callers := c.callers.set i { p with errand := e } } := by
  rcases hs : p.errand.leave p.key c.cache with ⟨e, cache⟩
  exact ⟨e, cache, stride_leave hs, by simp only [drop, hp, hs]⟩

theorem held_set (hp : c.callers[i]? = some p) (key : κ) :
    (c.callers.set i { p with errand := e }).countP (fun q => q.key = key ∧ q.errand.holds) +
        (if p.key = key ∧ p.errand.holds then 1 else 0) =
      c.held key + (if p.key = key ∧ e.holds then 1 else 0) := by
  obtain ⟨hi, rfl⟩ := List.getElem?_eq_some_iff.mp hp
  have hle := List.boole_getElem_le_countP (p := fun q => q.key = key ∧ q.errand.holds) hi
  rw [List.countP_set hi, held]
  simp only [decide_eq_true_eq] at hle ⊢
  omega

theorem mem_set_of_ended {q : Caller κ α} {answer : Except Failure α}
    (hp : c.callers[i]? = some p) (hs : Stride (r p.store) p.key c.cache p.errand e cache)
    (hq : q ∈ c.callers) (he : q.errand = .ended answer) :
    q ∈ c.callers.set i { p with errand := e } := by
  obtain ⟨hi, rfl⟩ := List.getElem?_eq_some_iff.mp hp
  obtain ⟨j, hj, rfl⟩ := List.mem_iff_getElem.mp hq
  by_cases hij : i = j
  · subst hij
    rw [he] at hs
    rw [hs.ended, ← he]
    exact List.mem_set hj _
  · exact List.mem_iff_getElem.mpr ⟨j, by simpa using hj, List.getElem_set_ne hij _⟩

theorem orderly_stride (ho : c.Orderly r) (hp : c.callers[i]? = some p)
    (hs : Stride (r p.store) p.key c.cache p.errand e cache) (world : σ) (asked : List κ) :
    Orderly r
      { world, cache, callers := c.callers.set i { p with errand := e }, asked } where
  held key := by
    have hmem := List.mem_of_getElem? hp
    have hset := held_set (e := e) hp key
    have hbalance := hs.balance (ho.mem_filling hmem)
    rw [ho.held] at hset
    by_cases hk : p.key = key
    · subst hk
      simp only [true_and, held] at hset ⊢
      omega
    · have hapart := (hs.apart hk).2
      simp only [hk, false_and, if_false, Nat.add_zero] at hset
      simpa only [held, hapart] using hset
  vacant key hk := by
    by_cases hne : p.key = key
    · subst hne
      generalize p.errand = was at hs
      cases hs with
      | stay | take | fetch | turn => exact ho.vacant _ hk
      | claim hn => exact hn
      | fill | fail | quit => exact absurd rfl (OnceMap.mem_filling_abandon.mp hk).2
    · obtain ⟨hget, hmem⟩ := hs.apart hne
      exact hget.trans (ho.vacant key (hmem.mp hk))
  given q hq bytes he := by
    obtain hq | rfl := List.mem_or_eq_of_mem_set hq
    · exact ho.given q hq bytes he
    · subst he
      have hmem := List.mem_of_getElem? hp
      generalize he : p.errand = e at hs
      cases hs with
      | stay => exact ho.given p hmem bytes he
      | fetch hg => exact hg
  shared q hq a he := by
    obtain hq | rfl := List.mem_or_eq_of_mem_set hq
    · exact hs.keeps (ho.shared q hq a he)
    · subst he
      have hmem := List.mem_of_getElem? hp
      have hholds := ho.mem_filling hmem
      generalize he : p.errand = e at hs hholds
      cases hs with
      | stay => exact ho.shared p hmem a he
      | take ha => exact ha
      | fill => exact OnceMap.get?_fill_self (ho.vacant _ (hholds rfl))
  made n key a hn := by
    have hmem := List.mem_of_getElem? hp
    have hold (hn : c.cache.filled[n]? = some (key, a)) :
        ∃ q ∈ c.callers.set i { p with errand := e }, q.key = key ∧ q.errand = .ended (.ok a) ∧
          ∃ bytes, (r q.store).Gives key bytes ∧ (r q.store).make n key bytes = .ok a := by
      obtain ⟨q, hq, hkey, hend, hmade⟩ := ho.made n key a hn
      exact ⟨q, mem_set_of_ended hp hs hq hend, hkey, hend, hmade⟩
    generalize he : p.errand = was at hs
    cases hs with
    | fill ha =>
      obtain hlt | rfl | hgt := Nat.lt_trichotomy n c.cache.filled.length
      · rw [OnceMap.fill, List.getElem?_append_left hlt] at hn
        exact hold hn
      · rw [OnceMap.fill, List.getElem?_concat_length] at hn
        cases hn
        have hi := (List.getElem?_eq_some_iff.mp hp).1
        exact ⟨_, List.mem_set hi _, rfl, rfl, _, ho.given p hmem _ he, ha⟩
      · rw [OnceMap.fill, List.getElem?_eq_none (by simp; omega)] at hn
        cases hn
    | stay | take | claim | fetch | fail | quit | turn => exact hold hn

theorem orderly_call (ho : c.Orderly r) (store : Nat) (key : κ) :
    (c.call store key).Orderly r where
  held other := by
    have happend : (c.call store key).held other = c.held other := by
      simp [Crowd.held, call, Errand.holds]
    rw [happend, ho.held]
    rfl
  vacant := ho.vacant
  given q hq bytes he := by
    obtain hq | rfl := List.mem_append.mp hq |>.imp_right List.mem_singleton.mp
    · exact ho.given q hq bytes he
    · cases he
  shared q hq a he := by
    obtain hq | rfl := List.mem_append.mp hq |>.imp_right List.mem_singleton.mp
    · exact ho.shared q hq a he
    · cases he
  made n other a hn := by
    obtain ⟨q, hq, hmade⟩ := ho.made n other a hn
    exact ⟨q, List.mem_append_left _ hq, hmade⟩

theorem orderly_act (ho : c.Orderly r) (x : Action σ κ) : (c.act r x).Orderly r := by
  cases x with
  | call store key => exact orderly_call ho store key
  | go i =>
    cases hp : c.callers[i]? with
    | none => simpa only [act, go, hp] using ho
    | some p =>
      obtain ⟨world, e, cache, hs, hgo⟩ := go_eq (r := r) hp
      rw [act, hgo]
      exact orderly_stride ho hp hs _ _
  | drop i =>
    cases hp : c.callers[i]? with
    | none => simpa only [act, drop, hp] using ho
    | some p =>
      obtain ⟨e, cache, hs, hdrop⟩ := drop_eq (r := r) hp
      rw [act, hdrop]
      exact orderly_stride ho hp hs _ _
  | change f =>
    obtain ⟨held, vacant, given, shared, made⟩ := ho
    exact ⟨held, vacant, given, shared, made⟩

theorem orderly_actAll (ho : c.Orderly r) (actions : List (Action σ κ)) :
    (c.actAll r actions).Orderly r := by
  induction actions generalizing c with
  | nil => exact ho
  | cons x rest ih => exact ih (orderly_act ho x)

end Crowd

end Buildbox
