import Buildbox.Asset.Toolchain
import Buildbox.Proofs.Asset.Crowd

/-! What callers of stores can rely on: a value that was made once is what everybody gets from then
on, and a failure leaves nothing behind. -/

namespace Buildbox

namespace Crowd

variable {σ κ α : Type} [DecidableEq κ]

/-- The key is as free as if nobody had tried it: it has no value, and whoever waits for it goes on
to ask a source anew. -/
structure Reopened (r : Nat → Recipe σ κ α) (c d : Crowd σ κ α) (key : κ) : Prop where
  vacant : d.cache.get? key = none
  size : d.cache.size = c.cache.size
  retried : ∀ j q, d.callers[j]? = some q → q.key = key → q.errand = .waiting →
    (d.act r (.go j)).callers[j]? = some { q with errand := .fetching } ∧
      ((d.act r (.go j)).act r (.go j)).asked = d.asked ++ [key]

structure Apart (c d : Crowd σ κ α) (i : Nat) (key : κ) : Prop where
  value : d.cache.get? key = c.cache.get? key
  filling : key ∈ d.cache.filling ↔ key ∈ c.cache.filling
  asked : d.asked.count key = c.asked.count key
  callers : ∀ j ≠ i, d.callers[j]? = c.callers[j]?

structure PopulatedOnce (r : Nat → Recipe σ κ α) (c : Crowd σ κ α) : Prop where
  alone : ∀ key, c.held key ≤ 1
  shared : ∀ p ∈ c.callers, ∀ a, p.errand = .ended (.ok a) → c.cache.get? p.key = some a
  /-- The value was made, out of what a source gave for its key, by a caller who ended with it. -/
  made : ∀ n key a, c.cache.filled[n]? = some (key, a) → ∃ p ∈ c.callers, p.key = key ∧
    p.errand = .ended (.ok a) ∧ ∃ bytes, (r p.store).Gives key bytes ∧
      (r p.store).make n key bytes = .ok a
  /-- That caller was the first to end well with the key. -/
  first : ∀ x key a, c.cache.get? key = none → (c.act r x).cache.get? key = some a →
    (∀ p ∈ c.callers, p.key = key → ∀ b, p.errand ≠ .ended (.ok b)) ∧
      ∃ i p, x = .go i ∧ c.callers[i]? = some p ∧ p.key = key ∧
        (c.act r x).callers[i]? = some { p with errand := .ended (.ok a) }
  settled : ∀ key a, c.cache.get? key = some a → ∀ actions,
    (c.actAll r actions).cache.get? key = some a ∧
      (c.actAll r actions).asked.count key = c.asked.count key
  served : ∀ i p a, c.callers[i]? = some p → p.errand = .waiting → c.cache.get? p.key = some a →
    (c.act r (.go i)).callers[i]? = some { p with errand := .ended (.ok a) }
  failed : ∀ i p f, c.callers[i]? = some p → p.errand ≠ .ended (.error f) →
    (c.act r (.go i)).callers[i]? = some { p with errand := .ended (.error f) } →
      Reopened r c (c.act r (.go i)) p.key
  left : ∀ i p, c.callers[i]? = some p → p.errand.holds →
    Reopened r c (c.act r (.drop i)) p.key
  apart : ∀ i p key, c.callers[i]? = some p → p.key ≠ key →
    Apart c (c.act r (.go i)) i key ∧ Apart c (c.act r (.drop i)) i key

variable {r : Nat → Recipe σ κ α} {c : Crowd σ κ α} {i : Nat} {p : Caller κ α} {e : Errand α}
  {cache : OnceMap κ α} {key : κ} {a : α} {world : σ} {asked : List κ}

theorem Orderly.get?_of_asks (ho : c.Orderly r) (hp : p ∈ c.callers) (he : p.errand.asks) :
    c.cache.get? p.key = none := by
  have hholds : p.errand.holds := by
    unfold Errand.asks at he
    split at he
    · rename_i h
      rw [h]
      rfl
    · cases he
  exact ho.vacant _ (ho.mem_filling hp hholds)

omit [DecidableEq κ] in
theorem getElem?_set_caller {q : Caller κ α} (hp : c.callers[i]? = some p) :
    (c.callers.set i q)[i]? = some q :=
  List.getElem?_set_self (List.getElem?_eq_some_iff.mp hp).1

theorem settled_act (ho : c.Orderly r) (ha : c.cache.get? key = some a) (x : Action σ κ) :
    (c.act r x).cache.get? key = some a ∧
      (c.act r x).asked.count key = c.asked.count key := by
  cases x with
  | call | change => exact ⟨ha, rfl⟩
  | go i =>
    cases hp : c.callers[i]? with
    | none => simp only [act, go, hp, ha, and_self]
    | some p =>
      obtain ⟨world, e, cache, hs, hgo⟩ := go_eq (r := r) hp
      rw [act, hgo]
      refine ⟨hs.keeps ha, ?_⟩
      by_cases hasks : p.errand.asks
      · have hnone := ho.get?_of_asks (List.mem_of_getElem? hp) hasks
        have hne : p.key ≠ key := fun h => by simp [← h, hnone] at ha
        simp [hasks, List.count_append, hne]
      · simp [hasks]
  | drop i =>
    cases hp : c.callers[i]? with
    | none => simp only [act, drop, hp, ha, and_self]
    | some p =>
      obtain ⟨e, cache, hs, hdrop⟩ := drop_eq (r := r) hp
      rw [act, hdrop]
      exact ⟨hs.keeps ha, rfl⟩

theorem settled_actAll (ho : c.Orderly r) (ha : c.cache.get? key = some a)
    (actions : List (Action σ κ)) :
    (c.actAll r actions).cache.get? key = some a ∧
      (c.actAll r actions).asked.count key = c.asked.count key := by
  induction actions generalizing c with
  | nil => exact ⟨ha, rfl⟩
  | cons x rest ih =>
    obtain ⟨hget, hcount⟩ := settled_act ho ha x
    obtain ⟨hgets, hcounts⟩ := ih (orderly_act ho x) hget
    exact ⟨hgets, hcounts.trans hcount⟩

theorem reopened_abandon (ho : c.Orderly r) (hp : p ∈ c.callers) (he : p.errand.holds) (world : σ)
    (callers : List (Caller κ α)) (asked : List κ) :
    Reopened r c { world, cache := c.cache.abandon p.key, callers, asked } p.key where
  vacant := ho.vacant _ (ho.mem_filling hp he)
  size := rfl
  retried j q hq hkey hwait := by
    have hvacant := ho.vacant _ (ho.mem_filling hp he)
    have hfree : p.key ∉ (c.cache.abandon p.key).filling := fun h =>
      (OnceMap.mem_filling_abandon.mp h).2 rfl
    have hclaim : (r q.store).step q.key q.errand (c.cache.abandon p.key) world =
        (.fetching, (c.cache.abandon p.key).start p.key, world) := by
      simp only [hwait, hkey, Recipe.step, OnceMap.get?_abandon, hvacant, if_neg hfree]
    have hset : (callers.set j { q with errand := .fetching })[j]? =
        some { q with errand := .fetching } :=
      List.getElem?_set_self (List.getElem?_eq_some_iff.mp hq).1
    have hasks : q.errand.asks = false := by
      rw [hwait]
      rfl
    rw [act, go_of_step hq hclaim, hasks]
    refine ⟨hset, ?_⟩
    rw [act, asked_go hset]
    simp [Errand.asks, hkey]

theorem apart_stride (hs : Stride (r p.store) p.key c.cache p.errand e cache) (hne : p.key ≠ key)
    (hasked : asked.count key = c.asked.count key) :
    Apart c { world, cache, callers := c.callers.set i { p with errand := e }, asked } i key where
  value := (hs.apart hne).1
  filling := (hs.apart hne).2
  asked := hasked
  callers _ hj := List.getElem?_set_ne (Ne.symm hj)

theorem answer_of_new {x : Action σ κ} (hn : c.cache.get? key = none)
    (ha : (c.act r x).cache.get? key = some a) :
    ∃ i p, x = .go i ∧ c.callers[i]? = some p ∧ p.key = key ∧
      (c.act r x).callers[i]? = some { p with errand := .ended (.ok a) } := by
  cases x with
  | call | change => exact absurd (hn.symm.trans ha) nofun
  | go i =>
    cases hp : c.callers[i]? with
    | none =>
      simp only [act, go, hp, hn] at ha
      cases ha
    | some p =>
      obtain ⟨world, e, cache, hs, hgo⟩ := go_eq (r := r) hp
      rw [act, hgo] at ha ⊢
      obtain ⟨hkey, rfl⟩ := hs.filled hn ha
      exact ⟨i, p, rfl, hp, hkey, getElem?_set_caller hp⟩
  | drop i =>
    have hkept : (c.drop i).cache.get? key = c.cache.get? key := by
      unfold drop
      split
      · rfl
      · exact get?_leave
    rw [act, hkept, hn] at ha
    cases ha

theorem populatedOnce_of_orderly (ho : c.Orderly r) : c.PopulatedOnce r where
  alone key := by
    rw [ho.held]
    split <;> decide
  shared := ho.shared
  made := ho.made
  first x key a hn ha := by
    refine ⟨?_, answer_of_new hn ha⟩
    rintro p hp rfl b hb
    have hshared := ho.shared p hp b hb
    rw [hn] at hshared
    cases hshared
  settled key a ha actions := settled_actAll ho ha actions
  served i p a hp he ha := by
    simp only [act, go, hp, he, Recipe.step, ha]
    exact getElem?_set_caller hp
  failed i p f hp hne hend := by
    obtain ⟨world, e, cache, hs, hgo⟩ := go_eq (r := r) hp
    rw [act, hgo] at hend ⊢
    rw [getElem?_set_caller hp] at hend
    obtain rfl : e = .ended (.error f) := by simpa using hend
    obtain ⟨hholds, rfl⟩ := hs.failed hne
    exact reopened_abandon ho (List.mem_of_getElem? hp) hholds _ _ _
  left i p hp hholds := by
    simp only [act, drop, hp, leave_of_holds hholds]
    exact reopened_abandon ho (List.mem_of_getElem? hp) hholds _ _ _
  apart i p key hp hne := by
    obtain ⟨world, e, cache, hs, hgo⟩ := go_eq (r := r) hp
    obtain ⟨e', cache', hs', hdrop⟩ := drop_eq (r := r) hp
    rw [act, act, hgo, hdrop]
    refine ⟨apart_stride hs hne ?_, apart_stride hs' hne rfl⟩
    split
    · simp [List.count_append, hne]
    · rfl

end Crowd

theorem SharedRoot.id_of_ofBytes {n : Nat} {key : ArchiveKey} {bytes : Bytes} {a : SharedRoot}
    (h : SharedRoot.ofBytes n key bytes = .ok a) : a.id = n := by
  unfold SharedRoot.ofBytes at h
  cases hd : Archive.decode key.url bytes key.only with
  | error f =>
    rw [hd] at h
    cases h
  | ok root =>
    rw [hd] at h
    cases h
    rfl

theorem ArchiveCache.key_of_id {σ : Type} {fetch : Nat → Fetch σ}
    {c : Crowd σ ArchiveKey SharedRoot} (h : c.PopulatedOnce fun i => recipe (fetch i))
    {key other : ArchiveKey} {a b : SharedRoot} (ha : c.cache.get? key = some a)
    (hb : c.cache.get? other = some b) (hid : a.id = b.id) : key = other := by
  have hplace {key : ArchiveKey} {a : SharedRoot} (ha : c.cache.get? key = some a) :
      c.cache.filled[a.id]? = some (key, a) := by
    obtain ⟨n, hn⟩ := OnceMap.exists_getElem?_of_get? ha
    obtain ⟨p, -, -, -, bytes, -, hmade⟩ := h.made n key a hn
    rwa [SharedRoot.id_of_ofBytes hmade]
  have hsame := hplace ha
  rw [hid, hplace hb] at hsame
  cases hsame
  rfl

/-- However callers of any number of stores and of a toolchain go on, whoever goes away, and
whatever happens to what the sources hold, assets are made once. A caller whom nobody interrupts is
`ArchiveStore.root_alone` or `Toolchain.module_alone`. -/
theorem assets_populated_once {σ : Type} (fetch : Nat → Fetch σ) (world : σ) :
    (∀ actions : List (Crowd.Action σ ArchiveKey),
      let recipe i := ArchiveCache.recipe (fetch i)
      let c := (Crowd.start world).actAll recipe actions
      c.PopulatedOnce recipe ∧
      ∀ key other a b, c.cache.get? key = some a → c.cache.get? other = some b → a.id = b.id →
        key = other) ∧
    ∀ actions : List (Crowd.Action σ String),
      let recipe i := Toolchain.recipe (fetch i)
      ((Crowd.start world).actAll recipe actions).PopulatedOnce recipe := by
  constructor
  · intro actions recipe c
    have horderly := Crowd.orderly_actAll (r := recipe) (Crowd.orderly_start world) actions
    have honce := Crowd.populatedOnce_of_orderly horderly
    exact ⟨honce, fun _ _ _ _ => ArchiveCache.key_of_id honce⟩
  · intro actions recipe
    exact Crowd.populatedOnce_of_orderly (Crowd.orderly_actAll (Crowd.orderly_start world) actions)

end Buildbox
