import Buildbox.Proofs.Tree.Paths

/-! Trees in order. Names stand in strict order in every directory, and each way of changing a
tree keeps them so. -/

namespace Buildbox

def Entry.Sorted : Entry → Prop
  | .file _ => True
  | .dir sub => sub.Sorted

namespace Directory

@[elab_as_elim]
theorem consInduction {P : Directory → Prop} (empty : P .empty)
    (cons : ∀ n e rest, P rest → P (cons n e rest)) (d : Directory) : P d := by
  induction d with
  | empty => exact empty
  | file n bytes rest ih => exact cons n (.file bytes) rest ih
  | dir n sub rest _ ih => exact cons n (.dir sub) rest ih

section Children

variable {d rest : Directory} {e b : Entry} {n k m : String}

theorem names_cons (n : String) (e : Entry) (d : Directory) :
    (cons n e d).names = n :: d.names := by
  cases e <;> rfl

theorem insert_cons (n k : String) (e b : Entry) (rest : Directory) :
    (cons k b rest).insert n e =
      if n < k then cons n e (cons k b rest)
      else if n = k then cons n e rest
      else cons k b (rest.insert n e) := by
  cases b <;> rfl

theorem erase_cons (n k : String) (b : Entry) (rest : Directory) :
    (cons k b rest).erase n = if k = n then rest.erase n else cons k b (rest.erase n) := by
  cases b <;> rfl

theorem sorted_cons : (cons n e d).Sorted ↔ (∀ m ∈ d.names, n < m) ∧ e.Sorted ∧ d.Sorted := by
  cases e with
  | file bytes => simp [cons, Sorted, Entry.Sorted]
  | dir sub => rfl

theorem mem_names_insert (h : m ∈ (d.insert n e).names) : m = n ∨ m ∈ d.names := by
  induction d using consInduction with
  | empty => simpa [insert, names_cons] using h
  | cons k b rest ih =>
    rw [insert_cons] at h
    split at h
    · rwa [names_cons, List.mem_cons] at h
    split at h
    · rw [names_cons, List.mem_cons] at h
      rw [names_cons, List.mem_cons]
      exact h.imp_right .inr
    · rw [names_cons, List.mem_cons] at h ⊢
      rcases h with h | h
      · exact .inr (.inl h)
      · exact (ih h).imp_right .inr

theorem mem_names_erase (h : m ∈ (d.erase n).names) : m ∈ d.names := by
  induction d using consInduction with
  | empty => exact h
  | cons k b rest ih =>
    rw [erase_cons] at h
    rw [names_cons, List.mem_cons]
    split at h
    · exact .inr (ih h)
    · rw [names_cons, List.mem_cons] at h
      exact h.imp_right ih

theorem sorted_insert (hd : d.Sorted) (he : e.Sorted) : (d.insert n e).Sorted := by
  induction d using consInduction with
  | empty =>
    rw [insert, sorted_cons]
    exact ⟨fun m hm => absurd hm List.not_mem_nil, he, hd⟩
  | cons k b rest ih =>
    obtain ⟨hbelow, hb, hrest⟩ := sorted_cons.mp hd
    rw [insert_cons]
    split
    · next hlt =>
      refine sorted_cons.mpr ⟨fun m hm => ?_, he, hd⟩
      rw [names_cons, List.mem_cons] at hm
      rcases hm with rfl | hm
      · exact hlt
      · exact String.lt_trans hlt (hbelow m hm)
    split
    · next heq => exact sorted_cons.mpr ⟨heq ▸ hbelow, he, hrest⟩
    · next hnlt hne =>
      refine sorted_cons.mpr ⟨fun m hm => ?_, hb, ih hrest⟩
      -- The new name is neither below `k` nor equal to it.
      rcases mem_names_insert hm with rfl | hm
      · exact Decidable.byContradiction fun hn => hne (String.le_antisymm hn hnlt)
      · exact hbelow m hm

theorem sorted_erase (hd : d.Sorted) : (d.erase n).Sorted := by
  induction d using consInduction with
  | empty => exact hd
  | cons k b rest ih =>
    obtain ⟨hbelow, hb, hrest⟩ := sorted_cons.mp hd
    rw [erase_cons]
    split
    · exact ih hrest
    · exact sorted_cons.mpr ⟨fun m hm => hbelow m (mem_names_erase hm), hb, ih hrest⟩

theorem sorted_of_get? (hd : d.Sorted) (h : d.get? n = some e) : e.Sorted := by
  induction d using consInduction with
  | empty => cases h
  | cons k b rest ih =>
    obtain ⟨-, hb, hrest⟩ := sorted_cons.mp hd
    rw [get?_cons] at h
    split at h
    · cases h
      exact hb
    · exact ih hrest h

theorem mem_names_of_get? (h : d.get? n = some e) : n ∈ d.names := by
  induction d using consInduction with
  | empty => cases h
  | cons k b rest ih =>
    rw [get?_cons] at h
    rw [names_cons, List.mem_cons]
    split at h
    · next heq => exact .inl heq.symm
    · exact .inr (ih h)

theorem mem_children (hd : d.Sorted) : (n, e) ∈ d.children ↔ d.get? n = some e := by
  induction d using consInduction with
  | empty => exact iff_of_false List.not_mem_nil nofun
  | cons k b rest ih =>
    obtain ⟨hbelow, -, hrest⟩ := sorted_cons.mp hd
    have hchildren : (cons k b rest).children = (k, b) :: rest.children := by cases b <;> rfl
    rw [hchildren, List.mem_cons, get?_cons, ih hrest, Prod.mk.injEq]
    split
    · next heq =>
      have hnone : rest.get? n ≠ some e := fun hn =>
        absurd (hbelow n (mem_names_of_get? hn)) (heq ▸ String.lt_irrefl k)
      simp [heq, hnone, eq_comm]
    · next hne => simp [Ne.symm hne]

theorem pairwise_names (hd : d.Sorted) : d.names.Pairwise (· < ·) := by
  induction d using consInduction with
  | empty => exact List.Pairwise.nil
  | cons k b rest ih =>
    obtain ⟨hbelow, -, hrest⟩ := sorted_cons.mp hd
    rw [names_cons]
    exact List.Pairwise.cons hbelow (ih hrest)

theorem nodup_names (hd : d.Sorted) : d.names.Nodup := by
  have hne {a b : String} (hlt : a < b) : a ≠ b := fun heq => String.lt_irrefl b (heq ▸ hlt)
  exact (pairwise_names hd).imp hne

theorem get?_eq_none_of_lt (h : ∀ m ∈ d.names, n < m) : d.get? n = none := by
  induction d using consInduction with
  | empty => rfl
  | cons k b rest ih =>
    rw [names_cons] at h
    have hk : n < k := h k List.mem_cons_self
    have hne : k ≠ n := fun heq => String.lt_irrefl n (heq ▸ hk)
    rw [get?_cons, if_neg hne]
    exact ih fun m hm => h m (List.mem_cons_of_mem _ hm)

theorem names_erase (n : String) (d : Directory) :
    (d.erase n).names = d.names.filter (· ≠ n) := by
  induction d using consInduction with
  | empty => rfl
  | cons k b rest ih =>
    rw [erase_cons, names_cons, List.filter_cons]
    by_cases hk : k = n
    · simp [hk, ih]
    · simp [hk, ih, names_cons]

theorem names_insert_of_get? (hd : d.Sorted) (h : d.get? n = some b) :
    (d.insert n e).names = d.names := by
  induction d using consInduction with
  | empty => cases h
  | cons k c rest ih =>
    obtain ⟨hbelow, -, hrest⟩ := sorted_cons.mp hd
    rw [insert_cons]
    split
    · next hlt =>
      have hnone : (cons k c rest).get? n = none := get?_eq_none_of_lt fun m hm => by
        rw [names_cons, List.mem_cons] at hm
        obtain rfl | hm := hm
        · exact hlt
        · exact String.lt_trans hlt (hbelow m hm)
      rw [hnone] at h
      cases h
    split
    · next heq => rw [names_cons, names_cons, heq]
    · next hne =>
      rw [get?_cons, if_neg (Ne.symm hne)] at h
      rw [names_cons, names_cons, ih hrest h]

end Children

theorem modifyDirAt_keeps {P : Directory → Prop} {f : Directory → Directory}
    (hsub : ∀ {d n sub}, P d → d.get? n = some (.dir sub) → P sub)
    (hput : ∀ {d n old sub}, P d → d.get? n = some (.dir old) → P sub → P (d.insert n (.dir sub)))
    (hf : ∀ {d}, P d → P (f d)) {d : Directory} (hd : P d) (ps : List String) :
    P (d.modifyDirAt f ps) := by
  induction ps generalizing d with
  | nil => exact hf hd
  | cons p ps ih =>
    rw [modifyDirAt]
    split
    · next sub hp => exact hput hd hp (ih (hsub hd hp))
    · exact hd

theorem dirAt?_keeps {P : Directory → Prop}
    (hsub : ∀ {d n sub}, P d → d.get? n = some (.dir sub) → P sub) {d sub : Directory}
    {ps : List String} (hd : P d) (h : d.dirAt? ps = some sub) : P sub := by
  induction ps generalizing d with
  | nil =>
    cases h
    exact hd
  | cons p ps ih =>
    rw [dirAt?] at h
    split at h
    · next s hp => exact ih (hsub hd hp) h
    · cases h

theorem names_dirAt?_modifyDirAt_insert {d : Directory} {e : Entry} {m : String}
    {ps qs : List String} (hd : d.Sorted) (hne : qs ≠ ps) (habove : ¬ qs ++ [m] <+: ps) :
    ((d.modifyDirAt (·.insert m e) qs).dirAt? ps).map names = (d.dirAt? ps).map names := by
  induction qs generalizing d ps with
  | nil =>
    obtain ⟨p, ps, rfl⟩ := List.exists_cons_of_ne_nil (Ne.symm hne)
    have hm : m ≠ p := fun h => habove (h ▸ ⟨ps, rfl⟩)
    rw [modifyDirAt, dirAt?_cons, dirAt?_cons, get?_insert, if_neg hm]
  | cons q qs ih =>
    rw [modifyDirAt]
    split
    · next sub hsub =>
      cases ps with
      | nil => exact congrArg some (names_insert_of_get? hd hsub)
      | cons p ps =>
        rw [dirAt?_cons, dirAt?_cons, get?_insert]
        by_cases hp : q = p
        · subst hp
          rw [if_pos rfl, hsub]
          exact ih (sorted_of_get? hd hsub) (fun h => hne (h ▸ rfl))
            fun h => habove (List.cons_prefix_cons.mpr ⟨rfl, h⟩)
        · rw [if_neg hp]
    · rfl

end Directory

end Buildbox
