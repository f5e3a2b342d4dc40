import Buildbox.Proofs.Tree.LastWriter

/-! Tables that are made by the operations on mount tables. They are those in which no two mounts
have one name, so that a mount is found by its name just as by its position. -/

namespace Buildbox.MountTable

inductive Built : MountTable → Prop where
  | empty : Built []
  | push {t u name root} (ht : Built t) (hu : push t name root = .ok u) : Built u
  | overlay {t u name files} (ht : Built t) (hu : overlay t name files = .ok u) : Built u
  | nest {t u name path tree} (ht : Built t) (hu : nest t name path tree = .ok u) : Built u
  | take {t u name root} (ht : Built t) (hu : take t name = some (root, u)) : Built u
  | modifyAt {t} (ht : Built t) (f : Directory → Directory) (i : Nat) : Built (modifyAt f i t)

variable {t u : MountTable} {m : Mount} {name path : String} {root tree : Directory}
  {files : List (String × Bytes)} {i : Nat}

section Names

theorem get?_eq_none_iff : t.get? name = none ↔ name ∉ t.map (·.name) := by
  induction t with
  | nil => simp [get?]
  | cons m rest ih =>
    rw [get?_cons, List.map_cons, List.mem_cons, not_or, ← ih]
    by_cases hm : m.name = name
    · simp [hm]
    · simp [hm, Ne.symm hm]

theorem names_modify (f : Directory → Directory) (name : String) (t : MountTable) :
    (t.modify f name).map (·.name) = t.map (·.name) := by
  induction t with
  | nil => rfl
  | cons m rest ih =>
    unfold modify
    split
    · rfl
    · rw [List.map_cons, List.map_cons, ih]

theorem push_eq_ok : t.push name root = .ok u ↔
    name ∉ t.map (·.name) ∧ u = t ++ [⟨name, root⟩] := by
  rw [← get?_eq_none_iff, push]
  cases t.get? name <;> simp [eq_comm]

theorem names_overlay (hu : t.overlay name files = .ok u) :
    u.map (·.name) = t.map (·.name) := by
  unfold overlay at hu
  split at hu
  · cases hu
  · cases hu
    exact names_modify ..

theorem names_nest (hu : t.nest name path tree = .ok u) : u.map (·.name) = t.map (·.name) := by
  obtain ⟨_, _, _, _, rfl⟩ := nest_eq_ok.mp hu
  exact names_modify ..

theorem names_take (hu : t.take name = some (root, u)) :
    (u.map (·.name)).Sublist (t.map (·.name)) := by
  induction t generalizing u with
  | nil => cases hu
  | cons m rest ih =>
    unfold take at hu
    split at hu
    · cases hu
      exact List.sublist_cons_self ..
    · obtain ⟨⟨_, v⟩, hv, heq⟩ := Option.map_eq_some_iff.mp hu
      cases heq
      exact (ih hv).cons_cons m.name

theorem nodup_names_append : ((t ++ [m]).map (·.name)).Nodup ↔
    (t.map (·.name)).Nodup ∧ m.name ∉ t.map (·.name) := by
  rw [List.map_append, List.map_singleton, List.nodup_append_comm, List.singleton_append,
    List.nodup_cons, and_comm]

theorem get?_of_getElem? (hnames : (t.map (·.name)).Nodup) (hm : t[i]? = some m) :
    t.get? m.name = some m.root := by
  induction t generalizing i with
  | nil => cases hm
  | cons k rest ih =>
    rw [List.map_cons, List.nodup_cons] at hnames
    rw [get?_cons]
    cases i with
    | zero =>
      cases hm
      rw [if_pos rfl]
    | succ i =>
      have hrest : rest[i]? = some m := hm
      have hne : k.name ≠ m.name := fun heq =>
        hnames.1 (heq ▸ List.mem_map_of_mem (List.mem_of_getElem? hrest))
      rw [if_neg hne, ih hnames.2 hrest]

end Names

theorem Built.nodup_names (ht : t.Built) : (t.map (·.name)).Nodup := by
  induction ht with
  | empty => exact List.nodup_nil
  | push _ hu ih =>
    obtain ⟨hnew, rfl⟩ := push_eq_ok.mp hu
    exact nodup_names_append.mpr ⟨ih, hnew⟩
  | overlay _ hu ih => exact names_overlay hu ▸ ih
  | nest _ hu ih => exact names_nest hu ▸ ih
  | take _ hu ih => exact ih.sublist (names_take hu)
  | modifyAt _ f i ih => exact (names_modifyAt f i _).symm ▸ ih

theorem built_iff_nodup : t.Built ↔ (t.map (·.name)).Nodup := by
  refine ⟨Built.nodup_names, fun hnames => ?_⟩
  induction t using List.reverseRecOn with
  | nil => exact .empty
  | append_singleton t m ih =>
    obtain ⟨hbefore, hnew⟩ := nodup_names_append.mp hnames
    exact .push (ih hbefore) (push_eq_ok.mpr ⟨hnew, rfl⟩)

end Buildbox.MountTable
