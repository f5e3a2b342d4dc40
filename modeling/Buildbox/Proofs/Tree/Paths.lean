import Buildbox.Tree.Mount

/-! What stands at a path, and what a change in the directory above it does to other paths. A
path with a last segment is looked up as that name in the directory above, and changed there. -/

namespace Buildbox.Directory

variable {d sub : Directory} {f : Directory → Directory} {ps qs : List String} {n : String}

theorem dirAt?_cons (d : Directory) (n : String) (ps : List String) :
    d.dirAt? (n :: ps) = ((d.get? n).bind Entry.asDir?).bind (·.dirAt? ps) := by
  rw [dirAt?]
  cases h : d.get? n with
  | none => rfl
  | some e => cases e <;> rfl

theorem lookup_cons_cons (d : Directory) (n m : String) (ps : List String) :
    d.lookup (n :: m :: ps) = ((d.get? n).bind Entry.asDir?).bind (·.lookup (m :: ps)) := by
  rw [lookup]
  · cases h : d.get? n with
    | none => rfl
    | some e => cases e <;> rfl
  · simp

theorem dirAt?_append (d : Directory) (ps qs : List String) :
    d.dirAt? (ps ++ qs) = (d.dirAt? ps).bind (·.dirAt? qs) := by
  induction ps generalizing d with
  | nil => rfl
  | cons p ps ih =>
    rw [List.cons_append, dirAt?_cons, dirAt?_cons]
    cases (d.get? p).bind Entry.asDir? with
    | none => rfl
    | some sub => exact ih sub

theorem lookup_append_singleton (d : Directory) (ps : List String) (n : String) :
    d.lookup (ps ++ [n]) = (d.dirAt? ps).bind (·.get? n) := by
  induction ps generalizing d with
  | nil => rfl
  | cons p ps ih =>
    have hsplit : d.lookup (p :: (ps ++ [n])) =
        ((d.get? p).bind Entry.asDir?).bind (·.lookup (ps ++ [n])) := by
      cases ps <;> exact lookup_cons_cons d p _ _
    rw [List.cons_append, hsplit, dirAt?_cons]
    cases (d.get? p).bind Entry.asDir? with
    | none => rfl
    | some sub => exact ih sub

theorem dirAt?_append_singleton (d : Directory) (ps : List String) (n : String) :
    d.dirAt? (ps ++ [n]) = (d.lookup (ps ++ [n])).bind Entry.asDir? := by
  rw [dirAt?_append, lookup_append_singleton, Option.bind_assoc]
  refine congrArg _ (funext fun sub => ?_)
  rw [dirAt?_cons]
  cases (sub.get? n).bind Entry.asDir? <;> rfl

theorem modifyDirAt_cons (f : Directory → Directory) (d : Directory) (n : String)
    (ps : List String) :
    d.modifyDirAt f (n :: ps) = match (d.get? n).bind Entry.asDir? with
      | some sub => d.insert n (.dir (sub.modifyDirAt f ps))
      | none => d := by
  rw [modifyDirAt]
  cases h : d.get? n with
  | none => rfl
  | some e => cases e <;> rfl

theorem modifyFileAt_append_singleton {bytes : Bytes} (g : Bytes → Bytes)
    (h : d.lookup (ps ++ [n]) = some (.file bytes)) :
    d.modifyFileAt g (ps ++ [n]) = d.modifyDirAt (·.insert n (.file (g bytes))) ps := by
  induction ps generalizing d with
  | nil =>
    have h : d.get? n = some (.file bytes) := h
    simp only [List.nil_append, modifyFileAt, modifyDirAt, h]
  | cons p ps ih =>
    have hsplit : d.lookup (p :: (ps ++ [n])) =
        ((d.get? p).bind Entry.asDir?).bind (·.lookup (ps ++ [n])) := by
      cases ps <;> exact lookup_cons_cons d p _ _
    rw [List.cons_append, hsplit, Option.bind_eq_some_iff] at h
    obtain ⟨sub, hsub, hfile⟩ := h
    obtain ⟨e, he, hsub⟩ := Option.bind_eq_some_iff.mp hsub
    cases e with
    | file b => cases hsub
    | dir s =>
      cases hsub
      have hmod : d.modifyFileAt g (p :: (ps ++ [n])) =
          d.insert p (.dir (sub.modifyFileAt g (ps ++ [n]))) := by
        cases ps <;> simp only [List.nil_append, List.cons_append, modifyFileAt, he]
      rw [List.cons_append, hmod, modifyDirAt_cons, he, ih hfile]
      rfl

section Modified

theorem dirAt?_modifyDirAt_self (f : Directory → Directory) (d : Directory) (ps : List String) :
    (d.modifyDirAt f ps).dirAt? ps = (d.dirAt? ps).map f := by
  induction ps generalizing d with
  | nil => rfl
  | cons p ps ih =>
    rw [modifyDirAt_cons]
    cases h : (d.get? p).bind Entry.asDir? with
    | none => simp only [dirAt?_cons, h, Option.bind_none, Option.map_none]
    | some sub =>
      simp only [dirAt?_cons, get?_insert, if_true, h, Option.bind_some, Entry.asDir?, ih]

variable (hf : ∀ sub m, m ≠ n → (f sub).get? m = sub.get? m)
include hf

theorem isSome_dirAt?_modifyDirAt (h : ¬ ps ++ [n] <+: qs) :
    ((d.modifyDirAt f ps).dirAt? qs).isSome = (d.dirAt? qs).isSome := by
  induction ps generalizing d qs with
  | nil =>
    cases qs with
    | nil => rfl
    | cons q qs =>
      have hq : q ≠ n := fun he => h (he ▸ List.prefix_append [q] qs)
      rw [modifyDirAt, dirAt?_cons, dirAt?_cons, hf d q hq]
  | cons p ps ih =>
    rw [modifyDirAt_cons]
    cases hp : (d.get? p).bind Entry.asDir? with
    | none => rfl
    | some sub =>
      cases qs with
      | nil => rfl
      | cons q qs =>
        simp only [dirAt?_cons, get?_insert]
        split
        · next heq =>
          subst heq
          rw [hp]
          exact ih fun hpre => h (List.prefix_cons_inj p |>.mpr hpre)
        · rfl

theorem lookup_modifyDirAt (h : ¬ ps ++ [n] <+: qs) (h' : ¬ qs <+: ps ++ [n]) :
    (d.modifyDirAt f ps).lookup qs = d.lookup qs := by
  induction ps generalizing d qs with
  | nil =>
    cases qs with
    | nil => exact absurd List.nil_prefix h'
    | cons q qs =>
      have hq : q ≠ n := fun he => h (he ▸ List.prefix_append [q] qs)
      cases qs with
      | nil => exact hf d q hq
      | cons r qs => rw [modifyDirAt, lookup_cons_cons, lookup_cons_cons, hf d q hq]
  | cons p ps ih =>
    rw [modifyDirAt_cons]
    cases hp : (d.get? p).bind Entry.asDir? with
    | none => rfl
    | some sub =>
      cases qs with
      | nil => exact absurd List.nil_prefix h'
      | cons q qs =>
        cases qs with
        -- A path of one name that is not above the change leads elsewhere at once.
        | nil =>
          have hpq : p ≠ q := fun he => h' (he ▸ List.prefix_append [q] _)
          simp only [lookup, get?_insert, if_neg hpq]
        | cons r qs =>
          simp only [lookup_cons_cons, get?_insert]
          split
          · next heq =>
            subst heq
            rw [hp]
            refine ih (fun hpre => h ?_) fun hpre => h' ?_
            · exact (List.prefix_cons_inj p).mpr hpre
            · exact (List.prefix_cons_inj p).mpr hpre
          · rfl

end Modified

end Buildbox.Directory

namespace Buildbox.MountTable

variable {t : MountTable} {f : Directory → Directory} {i j : Nat}

theorem getElem?_modifyAt (f : Directory → Directory) (i j : Nat) (t : MountTable) :
    (t.modifyAt f i)[j]? =
      if i = j then t[j]?.map fun m => { m with root := f m.root } else t[j]? := by
  induction t generalizing i j with
  | nil => simp [modifyAt]
  | cons m rest ih =>
    cases i with
    | zero => cases j <;> simp [modifyAt]
    | succ i =>
      cases j with
      | zero => simp [modifyAt]
      | succ j => simp only [modifyAt, List.getElem?_cons_succ, ih, Nat.add_right_cancel_iff]

theorem modifyAt_keeps {P : Directory → Prop} (ht : ∀ m ∈ t, P m.root) (hf : ∀ {d}, P d → P (f d))
    (i : Nat) : ∀ m ∈ t.modifyAt f i, P m.root := by
  intro m hm
  obtain ⟨j, hj⟩ := List.mem_iff_getElem?.mp hm
  rw [getElem?_modifyAt] at hj
  split at hj
  · obtain ⟨k, hk, rfl⟩ := Option.map_eq_some_iff.mp hj
    exact hf (ht k (List.mem_of_getElem? hk))
  · exact ht m (List.mem_of_getElem? hj)

theorem modifyAt_congr {g : Directory → Directory} {m : Mount} (hm : t[i]? = some m)
    (hfg : f m.root = g m.root) : t.modifyAt f i = t.modifyAt g i := by
  induction t generalizing i with
  | nil => cases hm
  | cons k rest ih =>
    cases i with
    | zero =>
      cases hm
      rw [modifyAt, modifyAt, hfg]
    | succ i => rw [modifyAt, modifyAt, ih hm]

theorem names_modifyAt (f : Directory → Directory) (i : Nat) (t : MountTable) :
    (t.modifyAt f i).map (·.name) = t.map (·.name) := by
  induction t generalizing i with
  | nil => simp [modifyAt]
  | cons m rest ih => cases i <;> simp [modifyAt, ih]

end Buildbox.MountTable
