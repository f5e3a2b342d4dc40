import Buildbox.Proofs.Tree.Order

/-! How the children in a tree are called, in every directory of it. -/

namespace Buildbox

def Directory.Spelled : Directory → Prop
  | .empty => True
  | .file n _ rest => Path.IsName n ∧ rest.Spelled
  | .dir n sub rest => Path.IsName n ∧ sub.Spelled ∧ rest.Spelled

def Entry.Spelled : Entry → Prop
  | .file _ => True
  | .dir sub => sub.Spelled

namespace Directory

variable {d sub : Directory} {e : Entry} {f : Directory → Directory} {n : String}
  {ps : List String}

instance decidableSpelled : (d : Directory) → Decidable d.Spelled
  | .empty => .isTrue trivial
  | .file _ _ rest =>
    have := decidableSpelled rest
    inferInstanceAs (Decidable (_ ∧ _))
  | .dir _ sub rest =>
    have := decidableSpelled sub
    have := decidableSpelled rest
    inferInstanceAs (Decidable (_ ∧ _ ∧ _))

theorem spelled_cons : (cons n e d).Spelled ↔ Path.IsName n ∧ e.Spelled ∧ d.Spelled := by
  cases e with
  | file bytes => exact and_congr_right fun _ => (true_and _).symm.to_iff
  | dir sub => exact Iff.rfl

theorem spelled_insert (hd : d.Spelled) (hn : Path.IsName n) (he : e.Spelled) :
    (d.insert n e).Spelled := by
  induction d using consInduction with
  | empty => exact spelled_cons.mpr ⟨hn, he, hd⟩
  | cons k b rest ih =>
    obtain ⟨hk, hb, hrest⟩ := spelled_cons.mp hd
    rw [insert_cons]
    split
    · exact spelled_cons.mpr ⟨hn, he, hd⟩
    split
    · exact spelled_cons.mpr ⟨hn, he, hrest⟩
    · exact spelled_cons.mpr ⟨hk, hb, ih hrest⟩

theorem spelled_erase (hd : d.Spelled) : (d.erase n).Spelled := by
  induction d using consInduction with
  | empty => exact hd
  | cons k b rest ih =>
    obtain ⟨hk, hb, hrest⟩ := spelled_cons.mp hd
    rw [erase_cons]
    split
    · exact ih hrest
    · exact spelled_cons.mpr ⟨hk, hb, ih hrest⟩

theorem spelled_of_get? (hd : d.Spelled) (h : d.get? n = some e) : Path.IsName n ∧ e.Spelled := by
  induction d using consInduction with
  | empty => cases h
  | cons k b rest ih =>
    obtain ⟨hk, hb, hrest⟩ := spelled_cons.mp hd
    rw [get?_cons] at h
    split at h
    · next heq =>
      cases h
      exact ⟨heq ▸ hk, hb⟩
    · exact ih hrest h

theorem spelled_modifyDirAt (hf : ∀ {d}, d.Spelled → (f d).Spelled) (hd : d.Spelled)
    (ps : List String) : (d.modifyDirAt f ps).Spelled :=
  modifyDirAt_keeps (P := Spelled) (fun hd h => (spelled_of_get? hd h).2)
    (fun hd h hsub => spelled_insert hd (spelled_of_get? hd h).1 hsub) hf hd ps

theorem spelled_dirAt? (hd : d.Spelled) (h : d.dirAt? ps = some sub) : sub.Spelled :=
  dirAt?_keeps (P := Spelled) (fun hd h => (spelled_of_get? hd h).2) hd h

end Directory

def MountTable.Spelled (t : MountTable) : Prop :=
  ∀ m ∈ t, m.root.Spelled

end Buildbox
