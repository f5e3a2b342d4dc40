import Buildbox.Proofs.Tree.Order

/-! What a change of one directory does to the summed lengths of the files of a tree in order: an
entry put in adds its length and takes away that of the entry whose place it takes. -/

namespace Buildbox

namespace Entry

def totalLength : Entry → Nat
  | .file bytes => bytes.length
  | .dir sub => sub.totalLength

def heldLength (e : Option Entry) : Nat :=
  e.elim 0 totalLength

@[simp] theorem heldLength_none : heldLength none = 0 := rfl

@[simp] theorem heldLength_some (e : Entry) : heldLength (some e) = e.totalLength := rfl

end Entry

namespace Directory

def AllFiles (P : Bytes → Prop) : Directory → Prop
  | .empty => True
  | .file _ bytes rest => P bytes ∧ rest.AllFiles P
  | .dir _ sub rest => sub.AllFiles P ∧ rest.AllFiles P

end Directory

def Entry.AllFiles (P : Bytes → Prop) : Entry → Prop
  | .file bytes => P bytes
  | .dir sub => sub.AllFiles P

namespace Directory

section Sums

variable {d sub : Directory} {e : Entry} {n : String} {ps : List String}

@[simp] theorem totalLength_empty : empty.totalLength = 0 := rfl

theorem totalLength_cons (n : String) (e : Entry) (d : Directory) :
    (cons n e d).totalLength = e.totalLength + d.totalLength := by
  cases e <;> rfl

theorem totalLength_insert (hd : d.Sorted) (n : String) (e : Entry) :
    (d.insert n e).totalLength + Entry.heldLength (d.get? n) =
      d.totalLength + e.totalLength := by
  induction d using consInduction with
  | empty => simp [insert, totalLength_cons]
  | cons k b rest ih =>
    obtain ⟨hbelow, -, hrest⟩ := sorted_cons.mp hd
    rw [insert_cons, get?_cons]
    split
    · next hlt =>
      -- The new name comes first, so nothing has it.
      have hne : k ≠ n := fun heq => String.lt_irrefl n (heq ▸ hlt)
      have hnone := get?_eq_none_of_lt fun m hm => String.lt_trans hlt (hbelow m hm)
      rw [if_neg hne, hnone, Entry.heldLength_none, totalLength_cons n]
      omega
    split
    · next heq =>
      rw [if_pos heq.symm, Entry.heldLength_some, totalLength_cons, totalLength_cons]
      omega
    · next hne =>
      have ih := ih hrest
      rw [if_neg (Ne.symm hne), totalLength_cons, totalLength_cons]
      omega

theorem totalLength_erase (hd : d.Sorted) (n : String) :
    (d.erase n).totalLength + Entry.heldLength (d.get? n) = d.totalLength := by
  induction d using consInduction with
  | empty => rfl
  | cons k b rest ih =>
    obtain ⟨hbelow, -, hrest⟩ := sorted_cons.mp hd
    have ih := ih hrest
    rw [erase_cons, get?_cons]
    split
    · next heq =>
      have hnone := get?_eq_none_of_lt (heq ▸ hbelow)
      rw [hnone, Entry.heldLength_none] at ih
      rw [Entry.heldLength_some, totalLength_cons]
      omega
    · rw [totalLength_cons, totalLength_cons]
      omega

theorem totalLength_modifyDirAt (f : Directory → Directory) (hd : d.Sorted)
    (h : d.dirAt? ps = some sub) :
    (d.modifyDirAt f ps).totalLength + sub.totalLength =
      d.totalLength + (f sub).totalLength := by
  induction ps generalizing d with
  | nil =>
    cases h
    exact Nat.add_comm _ _
  | cons p ps ih =>
    rw [dirAt?] at h
    split at h
    · next s hp =>
      have ih := ih (sorted_of_get? hd hp) h
      have hput := totalLength_insert hd p (.dir (s.modifyDirAt f ps))
      rw [hp, Entry.heldLength_some, Entry.totalLength, Entry.totalLength] at hput
      simp only [modifyDirAt, hp]
      omega
    · cases h

end Sums

section Files

variable {P : Bytes → Prop} {d sub : Directory} {e : Entry} {n : String} {ps : List String}

theorem allFiles_cons : (cons n e d).AllFiles P ↔ e.AllFiles P ∧ d.AllFiles P := by
  cases e <;> rfl

theorem allFiles_insert (hd : d.AllFiles P) (he : e.AllFiles P) : (d.insert n e).AllFiles P := by
  induction d using consInduction with
  | empty => exact allFiles_cons.mpr ⟨he, hd⟩
  | cons k b rest ih =>
    obtain ⟨hb, hrest⟩ := allFiles_cons.mp hd
    rw [insert_cons]
    split
    · exact allFiles_cons.mpr ⟨he, hd⟩
    split
    · exact allFiles_cons.mpr ⟨he, hrest⟩
    · exact allFiles_cons.mpr ⟨hb, ih hrest⟩

theorem allFiles_erase (hd : d.AllFiles P) : (d.erase n).AllFiles P := by
  induction d using consInduction with
  | empty => exact hd
  | cons k b rest ih =>
    obtain ⟨hb, hrest⟩ := allFiles_cons.mp hd
    rw [erase_cons]
    split
    · exact ih hrest
    · exact allFiles_cons.mpr ⟨hb, ih hrest⟩

theorem allFiles_of_get? (hd : d.AllFiles P) (h : d.get? n = some e) : e.AllFiles P := by
  induction d using consInduction with
  | empty => cases h
  | cons k b rest ih =>
    obtain ⟨hb, hrest⟩ := allFiles_cons.mp hd
    rw [get?_cons] at h
    split at h
    · cases h
      exact hb
    · exact ih hrest h

end Files

end Directory

namespace MountTable

variable {t : MountTable} {m : Mount} {i : Nat}

theorem totalLength_modifyAt (f : Directory → Directory) (h : t[i]? = some m) :
    totalLength (t.modifyAt f i) + m.root.totalLength =
      t.totalLength + (f m.root).totalLength := by
  induction t generalizing i with
  | nil => cases h
  | cons k rest ih =>
    cases i with
    | zero =>
      cases h
      simp only [modifyAt, totalLength]
      omega
    | succ i =>
      have ih := ih h
      simp only [modifyAt, totalLength] at ih ⊢
      omega

end MountTable

end Buildbox
