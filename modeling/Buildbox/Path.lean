import Buildbox.Text.Split

/-! Slash-separated paths and file name extensions. -/

namespace Buildbox.Path

def IsName (s : String) : Prop :=
  s ≠ "" ∧ '/' ∉ s.toList ∧ s ≠ "." ∧ s ≠ ".."

instance (s : String) : Decidable (IsName s) := by
  unfold IsName
  infer_instance

def parts (path : String) : List String :=
  (Text.splitAt '/' path.toList).map String.ofList

theorem slash_not_mem_of_mem_parts {path s : String} (h : s ∈ parts path) :
    '/' ∉ s.toList := by
  obtain ⟨part, hpart, rfl⟩ := List.mem_map.mp h
  simpa using Text.not_mem_of_mem_splitAt hpart

/-- The segments of a path; empty ones and `.` count for nothing. -/
def segments (path : String) : List String :=
  (parts path).filter fun s => s ≠ "" ∧ s ≠ "."

theorem of_mem_segments {path s : String} (h : s ∈ segments path) :
    s ≠ "" ∧ s ≠ "." ∧ '/' ∉ s.toList := by
  simp only [segments, List.mem_filter, decide_eq_true_eq] at h
  exact ⟨h.2.1, h.2.2, slash_not_mem_of_mem_parts h.1⟩

def join (segments : List String) : String :=
  "/".intercalate segments

/-- The name before `.ext`; it must not be blank as a file name. -/
def stem? (filename ext : String) : Option String :=
  match Text.dropTrailing? ('.' :: ext.toList) filename.toList with
  | some stem => if stem = [] ∨ stem.getLast? = some '/' then none else some (String.ofList stem)
  | none => none

end Buildbox.Path
