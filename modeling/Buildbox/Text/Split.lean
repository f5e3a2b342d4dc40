/-! Cutting text at separators and trimming it at its ends. -/

namespace Buildbox.Text

def splitAt (sep : Char) : List Char → List (List Char)
  | [] => [[]]
  | c :: rest =>
    if c = sep then [] :: splitAt sep rest
    else match splitAt sep rest with
      | [] => [[c]]
      | part :: parts => (c :: part) :: parts

theorem splitAt_ne_nil (sep : Char) (cs : List Char) : splitAt sep cs ≠ [] := by
  induction cs with
  | nil => simp [splitAt]
  | cons c rest ih =>
    simp only [splitAt]
    split
    · simp
    · split <;> simp

theorem not_mem_of_mem_splitAt {sep : Char} {cs part : List Char}
    (h : part ∈ splitAt sep cs) : sep ∉ part := by
  induction cs generalizing part with
  | nil => simp_all [splitAt]
  | cons c rest ih =>
    simp only [splitAt] at h
    split at h
    · rcases List.mem_cons.mp h with h | h
      · simp [h]
      · exact ih h
    · next hc =>
      split at h
      · next heq => exact absurd heq (splitAt_ne_nil _ _)
      · next head parts heq =>
        rcases List.mem_cons.mp h with h | h
        · subst h
          have := @ih head (by simp [heq])
          simp [this, Ne.symm hc]
        · exact ih (by simp [heq, h])

def trimLeft (drop : Char → Bool) (cs : List Char) : List Char :=
  cs.dropWhile drop

def trimRight (drop : Char → Bool) (cs : List Char) : List Char :=
  (cs.reverse.dropWhile drop).reverse

def trim (drop : Char → Bool) (cs : List Char) : List Char :=
  trimRight drop (trimLeft drop cs)

def dropLeading? : (lead text : List Char) → Option (List Char)
  | [], text => some text
  | _ :: _, [] => none
  | l :: lead, c :: text => if l = c then dropLeading? lead text else none

def dropTrailing? (trail text : List Char) : Option (List Char) :=
  (dropLeading? trail.reverse text.reverse).map List.reverse

theorem dropLeading?_eq_some {lead text rest : List Char} :
    dropLeading? lead text = some rest ↔ text = lead ++ rest := by
  induction lead generalizing text with
  | nil => simp [dropLeading?, eq_comm]
  | cons l lead ih =>
    cases text with
    | nil => simp [dropLeading?]
    | cons c text =>
      by_cases h : l = c
      · simp [dropLeading?, h, ih]
      · simp [dropLeading?, h, Ne.symm h]

theorem dropTrailing?_eq_some {trail text rest : List Char} :
    dropTrailing? trail text = some rest ↔ text = rest ++ trail := by
  simp only [dropTrailing?, Option.map_eq_some_iff, dropLeading?_eq_some]
  constructor
  · rintro ⟨r, h, rfl⟩
    simpa using congrArg List.reverse h
  · rintro rfl
    exact ⟨rest.reverse, by simp, by simp⟩

end Buildbox.Text
