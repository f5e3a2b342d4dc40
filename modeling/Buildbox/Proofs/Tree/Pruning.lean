import Buildbox.Proofs.Tree.Listing

/-! Trees without the directories that hold no file. They have the files of the trees they are made
of, and the directories above these. -/

namespace Buildbox

/-- A tree without the directories that hold no file, at any depth. -/
def Directory.pruned : Directory → Directory
  | .empty => .empty
  | .file name bytes rest => .file name bytes rest.pruned
  | .dir name sub rest =>
    if sub.fileCount = 0 then rest.pruned else .dir name sub.pruned rest.pruned

def Entry.pruned? : Entry → Option Entry
  | .file bytes => some (.file bytes)
  | .dir sub => if sub.fileCount = 0 then none else some (.dir sub.pruned)

namespace Directory

variable {d : Directory} {n : String} {q : List String} {b : Bytes}

theorem pruned_cons (n : String) (e : Entry) (rest : Directory) :
    (cons n e rest).pruned = match e.pruned? with
      | none => rest.pruned
      | some e => cons n e rest.pruned := by
  cases e with
  | file bytes => rfl
  | dir sub =>
    rw [cons, pruned, Entry.pruned?]
    split <;> rfl

theorem mem_names_pruned (h : n ∈ d.pruned.names) : n ∈ d.names := by
  induction d using consInduction with
  | empty => exact h
  | cons k b rest ih =>
    rw [pruned_cons] at h
    rw [names_cons, List.mem_cons]
    cases hb : b.pruned? with
    | none =>
      rw [hb] at h
      exact .inr (ih h)
    | some b' =>
      rw [hb] at h
      rw [names_cons, List.mem_cons] at h
      exact h.imp_right ih

theorem sorted_pruned (hd : d.Sorted) : d.pruned.Sorted := by
  induction d using treeInduction with
  | empty => trivial
  | cons n e rest ihsub ih =>
    obtain ⟨hbelow, he, hrest⟩ := sorted_cons.mp hd
    rw [pruned_cons]
    split
    · exact ih hrest
    · next e' he' =>
      refine sorted_cons.mpr ⟨fun m hm => hbelow m (mem_names_pruned hm), ?_, ih hrest⟩
      cases e with
      | file bytes =>
        cases he'
        trivial
      | dir sub =>
        rw [Entry.pruned?] at he'
        split at he'
        · cases he'
        · cases he'
          exact ihsub sub rfl he

theorem get?_pruned (hd : d.Sorted) (n : String) :
    d.pruned.get? n = (d.get? n).bind Entry.pruned? := by
  induction d using consInduction with
  | empty => rfl
  | cons k b rest ih =>
    obtain ⟨hbelow, -, hrest⟩ := sorted_cons.mp hd
    rw [pruned_cons, get?_cons]
    by_cases hk : k = n
    · subst hk
      have hnone : rest.get? k = none := get?_eq_none_of_lt hbelow
      rw [if_pos rfl, Option.bind_some]
      split
      · next hb => rw [ih hrest, hnone, hb, Option.bind_none]
      · next b' hb => rw [get?_cons, if_pos rfl, hb]
    · rw [if_neg hk, ← ih hrest]
      split
      · rfl
      · rw [get?_cons, if_neg hk]

theorem fileCount_eq_zero (hd : d.Sorted) :
    d.fileCount = 0 ↔ ∀ q b, (Entry.dir d).at? q ≠ some (.file b) := by
  rw [← length_files, List.length_eq_zero_iff, List.eq_nil_iff_forall_not_mem]
  constructor
  · exact fun h q b hfile => h (q, b) ((mem_files hd).mpr (lookup_eq_file.mpr hfile))
  · exact fun h f hf => h f.1 f.2 (lookup_eq_file.mp ((mem_files hd).mp hf))

theorem at?_pruned_eq_file (hd : d.Sorted) :
    (Entry.dir d.pruned).at? q = some (.file b) ↔ (Entry.dir d).at? q = some (.file b) := by
  induction q generalizing d with
  | nil => constructor <;> intro hfile <;> cases hfile
  | cons n q ih =>
    rw [Entry.at?_cons, Entry.at?_cons, Entry.asDir, Entry.asDir, get?_pruned hd]
    cases hn : d.get? n with
    | none => rfl
    | some e =>
      cases e with
      | file bytes => rfl
      | dir sub =>
        have hsub : sub.Sorted := sorted_of_get? hd hn
        rw [Option.bind_some, Option.bind_some, Entry.pruned?]
        split
        · next hzero =>
          refine iff_of_false ?_ ((fileCount_eq_zero hsub).mp hzero q b)
          intro hfile
          cases hfile
        · exact ih hsub

theorem exists_file_below_cons :
    (∃ p b, n :: q <+: p ∧ n :: q ≠ p ∧ (Entry.dir d).at? p = some (.file b)) ↔
      ∃ y, d.get? n = some y ∧ ∃ p b, q <+: p ∧ q ≠ p ∧ y.at? p = some (.file b) := by
  constructor
  · rintro ⟨p, b, ⟨r, rfl⟩, hne, hfile⟩
    obtain ⟨y, hy, hfile⟩ := Option.bind_eq_some_iff.mp hfile
    exact ⟨y, hy, q ++ r, b, List.prefix_append q r, fun h => hne (congrArg _ h), hfile⟩
  · rintro ⟨y, hy, p, b, hpre, hne, hfile⟩
    have hcons : n :: q ≠ n :: p := fun h => hne (List.cons.inj h).2
    refine ⟨n :: p, b, List.cons_prefix_cons.mpr ⟨rfl, hpre⟩, hcons, ?_⟩
    rw [Entry.at?_cons, Entry.asDir, hy, Option.bind_some, hfile]

theorem exists_dir_pruned (hd : d.Sorted) :
    (∃ sub, (Entry.dir d.pruned).at? q = some (.dir sub)) ↔
      q = [] ∨ ∃ p b, q <+: p ∧ q ≠ p ∧ (Entry.dir d).at? p = some (.file b) := by
  induction q generalizing d with
  | nil => exact iff_of_true ⟨_, rfl⟩ (.inl rfl)
  | cons n q ih =>
    rw [or_iff_right (List.cons_ne_nil n q), exists_file_below_cons, Entry.at?_cons, Entry.asDir,
      get?_pruned hd]
    cases hn : d.get? n with
    | none =>
      constructor
      · rintro ⟨sub, hsub⟩
        cases hsub
      · rintro ⟨e, he, -⟩
        cases he
    | some e =>
      simp only [Option.bind_some, Option.some.injEq, exists_eq_left']
      cases e with
      | file bytes =>
        refine iff_of_false ?_ ?_
        · rintro ⟨sub, hsub⟩
          cases q <;> cases hsub
        · rintro ⟨p, b, hpre, hne, hfile⟩
          cases p with
          | nil => exact hne (List.prefix_nil.mp hpre)
          | cons m p => cases hfile
      | dir sub =>
        have hsub : sub.Sorted := sorted_of_get? hd hn
        rw [Entry.pruned?]
        split
        · next hzero =>
          constructor
          · rintro ⟨sub, hsub⟩
            cases hsub
          · rintro ⟨p, b, -, -, hfile⟩
            exact absurd hfile ((fileCount_eq_zero hsub).mp hzero p b)
        -- The directory itself stays as well, since there is a file in it.
        · next hsome =>
          rw [Option.bind_some, ih hsub, or_iff_right_of_imp]
          rintro rfl
          rw [fileCount_eq_zero hsub] at hsome
          push Not at hsome
          obtain ⟨p, b, hfile⟩ := hsome
          refine ⟨p, b, List.nil_prefix, ?_, hfile⟩
          rintro rfl
          cases hfile

end Directory

end Buildbox
