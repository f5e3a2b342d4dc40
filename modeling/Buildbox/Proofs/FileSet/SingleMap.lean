import Buildbox.FileSet

/-! A project keeps its texts and the names of its hidden files apart. Whatever is done to it, the two
are one map from names to files, each with its text and whether it is hidden. -/

namespace Buildbox

structure ProjectFile where
  text : String
  hidden : Bool
  deriving DecidableEq, Repr

inductive Edit where
  | add (name text : String)
  | remove (name : String)
  | rename (source target : String)
  | update (name text : String)
  | addDerived (name text : String)
  | collect (files : List (String × String))
  deriving DecidableEq, Repr

def Edit.run {σ : Type} (step : σ → Edit → Option Bool × σ) (s : σ) :
    List Edit → List (Option Bool) × σ
  | [] => ([], s)
  | e :: edits =>
    let (answer, s) := step s e
    let (answers, s) := run step s edits
    (answer :: answers, s)

namespace FileSet

def edit (s : FileSet) : Edit → Option Bool × FileSet
  | .add name text => (none, s.add name text)
  | .remove name => (s.remove name).map some id
  | .rename source target => (s.rename source target).map some id
  | .update name text => (s.update name text).map some id
  | .addDerived name text => (none, s.addDerived name text)
  | .collect files => (none, ofList files)

end FileSet

abbrev FileMap := NameMap ProjectFile

namespace FileMap

def remove (m : FileMap) (name : String) : Bool × FileMap :=
  (m.contains name, m.erase name)

def rename (m : FileMap) (source target : String) : Bool × FileMap :=
  match m.get? source, m.get? target with
  | some file, none => (true, (m.erase source).insert target file)
  | _, _ => (false, m)

def update (m : FileMap) (name text : String) : Bool × FileMap :=
  match m.get? name with
  | some file => (true, m.insert name { file with text })
  | none => (false, m)

def ofList (files : List (String × String)) : FileMap :=
  NameMap.ofList (files.map fun f => (f.1, ⟨f.2, false⟩))

def edit (m : FileMap) : Edit → Option Bool × FileMap
  | .add name text => (none, m.insert name ⟨text, false⟩)
  | .remove name => (m.remove name).map some id
  | .rename source target => (m.rename source target).map some id
  | .update name text => (m.update name text).map some id
  | .addDerived name text => (none, m.insert name ⟨text, true⟩)
  | .collect files => (none, ofList files)

theorem rename_done {m : FileMap} {source target : String}
    (hdone : (m.rename source target).1 = true) :
    ∃ file, m.get? source = some file ∧ m.get? target = none ∧
      (m.rename source target).2 = (m.erase source).insert target file := by
  unfold rename at hdone ⊢
  cases hfile : m.get? source with
  | none =>
    rw [hfile] at hdone
    cases hdone
  | some file =>
    cases hother : m.get? target with
    | some other =>
      rw [hfile, hother] at hdone
      cases hdone
    | none => exact ⟨file, rfl, rfl, rfl⟩

theorem rename_kept {m : FileMap} {source target : String}
    (hkept : (m.rename source target).1 = false) : (m.rename source target).2 = m := by
  unfold rename at hkept ⊢
  cases hfile : m.get? source with
  | none => rfl
  | some file =>
    cases hother : m.get? target with
    | some other => rfl
    | none =>
      rw [hfile, hother] at hkept
      cases hkept

def texts (m : FileMap) : NameMap String :=
  ⟨m.entries.map fun e => (e.1, e.2.text), List.pairwise_map.mpr m.sorted⟩

def visible (m : FileMap) : List (String × String) :=
  (m.entries.filter fun e => ! e.2.hidden).map fun e => (e.1, e.2.text)

end FileMap

namespace NameMap

variable {α : Type} {m : NameMap α} {name other : String}

theorem find_map {β : Type} (f : α → β) (es : List (String × α)) :
    find name (es.map fun e => (e.1, f e.2)) = (find name es).map f := by
  induction es with
  | nil => rfl
  | cons e rest ih =>
    rw [List.map_cons, find, find, ih]
    split <;> rfl

theorem contains_insert (a : α) :
    (m.insert name a).contains other = (decide (name = other) || m.contains other) := by
  rw [contains, get?_insert]
  by_cases h : name = other <;> simp [h, contains]

theorem contains_erase :
    (m.erase name).contains other = (!decide (name = other) && m.contains other) := by
  rw [contains, get?_erase]
  by_cases h : name = other <;> simp [h, contains]

end NameMap

namespace FileSet

structure Matches (s : FileSet) (m : FileMap) : Prop where
  texts : ∀ name, s.files.get? name = (m.get? name).map (·.text)
  flags : ∀ name, s.hidden.contains name = (m.get? name).any (·.hidden)

variable {s : FileSet} {m : FileMap} {name source target text : String}

section Steps

theorem matches_empty : Matches {} .empty :=
  ⟨fun _ => rfl, fun _ => rfl⟩

theorem Matches.contains (h : s.Matches m) (name : String) :
    s.files.contains name = m.contains name := by
  rw [NameMap.contains, h.texts, Option.isSome_map]
  rfl

theorem Matches.add (h : s.Matches m) (name text : String) :
    (s.add name text).Matches (m.insert name ⟨text, false⟩) := by
  constructor
  · intro other
    rw [FileSet.add, NameMap.get?_insert, NameMap.get?_insert, h.texts]
    split <;> rfl
  · intro other
    rw [FileSet.add, NameMap.contains_erase, NameMap.get?_insert, h.flags]
    by_cases hn : name = other <;> simp [hn]

theorem Matches.addDerived (h : s.Matches m) (name text : String) :
    (s.addDerived name text).Matches (m.insert name ⟨text, true⟩) := by
  constructor
  · intro other
    rw [FileSet.addDerived, NameMap.get?_insert, NameMap.get?_insert, h.texts]
    split <;> rfl
  · intro other
    rw [FileSet.addDerived, NameMap.contains_insert, NameMap.get?_insert, h.flags]
    by_cases hn : name = other <;> simp [hn]

theorem Matches.remove (h : s.Matches m) (name : String) :
    (s.remove name).1 = (m.remove name).1 ∧ (s.remove name).2.Matches (m.remove name).2 := by
  refine ⟨h.contains name, ?_, ?_⟩
  · intro other
    change (s.files.erase name).get? other = ((m.erase name).get? other).map _
    rw [NameMap.get?_erase, NameMap.get?_erase, h.texts]
    split <;> rfl
  · intro other
    change (s.hidden.erase name).contains other = ((m.erase name).get? other).any _
    rw [NameMap.contains_erase, NameMap.get?_erase, h.flags]
    by_cases hn : name = other <;> simp [hn]

theorem Matches.update (h : s.Matches m) (name text : String) :
    (s.update name text).1 = (m.update name text).1 ∧
      (s.update name text).2.Matches (m.update name text).2 := by
  have hcontains := h.contains name
  unfold FileSet.update FileMap.update
  rw [hcontains, NameMap.contains]
  cases hfile : m.get? name with
  | none => exact ⟨rfl, h⟩
  | some file =>
    refine ⟨rfl, ?_, ?_⟩
    · intro other
      change (s.files.insert name text).get? other = _
      rw [NameMap.get?_insert, NameMap.get?_insert, h.texts]
      split <;> rfl
    · intro other
      change s.hidden.contains other = _
      rw [NameMap.get?_insert, h.flags]
      split
      · next hn => rw [← hn, hfile]; rfl
      · rfl

theorem rename_of_free (htext : s.files.get? source = some text)
    (hfree : s.files.contains target = false) :
    s.rename source target = (true, ⟨(s.files.erase source).insert target text,
      if s.hidden.contains source then (s.hidden.erase source).insert target () else s.hidden⟩) := by
  have hne : source ≠ target := fun heq => by
    rw [← heq, NameMap.contains, htext] at hfree
    cases hfree
  rw [rename, if_neg (by simp [hne, hfree]), htext]
  dsimp only
  split <;> rfl

theorem rename_of_taken (h : s.files.get? source = none ∨ s.files.contains target = true) :
    s.rename source target = (false, s) := by
  unfold rename
  split
  · rfl
  · next hfree =>
    obtain hnone | htaken := h
    · rw [hnone]
    · exact absurd (.inr htaken) hfree

theorem contains_moved {names : NameSet} (source name : String)
    (hfree : names.contains target = false) :
    (if names.contains source then (names.erase source).insert target () else names).contains name =
      if target = name then names.contains source
      else if source = name then false else names.contains name := by
  by_cases ht : target = name
  · rw [if_pos ht]
    cases hs : names.contains source with
    | true => simp [NameMap.contains_insert, ht]
    | false => simp [← ht, hfree]
  · rw [if_neg ht]
    by_cases hn : source = name
    · rw [if_pos hn]
      cases hs : names.contains source with
      | true => simp [NameMap.contains_insert, NameMap.contains_erase, ht, hn]
      | false => simp [← hn, hs]
    · rw [if_neg hn]
      cases names.contains source with
      | true => simp [NameMap.contains_insert, NameMap.contains_erase, ht, hn]
      | false => rfl

theorem Matches.rename (h : s.Matches m) (source target : String) :
    (s.rename source target).1 = (m.rename source target).1 ∧
      (s.rename source target).2.Matches (m.rename source target).2 := by
  have htarget : s.files.contains target = (m.get? target).isSome := h.contains target
  have htext := h.texts source
  have hflag := h.flags source
  have hfreed := h.flags target
  unfold FileMap.rename
  cases hfile : m.get? source with
  | none =>
    rw [hfile] at htext
    rw [rename_of_taken (.inl htext)]
    exact ⟨rfl, h⟩
  | some file =>
    cases hother : m.get? target with
    | some other =>
      rw [hother] at htarget
      rw [rename_of_taken (.inr htarget)]
      exact ⟨rfl, h⟩
    | none =>
      rw [hother] at htarget hfreed
      rw [hfile] at htext hflag
      rw [rename_of_free htext htarget]
      refine ⟨rfl, fun name => ?_, fun name => ?_⟩
      · simp only [NameMap.get?_insert, NameMap.get?_erase, h.texts]
        split
        · rfl
        · split <;> rfl
      · rw [NameMap.get?_insert, NameMap.get?_erase]
        refine (contains_moved source name hfreed).trans ?_
        rw [hflag, h.flags name]
        split
        · rfl
        · split <;> rfl

theorem Matches.ofList (files : List (String × String)) :
    (FileSet.ofList files).Matches (FileMap.ofList files) := by
  have hfrom {s : FileSet} {m : FileMap} (h : s.Matches m) :
      (files.foldl (fun s f => s.add f.1 f.2) s).Matches
        (m.insertAll (files.map fun f => (f.1, ⟨f.2, false⟩))) := by
    induction files generalizing s m with
    | nil => exact h
    | cons f files ih => exact ih (h.add f.1 f.2)
  exact hfrom matches_empty

theorem Matches.edit (h : s.Matches m) (e : Edit) :
    (s.edit e).1 = (m.edit e).1 ∧ (s.edit e).2.Matches (m.edit e).2 := by
  cases e with
  | add name text => exact ⟨rfl, h.add name text⟩
  | remove name => exact (h.remove name).imp_left (congrArg some)
  | rename source target => exact (h.rename source target).imp_left (congrArg some)
  | update name text => exact (h.update name text).imp_left (congrArg some)
  | addDerived name text => exact ⟨rfl, h.addDerived name text⟩
  | collect files => exact ⟨rfl, Matches.ofList files⟩

theorem Matches.run (h : s.Matches m) (edits : List Edit) :
    (Edit.run FileSet.edit s edits).1 = (Edit.run FileMap.edit m edits).1 ∧
      (Edit.run FileSet.edit s edits).2.Matches (Edit.run FileMap.edit m edits).2 := by
  induction edits generalizing s m with
  | nil => exact ⟨rfl, h⟩
  | cons e edits ih =>
    obtain ⟨hanswer, hstep⟩ := h.edit e
    obtain ⟨hanswers, hrest⟩ := ih hstep
    exact ⟨List.cons_eq_cons.mpr ⟨hanswer, hanswers⟩, hrest⟩

end Steps

/-- All that can be seen of a project is what can be seen of a map. -/
structure Shows (s : FileSet) (m : FileMap) : Prop where
  get? : ∀ name, s.get? name = (m.get? name).map (·.text)
  contains : ∀ name, s.contains name = (m.get? name).isSome
  isHidden : ∀ name, s.isHidden name = (m.get? name).any (·.hidden)
  snapshot : s.snapshot = m.texts
  toList : s.toList = m.entries.map fun e => (e.1, e.2.text)
  visible : s.visible = m.visible
  size : s.size = m.size
  isEmpty : s.isEmpty = m.isEmpty

/-- A file has left its name for another one, with its text and its flag. -/
structure Moves (s s' : FileSet) (source target : String) : Prop where
  moved : s'.get? target = s.get? source ∧ s'.isHidden target = s.isHidden source
  left : s'.get? source = none ∧ s'.isHidden source = false
  others : ∀ name, name ≠ source → name ≠ target →
    s'.get? name = s.get? name ∧ s'.isHidden name = s.isHidden name

/-- Neither a text nor a flag is left under a name. -/
structure Drops (s s' : FileSet) (name : String) : Prop where
  dropped : s'.get? name = none ∧ s'.isHidden name = false
  others : ∀ other, other ≠ name →
    s'.get? other = s.get? other ∧ s'.isHidden other = s.isHidden other

section Observers

theorem Matches.snapshot (h : s.Matches m) : s.snapshot = m.texts :=
  NameMap.ext fun name => (h.texts name).trans (NameMap.find_map _ m.entries).symm

theorem Matches.visible (h : s.Matches m) : s.visible = m.visible := by
  have hfiles : s.toList = m.entries.map fun e => (e.1, e.2.text) :=
    congrArg NameMap.entries h.snapshot
  rw [FileSet.visible, FileMap.visible, hfiles, List.filter_map]
  refine congrArg _ (List.filter_congr fun e he => ?_)
  have hfile : m.get? e.1 = some e.2 := NameMap.get?_eq_some.mpr he
  have hflag := h.flags e.1
  rw [hfile] at hflag
  exact congrArg not hflag

theorem Matches.shows (h : s.Matches m) : s.Shows m where
  get? := h.texts
  contains := h.contains
  isHidden := h.flags
  snapshot := h.snapshot
  toList := congrArg NameMap.entries h.snapshot
  visible := h.visible
  size := by
    have hfiles := congrArg (·.entries.length) h.snapshot
    rwa [FileMap.texts, List.length_map] at hfiles
  isEmpty := by
    have hfiles := congrArg (·.entries.isEmpty) h.snapshot
    rwa [FileMap.texts, List.isEmpty_map] at hfiles

theorem Matches.contains_of_isHidden (h : s.Matches m) (hidden : s.isHidden name = true) :
    s.contains name = true := by
  have hflag := (h.flags name).symm.trans hidden
  rw [h.shows.contains]
  cases hfile : m.get? name with
  | none =>
    rw [hfile] at hflag
    cases hflag
  | some file => rfl

theorem Matches.same {s' : FileSet} {m' : FileMap} {name' : String} (h : s.Matches m)
    (h' : s'.Matches m') (hfile : m'.get? name' = m.get? name) :
    s'.get? name' = s.get? name ∧ s'.isHidden name' = s.isHidden name := by
  have htext := h'.texts name'
  have hflag := h'.flags name'
  rw [hfile] at htext hflag
  exact ⟨htext.trans (h.texts name).symm, hflag.trans (h.flags name).symm⟩

theorem Matches.absent (h : s.Matches m) (hnone : m.get? name = none) :
    s.get? name = none ∧ s.isHidden name = false := by
  have htext := h.texts name
  have hflag := h.flags name
  rw [hnone] at htext hflag
  exact ⟨htext, hflag⟩

theorem Matches.moves (h : s.Matches m) (hdone : (s.rename source target).1 = true) :
    Moves s (s.rename source target).2 source target := by
  obtain ⟨hanswer, hrenamed⟩ := h.rename source target
  obtain ⟨file, hfile, hfree, heq⟩ := FileMap.rename_done (hanswer.symm.trans hdone)
  have hne : target ≠ source := fun hsame => by
    rw [hsame, hfile] at hfree
    cases hfree
  have hat (name : String) : (m.rename source target).2.get? name =
      if target = name then m.get? source else if source = name then none else m.get? name := by
    rw [heq, NameMap.get?_insert, NameMap.get?_erase, hfile]
  refine ⟨h.same hrenamed ?_, hrenamed.absent ?_, fun name hsource htarget => h.same hrenamed ?_⟩
  · rw [hat, if_pos rfl]
  · rw [hat, if_neg hne, if_pos rfl]
  · rw [hat, if_neg (Ne.symm htarget), if_neg (Ne.symm hsource)]

theorem Matches.drops (h : s.Matches m) (name : String) : Drops s (s.remove name).2 name := by
  obtain ⟨-, hremoved⟩ := h.remove name
  refine ⟨hremoved.absent ?_, fun other hother => h.same hremoved ?_⟩
  · exact (NameMap.get?_erase ..).trans (if_pos rfl)
  · exact (NameMap.get?_erase ..).trans (if_neg (Ne.symm hother))

theorem rename_refused (hrefused : (s.rename source target).1 = false) :
    (s.rename source target).2 = s := by
  by_cases htaken : s.files.get? source = none ∨ s.files.contains target = true
  · rw [rename_of_taken htaken]
  · rw [not_or] at htaken
    obtain ⟨text, htext⟩ := Option.ne_none_iff_exists'.mp htaken.1
    rw [rename_of_free htext (eq_false_of_ne_true htaken.2)] at hrefused
    cases hrefused

end Observers

/-- Whatever is done to a project from the start, it gives the answers of a single map from names to
texts with a flag, and all that can be seen of it is what can be seen of that map. So only files are
hidden; a file moves with its flag, or nothing changes; and nothing is left of one that is removed. -/
theorem run_shows_single_map (edits : List Edit) :
    let run := Edit.run FileSet.edit {} edits
    let single := Edit.run FileMap.edit .empty edits
    run.1 = single.1 ∧ run.2.Shows single.2 ∧
      (run.2.toList.Pairwise fun f g => f.1 < g.1) ∧
      (∀ name, run.2.isHidden name = true → run.2.contains name = true) ∧
      (∀ source target, (run.2.rename source target).1 = true →
        Moves run.2 (run.2.rename source target).2 source target) ∧
      (∀ source target, (run.2.rename source target).1 = false →
        (run.2.rename source target).2 = run.2) ∧
      ∀ name, Drops run.2 (run.2.remove name).2 name := by
  obtain ⟨hanswers, hmatches⟩ := matches_empty.run edits
  exact ⟨hanswers, hmatches.shows, NameMap.sorted _, fun _ => hmatches.contains_of_isHidden,
    fun _ _ => hmatches.moves, fun _ _ => rename_refused, hmatches.drops⟩

theorem hidden_file_takes_name :
    let run := Edit.run FileSet.edit {} [.collect [("a", "1"), ("c", "3")], .addDerived "b" "2",
      .rename "b" "a", .remove "a", .rename "b" "a"]
    run.1 = [none, none, some false, some true, some true] ∧ run.2.visible = [("c", "3")] ∧
      Moves run.2 (run.2.rename "a" "d").2 "a" "d" ∧ (run.2.rename "a" "c").2 = run.2 := by
  obtain ⟨hanswers, hshows, -, -, hmoves, hstays, -⟩ := run_shows_single_map
    [.collect [("a", "1"), ("c", "3")], .addDerived "b" "2", .rename "b" "a", .remove "a",
      .rename "b" "a"]
  exact ⟨hanswers.trans (by decide +kernel), hshows.visible.trans (by decide +kernel),
    hmoves "a" "d" (by decide +kernel), hstays "a" "c" (by decide +kernel)⟩

end FileSet

end Buildbox
