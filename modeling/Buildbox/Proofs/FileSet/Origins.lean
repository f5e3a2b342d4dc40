import Buildbox.Proofs.FileSet.SingleMap
import Mathlib.Data.List.Induction

/-! Where the texts of a project come from. A file is hidden when the transpiler wrote it, and is
shown once the user puts another one in its place. Changing its text leaves it hidden, so that a file
is hidden exactly if it is the transpiler's when changes are left out of account. -/

namespace Buildbox

/-- Who wrote the text of a file: the user, who put the file there or changed it, or the
transpiler. -/
inductive Origin where
  | put
  | changed
  | derived
  deriving DecidableEq, Repr

abbrev History := List (Edit × Option Bool)

inductive Came where
  | written (origin : Origin)
  | absent
  | was (name : String)

def Edit.came : Edit → (answer : Option Bool) → String → Came
  | .add other _, _, name => if other = name then .written .put else .was name
  | .addDerived other _, _, name => if other = name then .written .derived else .was name
  | .update other _, answer, name =>
    if other = name ∧ answer = some true then .written .changed else .was name
  | .remove other, _, name => if other = name then .absent else .was name
  | .rename source target, answer, name =>
    if answer = some true then
      if target = name then .was source else if source = name then .absent else .was name
    else .was name
  | .collect files, _, name => if name ∈ files.map (·.1) then .written .put else .absent

/-- Who wrote the text of the file of a name last, following back what it was renamed from. -/
def History.origin? : History → String → Option Origin
  | [], _ => none
  | (e, answer) :: past, name =>
    match e.came answer name with
    | .written origin => some origin
    | .absent => none
    | .was earlier => origin? past earlier

def Edit.isUpdate : Edit → Bool
  | .update .. => true
  | _ => false

def History.withoutUpdates (past : History) : History :=
  past.filter fun p => ! p.1.isUpdate

def Edit.history {σ : Type} (step : σ → Edit → Option Bool × σ) (s : σ) (edits : List Edit) :
    History :=
  (edits.zip (run step s edits).1).reverse

section Runs

variable {σ : Type} {step : σ → Edit → Option Bool × σ} {s : σ}

theorem Edit.run_concat (edits : List Edit) (e : Edit) :
    run step s (edits ++ [e]) =
      ((run step s edits).1 ++ [(step (run step s edits).2 e).1], (step (run step s edits).2 e).2) := by
  induction edits generalizing s with
  | nil => rfl
  | cons first edits ih =>
    simp only [List.cons_append, run, ih]

theorem Edit.length_run (edits : List Edit) : (run step s edits).1.length = edits.length := by
  induction edits generalizing s with
  | nil => rfl
  | cons first edits ih =>
    rw [run, List.length_cons, List.length_cons, ih]

theorem Edit.history_concat (edits : List Edit) (e : Edit) :
    history step s (edits ++ [e]) =
      (e, (step (run step s edits).2 e).1) :: history step s edits := by
  rw [history, run_concat, List.zip_append (length_run edits).symm, List.reverse_append]
  rfl

end Runs

namespace History

variable {past : History} {name : String} {e : Edit} {answer : Option Bool} {origin : Origin}

theorem withoutUpdates_cons_update (other text : String) :
    withoutUpdates ((.update other text, answer) :: past) = past.withoutUpdates :=
  rfl

theorem withoutUpdates_cons (he : e.isUpdate = false) :
    withoutUpdates ((e, answer) :: past) = (e, answer) :: past.withoutUpdates :=
  List.filter_cons_of_pos (by rw [he]; rfl)

theorem came_update (other text name : String) (answer : Option Bool) :
    (Edit.update other text).came answer name = .written .changed ∨
      (Edit.update other text).came answer name = .was name := by
  rw [Edit.came]
  split
  · exact .inl rfl
  · exact .inr rfl

theorem isUpdate_eq_false (h : ¬ ∃ other text, e = .update other text) : e.isUpdate = false := by
  cases e with
  | update other text => exact absurd ⟨other, text, rfl⟩ h
  | _ => rfl

theorem update_of_changed (h : e.came answer name = .written .changed) :
    ∃ text, e = .update name text := by
  cases e with
  | update other text =>
    rw [Edit.came] at h
    split at h
    · next hname => exact ⟨text, by rw [hname.1]⟩
    · cases h
  | rename source target =>
    rw [Edit.came] at h
    split at h
    · split at h
      · cases h
      · split at h <;> cases h
    · cases h
  | _ =>
    rw [Edit.came] at h
    split at h <;> cases h

theorem origin?_of_was {earlier : String} (h : e.came answer name = .was earlier) :
    origin? ((e, answer) :: past) name = past.origin? earlier := by
  rw [origin?, h]

theorem origin?_withoutUpdates (h : past.origin? name = some origin) (hne : origin ≠ .changed) :
    past.withoutUpdates.origin? name = some origin := by
  induction past generalizing name with
  | nil => cases h
  | cons p past ih =>
    obtain ⟨e, answer⟩ := p
    by_cases hupdate : ∃ other text, e = .update other text
    · obtain ⟨other, text, rfl⟩ := hupdate
      rw [withoutUpdates_cons_update]
      obtain hcame | hcame := came_update other text name answer
      · rw [origin?, hcame] at h
        exact absurd (Option.some.inj h).symm hne
      · exact ih ((origin?_of_was hcame).symm.trans h)
    · rw [withoutUpdates_cons (isUpdate_eq_false hupdate)]
      rw [origin?] at h ⊢
      cases hcame : e.came answer name with
      | written other =>
        rw [hcame] at h
        exact h
      | absent =>
        rw [hcame] at h
        cases h
      | was earlier =>
        rw [hcame] at h
        exact ih h

end History

namespace FileMap

variable {m : FileMap} {past : History} {name : String}

def flag? (m : FileMap) (name : String) : Option Bool :=
  (m.get? name).map (·.hidden)

theorem flag?_insert (other : String) (file : ProjectFile) :
    flag? (m.insert other file) name = if other = name then some file.hidden else flag? m name := by
  rw [flag?, NameMap.get?_insert]
  split <;> rfl

theorem flag?_erase (other : String) :
    flag? (m.erase other) name = if other = name then none else flag? m name := by
  rw [flag?, NameMap.get?_erase]
  split <;> rfl

theorem flag?_ofList (files : List (String × String)) :
    flag? (ofList files) name = if name ∈ files.map (·.1) then some false else none := by
  have hfrom (m : FileMap) : flag? (m.insertAll (files.map fun f => (f.1, ⟨f.2, false⟩))) name =
      if name ∈ files.map (·.1) then some false else flag? m name := by
    induction files generalizing m with
    | nil => rfl
    | cons f files ih =>
      refine (ih _).trans ?_
      simp only [flag?_insert, List.map_cons, List.mem_cons]
      by_cases hname : name = f.1
      · simp [hname]
      · simp only [or_iff_right hname, if_neg (Ne.symm hname)]
  exact hfrom .empty

def FlagAfter (m : FileMap) (name : String) (flag : Option Bool) : Came → Prop
  | .written .put => flag = some false
  | .written .derived => flag = some true
  | .written .changed => flag = flag? m name ∧ flag.isSome
  | .absent => flag = none
  | .was earlier => flag = flag? m earlier

theorem flagAfter_edit (m : FileMap) (e : Edit) (name : String) :
    m.FlagAfter name (flag? (m.edit e).2 name) (e.came (m.edit e).1 name) := by
  cases e with
  | add other text | addDerived other text =>
    dsimp only [edit, Edit.came]
    rw [flag?_insert]
    split <;> rfl
  | remove other =>
    change m.FlagAfter name (flag? (m.erase other) name) _
    rw [flag?_erase, Edit.came]
    split <;> rfl
  | update other text =>
    cases hfile : m.get? other with
    | none =>
      have hedit : m.edit (.update other text) = (some false, m) := by
        simp only [edit, FileMap.update, hfile, Prod.map, id]
      rw [hedit, Edit.came, if_neg (by simp)]
      rfl
    | some file =>
      have hedit : m.edit (.update other text) =
          (some true, m.insert other { file with text }) := by
        simp only [edit, FileMap.update, hfile, Prod.map, id]
      rw [hedit, Edit.came, flag?_insert]
      by_cases hname : other = name
      · subst hname
        rw [if_pos rfl, if_pos ⟨rfl, rfl⟩]
        exact ⟨by rw [flag?, hfile]; rfl, rfl⟩
      · rw [if_neg hname, if_neg fun h => hname h.1]
        rfl
  | rename source target =>
    cases hdone : (m.rename source target).1 with
    | false =>
      have hedit : m.edit (.rename source target) = (some false, m) := by
        simp only [edit, Prod.map, hdone, rename_kept hdone, id]
      rw [hedit, Edit.came, if_neg (by simp)]
      rfl
    | true =>
      obtain ⟨file, hfile, -, heq⟩ := rename_done hdone
      have hedit : m.edit (.rename source target) =
          (some true, (m.erase source).insert target file) := by
        simp only [edit, Prod.map, hdone, heq, id]
      have hflag : flag? m source = some file.hidden := by
        rw [flag?, hfile]
        rfl
      rw [hedit, Edit.came, if_pos rfl, flag?_insert, flag?_erase]
      split
      · exact hflag.symm
      · split <;> rfl
  | collect files =>
    change m.FlagAfter name (flag? (ofList files) name) _
    rw [flag?_ofList, Edit.came]
    split <;> rfl

structure Follows (m : FileMap) (past : History) : Prop where
  kept : ∀ name, (flag? m name).isSome = (past.origin? name).isSome
  hidden : ∀ name, flag? m name = (past.withoutUpdates.origin? name).map (· == .derived)

theorem Follows.edit (h : m.Follows past) (e : Edit) :
    Follows (m.edit e).2 ((e, (m.edit e).1) :: past) := by
  constructor
  · intro name
    have hflag := flagAfter_edit m e name
    rw [History.origin?]
    cases hcame : e.came (m.edit e).1 name with
    | written origin =>
      rw [hcame] at hflag
      cases origin with
      | put | derived => exact congrArg Option.isSome hflag
      | changed => exact hflag.2
    | absent =>
      rw [hcame] at hflag
      exact congrArg Option.isSome hflag
    | was earlier =>
      rw [hcame] at hflag
      exact (congrArg Option.isSome hflag).trans (h.kept earlier)
  · intro name
    have hflag := flagAfter_edit m e name
    by_cases hupdate : ∃ other text, e = .update other text
    · obtain ⟨other, text, rfl⟩ := hupdate
      rw [History.withoutUpdates_cons_update, ← h.hidden]
      obtain hcame | hcame := History.came_update other text name (m.edit (.update other text)).1
      · rw [hcame] at hflag
        exact hflag.1
      · rw [hcame] at hflag
        exact hflag
    · rw [History.withoutUpdates_cons (History.isUpdate_eq_false hupdate), History.origin?]
      cases hcame : e.came (m.edit e).1 name with
      | written origin =>
        rw [hcame] at hflag
        cases origin with
        | put | derived => exact hflag
        | changed =>
          obtain ⟨text, rfl⟩ := History.update_of_changed hcame
          exact absurd ⟨name, text, rfl⟩ hupdate
      | absent =>
        rw [hcame] at hflag
        exact hflag
      | was earlier =>
        rw [hcame] at hflag
        exact hflag.trans (h.hidden earlier)

theorem follows_run (edits : List Edit) :
    Follows (Edit.run FileMap.edit .empty edits).2 (Edit.history FileMap.edit .empty edits) := by
  induction edits using List.reverseRecOn with
  | nil => exact ⟨fun _ => rfl, fun _ => rfl⟩
  | append_singleton edits e ih =>
    rw [Edit.history_concat, Edit.run_concat]
    exact ih.edit e

end FileMap

namespace FileSet

variable {s : FileSet} {m : FileMap} {name : String} {edits : List Edit}

/-- No text is changed while its file is hidden. -/
def SparesHidden (edits : List Edit) : Prop :=
  ∀ before name text after, edits = before ++ .update name text :: after →
    (Edit.run FileSet.edit {} before).2.isHidden name = false

theorem Matches.isHidden_iff (h : s.Matches m) :
    s.isHidden name = true ↔ FileMap.flag? m name = some true := by
  have hflag : s.isHidden name = (m.get? name).any (·.hidden) := h.flags name
  rw [hflag, FileMap.flag?]
  cases m.get? name <;> simp

theorem history_eq (edits : List Edit) :
    Edit.history FileSet.edit {} edits = Edit.history FileMap.edit .empty edits := by
  rw [Edit.history, Edit.history, (matches_empty.run edits).1]

theorem mem_visible (hcontains : s.contains name = true) (hshown : s.isHidden name = false) :
    name ∈ s.visible.map (·.1) := by
  obtain ⟨text, htext⟩ := Option.isSome_iff_exists.mp hcontains
  refine List.mem_map.mpr ⟨(name, text), List.mem_filter.mpr ⟨?_, ?_⟩, rfl⟩
  · exact NameMap.get?_eq_some.mp htext
  · exact congrArg not hshown

theorem SparesHidden.of_concat {e : Edit} (h : SparesHidden (edits ++ [e])) :
    SparesHidden edits ∧ ∀ name text, e = .update name text →
      (Edit.run FileSet.edit {} edits).2.isHidden name = false := by
  refine ⟨fun before name text after heq => ?_, fun name text he => ?_⟩
  · exact h before name text (after ++ [e]) (by rw [heq, List.append_assoc, List.cons_append])
  · exact h edits name text [] (by rw [he])

theorem flag?_of_changed (hspares : SparesHidden edits) (name : String)
    (h : (Edit.history FileMap.edit .empty edits).origin? name = some .changed) :
    FileMap.flag? (Edit.run FileMap.edit .empty edits).2 name = some false := by
  induction edits using List.reverseRecOn generalizing name with
  | nil => cases h
  | append_singleton edits e ih =>
    obtain ⟨hbefore, hlast⟩ := hspares.of_concat
    rw [Edit.history_concat, History.origin?] at h
    rw [Edit.run_concat]
    have hflag := FileMap.flagAfter_edit (Edit.run FileMap.edit .empty edits).2 e name
    cases hcame : e.came (FileMap.edit (Edit.run FileMap.edit .empty edits).2 e).1 name with
    | written origin =>
      rw [hcame] at h hflag
      cases h
      obtain ⟨text, rfl⟩ := History.update_of_changed hcame
      obtain ⟨hkept, hsome⟩ := hflag
      have hshown := hlast name text rfl
      rw [← Bool.not_eq_true, (matches_empty.run edits).2.isHidden_iff, ← hkept] at hshown
      obtain ⟨hidden, hidden_eq⟩ := Option.isSome_iff_exists.mp hsome
      rw [hidden_eq] at hshown ⊢
      cases hidden with
      | false => rfl
      | true => exact absurd rfl hshown
    | absent =>
      rw [hcame] at h
      cases h
    | was earlier =>
      rw [hcame] at h hflag
      exact hflag.trans (ih hbefore earlier h)

theorem contains_run (edits : List Edit) (name : String) :
    (Edit.run FileSet.edit {} edits).2.contains name =
      ((Edit.history FileSet.edit {} edits).origin? name).isSome := by
  rw [history_eq, ← (FileMap.follows_run edits).kept, FileMap.flag?, Option.isSome_map]
  exact (matches_empty.run edits).2.contains name

theorem isHidden_run_iff :
    (Edit.run FileSet.edit {} edits).2.isHidden name = true ↔
      (Edit.history FileSet.edit {} edits).withoutUpdates.origin? name = some .derived := by
  rw [(matches_empty.run edits).2.isHidden_iff, (FileMap.follows_run edits).hidden, ← history_eq]
  cases (Edit.history FileSet.edit {} edits).withoutUpdates.origin? name <;> simp

theorem hidden_of_derived
    (h : (Edit.history FileSet.edit {} edits).origin? name = some .derived) :
    (Edit.run FileSet.edit {} edits).2.isHidden name = true :=
  isHidden_run_iff.mpr (History.origin?_withoutUpdates h (by decide))

theorem shown_of_put (h : (Edit.history FileSet.edit {} edits).origin? name = some .put) :
    (Edit.run FileSet.edit {} edits).2.isHidden name = false := by
  rw [← Bool.not_eq_true, isHidden_run_iff, History.origin?_withoutUpdates h (by decide)]
  simp

theorem shown_of_changed (hspares : SparesHidden edits)
    (h : (Edit.history FileSet.edit {} edits).origin? name = some .changed) :
    (Edit.run FileSet.edit {} edits).2.isHidden name = false := by
  rw [history_eq] at h
  rw [← Bool.not_eq_true, (matches_empty.run edits).2.isHidden_iff, flag?_of_changed hspares name h]
  simp

theorem listed_of_shown {origin : Origin}
    (h : (Edit.history FileSet.edit {} edits).origin? name = some origin)
    (hshown : (Edit.run FileSet.edit {} edits).2.isHidden name = false) :
    name ∈ (Edit.run FileSet.edit {} edits).2.visible.map (·.1) := by
  refine mem_visible ?_ hshown
  rw [contains_run, h]
  rfl

theorem derived_of_hidden (hspares : SparesHidden edits)
    (hidden : (Edit.run FileSet.edit {} edits).2.isHidden name = true) :
    (Edit.history FileSet.edit {} edits).origin? name = some .derived := by
  cases horigin : (Edit.history FileSet.edit {} edits).origin? name with
  | none =>
    have hcontains := (matches_empty.run edits).2.contains_of_isHidden hidden
    rw [contains_run, horigin] at hcontains
    cases hcontains
  | some origin =>
    cases origin with
    | put => exact absurd hidden (ne_true_of_eq_false (shown_of_put horigin))
    | changed => exact absurd hidden (ne_true_of_eq_false (shown_of_changed hspares horigin))
    | derived => rfl

/-- A file is hidden exactly if the transpiler wrote it last when changes of texts are left out of
account. So the transpiler's own text is hidden and a file that the user put there is listed; a text
that was changed is hidden or not as the one before it. Where no hidden text is ever changed, just
the transpiler's texts are hidden, and all that the user wrote is listed. -/
theorem hidden_iff_derived_unless_changed (edits : List Edit) :
    let s := (Edit.run FileSet.edit {} edits).2
    let past := Edit.history FileSet.edit {} edits
    (∀ name, s.contains name = (past.origin? name).isSome) ∧
      (∀ name, s.isHidden name = true ↔ past.withoutUpdates.origin? name = some .derived) ∧
      (∀ name, past.origin? name = some .derived → s.isHidden name = true) ∧
      (∀ name, past.origin? name = some .put → name ∈ s.visible.map (·.1)) ∧
      (SparesHidden edits → ∀ name,
        (s.isHidden name = true ↔ past.origin? name = some .derived) ∧
          (past.origin? name = some .put ∨ past.origin? name = some .changed →
            name ∈ s.visible.map (·.1))) := by
  intro s past
  refine ⟨contains_run edits, fun name => isHidden_run_iff, fun name => hidden_of_derived,
    fun name h => listed_of_shown h (shown_of_put h), fun hspares name => ⟨?_, ?_⟩⟩
  · exact ⟨derived_of_hidden hspares, hidden_of_derived⟩
  · rintro (h | h)
    · exact listed_of_shown h (shown_of_put h)
    · exact listed_of_shown h (shown_of_changed hspares h)

theorem listed_after_change :
    let edits : List Edit := [.collect [("main.zig", "a")], .addDerived "Page.zig" "b",
      .update "main.zig" "c", .rename "Page.zig" "Home.zig"]
    let s := (Edit.run FileSet.edit {} edits).2
    SparesHidden edits ∧ s.isHidden "Home.zig" = true ∧ "main.zig" ∈ s.visible.map (·.1) := by
  intro edits s
  have hspares : SparesHidden edits := by
    rintro (_ | ⟨_, _ | ⟨_, _ | ⟨_, _ | ⟨_, before⟩⟩⟩⟩) name text after h <;> simp [edits] at h
    obtain ⟨rfl, rfl, ⟨rfl, rfl⟩, -⟩ := h
    decide +kernel
  obtain ⟨-, -, -, -, hall⟩ := hidden_iff_derived_unless_changed edits
  refine ⟨hspares, (hall hspares "Home.zig").1.mpr (by decide +kernel), ?_⟩
  exact (hall hspares "main.zig").2 (.inr (by decide +kernel))

theorem changed_output_stays_hidden :
    let edits : List Edit :=
      [.addDerived "Page.zig" "// generated", .update "Page.zig" "// by hand"]
    let s := (Edit.run FileSet.edit {} edits).2
    (Edit.history FileSet.edit {} edits).origin? "Page.zig" = some .changed ∧
      s.get? "Page.zig" = some "// by hand" ∧ s.isHidden "Page.zig" = true ∧ s.visible = [] := by
  decide +kernel

end FileSet

end Buildbox
