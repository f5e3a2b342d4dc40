import Buildbox.Proofs.Pipeline.Report

/-! The marks of a report: where its steps start and finish, and how it ends. A report has few
possible rows of marks, and nothing can follow a whole one. -/

namespace Buildbox

namespace Course

variable {n : Nat} {xs : List Exchange} {es more : List PipelineEvent} {ok : Bool}

def ends : PipelineEvent → Bool
  | .status .idle | .status .errored | .done => true
  | _ => false

def about (step : Step) : PipelineEvent → Bool
  | .stepStarted s | .stepFinished s _ _ => s = step
  | _ => false

def marks : PipelineEvent → Bool
  | .stepStarted _ | .stepFinished _ _ _ => true
  | e => ends e

theorem marks_of_about {step : Step} {e : PipelineEvent} (h : about step e) : marks e := by
  cases e with
  | stepStarted => rfl
  | stepFinished => rfl
  | _ => cases h

theorem marks_of_ends {e : PipelineEvent} (h : ends e) : marks e := by
  cases e with
  | status state => exact h
  | done => rfl
  | _ => cases h

def stepMarks (step : Step) (ok : Bool) : List PipelineEvent :=
  [.stepStarted step, finished step ok]

def ran : Option Build → Bool
  | some (.artifact _) => true
  | _ => false

/-- All rows of marks that a run can make. -/
def rows : List (List PipelineEvent) :=
  (stepMarks .transpile false ++ errored) ::
    [[], stepMarks .transpile true].flatMap fun before =>
      [before ++ stepMarks .compile false ++ errored,
        before ++ stepMarks .compile false ++ [.status .idle],
        before ++ stepMarks .compile true ++ stepMarks .execute true ++ [.status .idle, .done],
        before ++ stepMarks .compile true ++ stepMarks .execute false ++ [.status .idle, .done]]

section Phases

theorem filter_marks_diagnostics (lines : List String) :
    (lines.map PipelineEvent.diagnostic).filter marks = [] := by
  simp [marks, ends]

theorem Progress.filter_marks {k : Nat} (h : Progress n k xs es) :
    es.filter marks = [.stepStarted .transpile] := by
  induction h with
  | start => rfl
  | derived h hd ih => rw [List.filter_append, ih]; rfl

theorem TranspilePhase.filter_marks (h : TranspilePhase n ok xs es) :
    es.filter marks = stepMarks .transpile ok ∨ es.filter marks = [] ∧ ok = true := by
  cases h with
  | skipped => exact .inr ⟨rfl, rfl⟩
  | passed _ h => rw [List.filter_append, h.filter_marks]; exact .inl rfl
  | failed _ h =>
    rw [List.filter_append, h.filter_marks, List.filter_append, filter_marks_diagnostics]
    exact .inl rfl

theorem filter_marks_step {state : PipelineState} {step : Step} {said rest : List PipelineEvent}
    (hstate : marks (.status state) = false) (hsaid : said.filter marks = []) :
    (.status state :: .stepStarted step :: (said ++ rest)).filter marks =
      .stepStarted step :: rest.filter marks := by
  rw [List.filter_cons_of_neg (by simp [hstate]), List.filter_cons_of_pos rfl,
    List.filter_append, hsaid, List.nil_append]

theorem CompilePhase.filter_marks {build : Option Build} {answer : Answer CompileResponse}
    (h : CompilePhase build answer es) : es.filter marks = stepMarks .compile (ran build) := by
  cases h with
  | failed => exact filter_marks_step rfl (filter_marks_diagnostics _)
  | clean => exact filter_marks_step rfl (filter_marks_diagnostics _)
  | built => exact filter_marks_step rfl (filter_marks_diagnostics _)

theorem ExecutePhase.filter_marks {answer : Answer ExecuteResponse}
    (h : ExecutePhase answer es) : ∃ ok, es.filter marks = stepMarks .execute ok := by
  cases h with
  | @ended said ok hs =>
    refine ⟨ok, filter_marks_step rfl (List.filter_eq_nil_iff.mpr fun e he => ?_)⟩
    have hcaused := hs e he
    cases e with
    | log | preview | diagnostic => exact Bool.false_ne_true
    | _ => cases hcaused

end Phases

theorem Word.filter_marks (h : Word n xs es) : es.filter marks ∈ rows := by
  cases h with
  | transpileFailed ht =>
    rcases ht.filter_marks with ht | ⟨-, hok⟩
    · rw [List.filter_append, ht]
      decide
    · cases hok
  | compileFailed ht hc =>
    rw [List.filter_append, List.filter_append, hc.filter_marks]
    rcases ht.filter_marks with ht | ⟨ht, -⟩ <;> rw [ht] <;> decide
  | nothingBuilt ht hc =>
    rw [List.filter_append, List.filter_append, hc.filter_marks]
    rcases ht.filter_marks with ht | ⟨ht, -⟩ <;> rw [ht] <;> decide
  | @executed xs es request answer bytes _ _ _ ht hc he =>
    obtain ⟨ok, he⟩ := he.filter_marks
    have hran : ran (some (.artifact bytes)) = true := rfl
    rw [List.filter_append, List.filter_append, List.filter_append, hc.filter_marks, he, hran]
    rcases ht.filter_marks with ht | ⟨ht, -⟩ <;> rw [ht] <;> cases ok <;> decide

theorem Word.filter_about (h : Word n xs es) (step : Step) :
    es.filter (about step) = [] ∨ ∃ ok, es.filter (about step) = stepMarks step ok := by
  have hrows : ∀ row ∈ rows, row.filter (about step) ∈
      [[], stepMarks step true, stepMarks step false] := by
    cases step <;> decide
  have hmine : (es.filter marks).filter (about step) = es.filter (about step) := by
    rw [List.filter_filter]
    refine List.filter_congr fun e _ => ?_
    cases hab : about step e with
    | false => rfl
    | true => rw [marks_of_about hab]; rfl
  have hrow := hrows _ h.filter_marks
  rw [hmine] at hrow
  simp only [List.mem_cons, List.not_mem_nil, or_false] at hrow
  rcases hrow with hrow | hrow | hrow
  · exact .inl hrow
  · exact .inr ⟨true, hrow⟩
  · exact .inr ⟨false, hrow⟩

theorem not_ends_of_filter_marks {row : List PipelineEvent} (h : es.filter marks = row)
    (hrow : row.all (! ends ·)) : ∀ e ∈ es, ends e = false := by
  intro e he
  cases hends : ends e with
  | false => rfl
  | true =>
    have hmem : e ∈ row := h ▸ List.mem_filter.mpr ⟨he, marks_of_ends hends⟩
    have hnot := List.all_eq_true.mp hrow e hmem
    rw [hends] at hnot
    cases hnot

theorem TranspilePhase.not_ends (h : TranspilePhase n ok xs es) : ∀ e ∈ es, ends e = false := by
  rcases h.filter_marks with h | ⟨h, -⟩
  · exact not_ends_of_filter_marks h rfl
  · exact not_ends_of_filter_marks h rfl

theorem CompilePhase.not_ends {build : Option Build} {answer : Answer CompileResponse}
    (h : CompilePhase build answer es) : ∀ e ∈ es, ends e = false :=
  not_ends_of_filter_marks h.filter_marks rfl

theorem ExecutePhase.not_ends {answer : Answer ExecuteResponse} (h : ExecutePhase answer es) :
    ∀ e ∈ es, ends e = false := by
  obtain ⟨_, h⟩ := h.filter_marks
  exact not_ends_of_filter_marks h rfl

theorem Word.ending (h : Word n xs es) :
    ∃ body tail, es = body ++ tail ∧ (∀ e ∈ body, ends e = false) ∧
      tail ∈ [errored, [.status .idle], [.status .idle, .done]] := by
  cases h with
  | transpileFailed ht => exact ⟨_, errored, rfl, ht.not_ends, by decide⟩
  | compileFailed ht hc =>
    exact ⟨_, errored, rfl, List.forall_mem_append.mpr ⟨ht.not_ends, hc.not_ends⟩, by decide⟩
  | nothingBuilt ht hc =>
    exact ⟨_, [.status .idle], rfl, List.forall_mem_append.mpr ⟨ht.not_ends, hc.not_ends⟩,
      by decide⟩
  | executed ht hc he =>
    refine ⟨_, [.status .idle, .done], rfl, ?_, by decide⟩
    rw [List.forall_mem_append, List.forall_mem_append]
    exact ⟨⟨ht.not_ends, hc.not_ends⟩, he.not_ends⟩

theorem Word.getLast? (h : Word n xs es) : ∃ e, es.getLast? = some e ∧ marks e := by
  obtain ⟨body, tail, rfl, -, htail⟩ := h.ending
  simp only [List.mem_cons, List.not_mem_nil, or_false] at htail
  rcases htail with rfl | rfl | rfl
  · exact ⟨.status .idle, List.getLast?_append, rfl⟩
  · exact ⟨.status .idle, List.getLast?_append, rfl⟩
  · exact ⟨.done, List.getLast?_append, rfl⟩

theorem Word.whole {m : Nat} {ys : List Exchange} (h : Word n xs es) (h' : Word m ys (es ++ more)) :
    more = [] := by
  have hrows : ∀ row ∈ rows, ∀ row' ∈ rows, row <+: row' → row = row' := by decide
  have hsame : es.filter marks = (es ++ more).filter marks := by
    refine hrows _ h.filter_marks _ h'.filter_marks ?_
    rw [List.filter_append]
    exact List.prefix_append _ _
  have hmore : more.filter marks = [] := by
    rwa [List.filter_append, List.self_eq_append_right] at hsame
  rcases more.eq_nil_or_concat with rfl | ⟨init, e, rfl⟩
  · rfl
  · obtain ⟨e', hlast, he⟩ := h'.getLast?
    rw [List.concat_eq_append, List.getLast?_append, List.getLast?_concat] at hlast
    obtain rfl : e = e' := Option.some.inj hlast
    exact absurd he (List.filter_eq_nil_iff.mp hmore e (by simp))

end Course

end Buildbox
