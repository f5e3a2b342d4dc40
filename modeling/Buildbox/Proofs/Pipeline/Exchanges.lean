import Buildbox.Pipeline.Course

/-! What is said in a run, whatever the workers answer. `Runs` has a rule for every way in which a
dialogue goes on; holding it with a crew is one of these ways. -/

namespace Buildbox

/-- A request with what became of it. -/
inductive Exchange where
  | transpile (request : TranspileRequest) (answer : Answer TranspileResponse)
  | compile (request : CompileRequest) (answer : Answer CompileResponse)
  | execute (request : ExecuteRequest) (answer : Answer ExecuteResponse)

namespace Dialogue

variable {α γ τ : Type} {d : Dialogue α} {xs : List Exchange} {es : List PipelineEvent} {a : α}

/-- `d.Runs xs es a`: answered as in the exchanges `xs`, the dialogue reports `es` and ends
with `a`. -/
inductive Runs : Dialogue α → List Exchange → List PipelineEvent → α → Prop where
  | done (a : α) : Runs (.done a) [] [] a
  | report {event next xs es a} (h : Runs next xs es a) :
    Runs (.report event next) xs (event :: es) a
  | transpile {request next answer xs es a} (h : Runs (next answer) xs es a) :
    Runs (.transpile request next) (.transpile request answer :: xs) es a
  | compile {request next answer xs es a} (h : Runs (next answer) xs es a) :
    Runs (.compile request next) (.compile request answer :: xs) es a
  | execute {request next answer xs es a} (h : Runs (next answer) xs es a) :
    Runs (.execute request next) (.execute request answer :: xs) es a

def exchanges (crew : Crew τ) : Dialogue α → τ → List Exchange
  | done _, _ => []
  | report _ next, s => next.exchanges crew s
  | transpile request next, s =>
    let (answer, s) := crew.transpile request s
    .transpile request answer :: (next answer).exchanges crew s
  | compile request next, s =>
    let (answer, s) := crew.compile request s
    .compile request answer :: (next answer).exchanges crew s
  | execute request next, s =>
    let (answer, s) := crew.execute request s
    .execute request answer :: (next answer).exchanges crew s

theorem runs_hold (crew : Crew τ) (d : Dialogue α) (s : τ) :
    d.Runs (d.exchanges crew s) (d.hold crew s).1.1 (d.hold crew s).1.2 := by
  induction d generalizing s with
  | done a => exact .done a
  | report event next ih => exact .report (ih s)
  | transpile request next ih => exact .transpile (ih _ _)
  | compile request next ih => exact .compile (ih _ _)
  | execute request next ih => exact .execute (ih _ _)

section Inversion

variable {c : γ}

theorem Runs.pure {b : α} (h : (pure b : Dialogue α).Runs xs es a) :
    xs = [] ∧ es = [] ∧ a = b := by
  cases h
  exact ⟨rfl, rfl, rfl⟩

theorem Runs.bind {k : α → Dialogue γ} (h : (d >>= k).Runs xs es c) :
    ∃ xs₁ es₁ a xs₂ es₂, d.Runs xs₁ es₁ a ∧ (k a).Runs xs₂ es₂ c ∧
      xs = xs₁ ++ xs₂ ∧ es = es₁ ++ es₂ := by
  change (d.bind k).Runs xs es c at h
  induction d generalizing xs es with
  | done b => exact ⟨[], [], b, xs, es, .done b, h, rfl, rfl⟩
  | report event next ih =>
    cases h with
    | report h =>
      obtain ⟨xs₁, es₁, a, xs₂, es₂, hfirst, hrest, rfl, rfl⟩ := ih h
      exact ⟨xs₁, event :: es₁, a, xs₂, es₂, .report hfirst, hrest, rfl, rfl⟩
  | transpile request next ih =>
    cases h with
    | transpile h =>
      obtain ⟨xs₁, es₁, a, xs₂, es₂, hfirst, hrest, rfl, rfl⟩ := ih _ h
      exact ⟨_ :: xs₁, es₁, a, xs₂, es₂, .transpile hfirst, hrest, rfl, rfl⟩
  | compile request next ih =>
    cases h with
    | compile h =>
      obtain ⟨xs₁, es₁, a, xs₂, es₂, hfirst, hrest, rfl, rfl⟩ := ih _ h
      exact ⟨_ :: xs₁, es₁, a, xs₂, es₂, .compile hfirst, hrest, rfl, rfl⟩
  | execute request next ih =>
    cases h with
    | execute h =>
      obtain ⟨xs₁, es₁, a, xs₂, es₂, hfirst, hrest, rfl, rfl⟩ := ih _ h
      exact ⟨_ :: xs₁, es₁, a, xs₂, es₂, .execute hfirst, hrest, rfl, rfl⟩

theorem Runs.reportAll {events : List PipelineEvent} {u : Unit}
    (h : (reportAll events).Runs xs es u) : xs = [] ∧ es = events := by
  induction events generalizing es with
  | nil =>
    cases h
    exact ⟨rfl, rfl⟩
  | cons event rest ih =>
    cases h with
    | report h =>
      obtain ⟨rfl, rfl⟩ := ih h
      exact ⟨rfl, rfl⟩

theorem Runs.reportAll_bind {events : List PipelineEvent} {k : Unit → Dialogue α}
    (h : (Dialogue.reportAll events >>= k).Runs xs es a) :
    ∃ rest, (k ()).Runs xs rest a ∧ es = events ++ rest := by
  obtain ⟨_, _, _, _, rest, hfirst, hrest, rfl, rfl⟩ := h.bind
  obtain ⟨rfl, rfl⟩ := hfirst.reportAll
  exact ⟨rest, hrest, rfl⟩

end Inversion

end Dialogue

end Buildbox
