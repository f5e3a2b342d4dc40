import Buildbox.Proofs.Pipeline.Driving
import Buildbox.Proofs.Pipeline.Marks

/-! Whoever drives a run, it is reported by one word: a crew that answers whatever it likes, the
workers of a pipeline, or a driver among other tasks. -/

namespace Buildbox

/-- What the driver has said so far is how the dialogue can go; so is all that it can still say. -/
def Driver.Follows (d : Driver) (c : Dialogue (List PipelineEvent)) : Prop :=
  match d.turn with
  | .speaking rest => ∀ xs es last, rest.Runs xs es last → ∃ ys, c.Runs ys (d.said ++ es) last
  | .waiting _ _ next =>
    ∀ answer xs es last, (next answer).Runs xs es last → ∃ ys, c.Runs ys (d.said ++ es) last
  | .parting rest => ∃ xs es last, c.Runs xs es last ∧ es ++ last = d.said ++ rest
  | .gone => ∃ xs es last, c.Runs xs es last ∧ es ++ last = d.said

namespace Floor

variable {σ β : Type} {w : Workshop σ β} {f : Floor σ β} {d : Driver} {run : Nat}

section Following

variable {c : Dialogue (List PipelineEvent)} {said : List PipelineEvent} {step : Step}

theorem follows_withDriver {d' : Driver} (h : d'.Follows c) :
    ∀ e ∈ (f.withDriver run d').drivers, e ∈ f.drivers ∨ e.Follows c := by
  intro e he
  rcases List.mem_or_eq_of_mem_set he with he | rfl
  · exact .inl he
  · exact .inr h

theorem follows_post {request : step.Request}
    {next : Answer step.Response → Dialogue (List PipelineEvent)}
    (h : ∀ answer xs es last, (next answer).Runs xs es last → ∃ ys, c.Runs ys (said ++ es) last) :
    ∀ e ∈ (f.post run said step request next).drivers, e ∈ f.drivers ∨ e.Follows c := by
  intro e he
  have hwaits : Driver.Follows ⟨said, .waiting step ((f.mailbox step).post request).1 next⟩ c := h
  have hposted := follows_withDriver hwaits e he
  rwa [drivers_withMailbox] at hposted

theorem follows_go (h : d.Follows c) : ∀ e ∈ (f.go run d).drivers, e ∈ f.drivers ∨ e.Follows c := by
  obtain ⟨said, turn⟩ := d
  cases turn with
  | speaking rest =>
    cases rest with
    | done last =>
      obtain ⟨ys, hys⟩ := h [] [] last (.done last)
      exact follows_withDriver ⟨ys, _, last, hys, by rw [List.append_nil]⟩
    | report event next =>
      refine follows_withDriver fun xs es last hnext => ?_
      rw [List.append_assoc]
      exact h xs (event :: es) last (.report hnext)
    | transpile request next =>
      exact follows_post fun answer xs es last hnext => h _ es last (.transpile hnext)
    | compile request next =>
      exact follows_post fun answer xs es last hnext => h _ es last (.compile hnext)
    | execute request next =>
      exact follows_post fun answer xs es last hnext => h _ es last (.execute hnext)
  | waiting step ticket next =>
    unfold go
    dsimp only
    split
    · exact follows_withDriver (h _)
    · exact fun e he => .inl he
  | parting rest =>
    obtain ⟨xs, es, last, hruns, heq⟩ := h
    cases rest with
    | nil => exact follows_withDriver ⟨xs, es, last, hruns, heq.trans (List.append_nil _)⟩
    | cons event rest =>
      refine follows_withDriver ⟨xs, es, last, hruns, heq.trans ?_⟩
      rw [List.append_assoc]
      rfl
  | gone => exact fun e he => .inl he

def AllFollow (w : Workshop σ β) (f : Floor σ β) (past : List Action) : Prop :=
  ∀ d ∈ f.drivers, ∃ files, .ask files ∈ past ∧
    d.Follows (Course.run w.config.transpile.sourceExt files)

variable {past : List Action}

theorem allFollow_act (h : AllFollow w f past) (action : Action) :
    AllFollow w (f.act w action) (past ++ [action]) := by
  have hold (d : Driver) (hd : d ∈ f.drivers) : ∃ files, .ask files ∈ past ++ [action] ∧
      d.Follows (Course.run w.config.transpile.sourceExt files) := by
    obtain ⟨files, hmem, hfollows⟩ := h d hd
    exact ⟨files, List.mem_append_left _ hmem, hfollows⟩
  intro d hd
  cases action with
  | ask files =>
    unfold act ask Pipeline.admitRun at hd
    cases hflight : f.pipeline.inFlight with
    | true =>
      rw [hflight] at hd
      exact hold d hd
    | false =>
      rw [hflight] at hd
      rcases List.mem_append.mp hd with hd | hd
      · exact hold d hd
      · obtain rfl := List.mem_singleton.mp hd
        exact ⟨files, by simp, fun xs es last hruns => ⟨xs, hruns⟩⟩
  | advance run =>
    unfold act at hd
    cases hrun : f.drivers[run]? with
    | none =>
      dsimp only at hd
      rw [advance_of_none hrun] at hd
      exact hold d hd
    | some b =>
      dsimp only at hd
      rw [advance_of_get hrun] at hd
      obtain ⟨files, hmem, hfollows⟩ := h b (List.mem_of_getElem? hrun)
      rcases follows_go hfollows d hd with hd | hd
      · exact hold d hd
      · exact ⟨files, List.mem_append_left _ hmem, hd⟩
  | take step =>
    unfold act at hd
    dsimp only at hd
    rw [drivers_take] at hd
    exact hold d hd
  | work step ticket =>
    unfold act at hd
    dsimp only at hd
    rw [drivers_work] at hd
    exact hold d hd

theorem allFollow_actAll (h : AllFollow w f past) (actions : List Action) :
    AllFollow w (f.actAll w actions) (past ++ actions) := by
  induction actions generalizing f past with
  | nil => rwa [List.append_nil]
  | cons action rest ih =>
    have hrest := ih (allFollow_act h action)
    rwa [List.append_assoc] at hrest

theorem word_of_gone {toolchain : Toolchain σ} {sandbox : β} {actions : List Action}
    (hd : d ∈ ((start toolchain sandbox).actAll w actions).drivers) (hgone : d.turn = .gone) :
    ∃ files, .ask files ∈ actions ∧
      ∃ xs, Course.Word (Course.sources w.config.transpile.sourceExt files).length xs d.said := by
  have hstart : AllFollow w (start toolchain sandbox) [] := fun _ hd => absurd hd List.not_mem_nil
  obtain ⟨files, hmem, hfollows⟩ := allFollow_actAll hstart actions d hd
  unfold Driver.Follows at hfollows
  rw [hgone] at hfollows
  obtain ⟨xs, es, last, hruns, heq⟩ := hfollows
  exact ⟨files, hmem, xs, heq ▸ Course.run_word hruns⟩

end Following

end Floor

open Course in
/-- Whatever the workers answer, and whether or not their requests can be posted, a run is
reported by one word: the events of its phases, then one of the endings. So it is with the workers
of a pipeline, and for a driver that is done among other tasks. A word starts and finishes each
step at most once, ends the run only at its end, and nothing can follow it. -/
theorem reported_by_word {σ β τ : Type} :
    (∀ (crew : Crew τ) ext files s,
      let r := ((run ext files).hold crew s).1
      Word (sources ext files).length ((run ext files).exchanges crew s) (r.1 ++ r.2)) ∧
    (∀ (w : Workshop σ β) files p,
      let ext := w.config.transpile.sourceExt
      Word (sources ext files).length ((run ext files).exchanges (Pipeline.crew w) p)
        (Pipeline.drive w files p).1) ∧
    (∀ (w : Workshop σ β) toolchain sandbox actions,
      ∀ d ∈ ((Floor.start toolchain sandbox).actAll w actions).drivers, d.turn = .gone →
        ∃ files, .ask files ∈ actions ∧
          ∃ xs, Word (sources w.config.transpile.sourceExt files).length xs d.said) ∧
    ∀ n xs es, Word n xs es → es.filter marks ∈ rows ∧
      (∀ step, es.filter (about step) = [] ∨ ∃ ok, es.filter (about step) = stepMarks step ok) ∧
      (∃ body tail, es = body ++ tail ∧ (∀ e ∈ body, ends e = false) ∧
        tail ∈ [errored, [.status .idle], [.status .idle, .done]]) ∧
      ∀ m ys more, Word m ys (es ++ more) → more = [] := by
  refine ⟨fun crew ext files s => ?_, fun w files p => ?_, fun w toolchain sandbox actions d => ?_,
    fun n xs es h => ⟨h.filter_marks, h.filter_about, h.ending, fun m ys more => h.whole⟩⟩
  · exact run_word (Dialogue.runs_hold crew _ s)
  · exact run_word (Dialogue.runs_hold (Pipeline.crew w) _ p)
  · exact Floor.word_of_gone

open Course in
theorem reported_by_word_trapped :
    let crew : Crew Unit :=
      { transpile := fun _ s => (.ok [.transpiled "a.zig" "b"], s)
        compile := fun _ s => (.ok [.stderr "w", .compiled [0]], s)
        execute := fun _ s => (.ok [.trapped "x"], s) }
    let r := ((run "src" (NameMap.empty.insert "a.src" "a")).hold crew ()).1
    let w : Workshop Unit Unit :=
      { config := {}
        fetch := fun url => throw (.fetch url .notFound)
        backend := fun _ _ s => (⟨.error (.instantiate ""), []⟩, s) }
    r.1 ++ r.2 = [.stepStarted .transpile, .status (.transpiling 0 1), .transpiled "a.zig" "b",
      .status (.transpiling 1 1), finished .transpile true, .status .compiling,
      .stepStarted .compile, .diagnostic "w", .compiled 1, finished .compile true,
      .status .running, .stepStarted .execute, .diagnostic "x", finished .execute false,
      .status .idle, .done] ∧
    (∀ n xs more, Word n xs (r.1 ++ r.2 ++ more) → more = []) ∧
    ∃ actions, ∃ d ∈ ((Floor.start { archives := { source := () } } ()).actAll w actions).drivers,
      d.turn = .gone ∧ ∃ files, .ask files ∈ actions ∧
        ∃ xs, Word (sources w.config.transpile.sourceExt files).length xs d.said := by
  intro crew r w
  obtain ⟨hcrew, -, hfloor, hwords⟩ := @reported_by_word Unit Unit Unit
  have hword := hcrew crew "src" (NameMap.empty.insert "a.src" "a") ()
  refine ⟨by decide, fun n xs more => (hwords _ _ _ hword).2.2.2 n xs more, ?_⟩
  obtain ⟨more, -, hdrivers⟩ :=
    Floor.exists_actAll_eq_drive w { archives := { source := () } } () [] .empty rfl
  have hmem := hdrivers ▸ List.mem_append_right _ List.mem_cons_self
  exact ⟨.ask .empty :: more, _, hmem, rfl,
    hfloor w { archives := { source := () } } () (.ask .empty :: more) _ hmem rfl⟩

end Buildbox
