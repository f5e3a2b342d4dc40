import Buildbox.Pipeline.Floor
import Buildbox.Proofs.Worker.Desk

/-! The desk of each worker on the floor, and what an action does to it. An action concerns one
desk at most, and moves its mailbox by one step of the mailbox itself. -/

namespace Buildbox

namespace Floor

variable {σ β : Type} {f : Floor σ β} {step other : Step}

def desk (f : Floor σ β) (step : Step) : Desk step :=
  ⟨f.mailbox step, f.handlers step, f.pipeline.stages.runner step⟩

section Parts

theorem pipeline_withHandlers (f : Floor σ β) (step : Step) (hs : List (Handler step)) :
    (f.withHandlers step hs).pipeline = f.pipeline := by
  cases step <;> rfl

theorem drivers_withHandlers (f : Floor σ β) (step : Step) (hs : List (Handler step)) :
    (f.withHandlers step hs).drivers = f.drivers := by
  cases step <;> rfl

theorem inFlight_withMailbox (f : Floor σ β) (step : Step) (m : Mailbox step.Request) :
    (f.withMailbox step m).pipeline.inFlight = f.pipeline.inFlight := by
  cases step <;> rfl

theorem drivers_withMailbox (f : Floor σ β) (step : Step) (m : Mailbox step.Request) :
    (f.withMailbox step m).drivers = f.drivers := by
  cases step <;> rfl

theorem desk_withMailbox (f : Floor σ β) (step : Step) (m : Mailbox step.Request) :
    (f.withMailbox step m).desk step = { f.desk step with mailbox := m } := by
  cases step <;> rfl

theorem desk_withMailbox_of_ne (f : Floor σ β) (m : Mailbox step.Request) (hne : other ≠ step) :
    (f.withMailbox step m).desk other = f.desk other := by
  cases step <;> cases other <;> first | rfl | exact absurd rfl hne

theorem desk_withHandlers (f : Floor σ β) (step : Step) (hs : List (Handler step)) :
    (f.withHandlers step hs).desk step = { f.desk step with handlers := hs } := by
  cases step <;> rfl

theorem desk_withHandlers_of_ne (f : Floor σ β) (hs : List (Handler step)) (hne : other ≠ step) :
    (f.withHandlers step hs).desk other = f.desk other := by
  cases step <;> cases other <;> first | rfl | exact absurd rfl hne

theorem desk_withDriver (f : Floor σ β) (run : Nat) (d : Driver) (step : Step) :
    (f.withDriver run d).desk step = f.desk step := by
  cases step <;> rfl

end Parts

section Taking

theorem take_eq (f : Floor σ β) (step : Step) :
    ∃ m hs, f.take step = (f.withMailbox step m).withHandlers step hs ∧
      (f.desk step).take = { f.desk step with mailbox := m, handlers := hs } := by
  have hsame (m : Mailbox step.Request) :
      f.withMailbox step m = (f.withMailbox step m).withHandlers step (f.handlers step) := by
    cases step <;> rfl
  have hmailbox : (f.desk step).mailbox = f.mailbox step := rfl
  unfold take Desk.take
  rw [hmailbox]
  rcases (f.mailbox step).take with ⟨_ | ⟨ticket, _ | request⟩, m⟩
  · exact ⟨m, _, hsame m, rfl⟩
  · exact ⟨m, _, hsame m, rfl⟩
  · exact ⟨m, _, rfl, rfl⟩

theorem desk_take (f : Floor σ β) (step : Step) : (f.take step).desk step = (f.desk step).take := by
  obtain ⟨m, hs, htake, hdesk⟩ := f.take_eq step
  rw [htake, desk_withHandlers, desk_withMailbox, hdesk]

theorem desk_take_of_ne (f : Floor σ β) (hne : other ≠ step) :
    (f.take step).desk other = f.desk other := by
  obtain ⟨m, hs, htake, -⟩ := f.take_eq step
  rw [htake, desk_withHandlers_of_ne _ _ hne, desk_withMailbox_of_ne _ _ hne]

theorem inFlight_take (f : Floor σ β) (step : Step) :
    (f.take step).pipeline.inFlight = f.pipeline.inFlight := by
  obtain ⟨m, hs, htake, -⟩ := f.take_eq step
  rw [htake, pipeline_withHandlers, inFlight_withMailbox]

theorem drivers_take (f : Floor σ β) (step : Step) : (f.take step).drivers = f.drivers := by
  obtain ⟨m, hs, htake, -⟩ := f.take_eq step
  rw [htake, drivers_withHandlers, drivers_withMailbox]

end Taking

section Working

variable (w : Workshop σ β) (ticket : Ticket)

def stagesAfter (f : Floor σ β) (step : Step) : Stages σ β :=
  (Handler.workAt w ticket (f.handlers step) (f.mailbox step) f.pipeline.stages).2.2

theorem desk_work (f : Floor σ β) (step : Step) :
    (f.work w step ticket).desk step = (f.desk step).work w ticket f.pipeline.stages := by
  unfold work
  dsimp only
  rw [desk_withHandlers, desk_withMailbox]
  rfl

theorem desk_work_of_ne (f : Floor σ β) (hne : other ≠ step) :
    (f.work w step ticket).desk other =
      { f.desk other with runner := (f.stagesAfter w ticket step).runner other } := by
  unfold work
  dsimp only
  rw [desk_withHandlers_of_ne _ _ hne, desk_withMailbox_of_ne _ _ hne]
  rfl

theorem inFlight_work (f : Floor σ β) (step : Step) :
    (f.work w step ticket).pipeline.inFlight = f.pipeline.inFlight := by
  unfold work
  dsimp only
  rw [pipeline_withHandlers, inFlight_withMailbox]

theorem drivers_work (f : Floor σ β) (step : Step) :
    (f.work w step ticket).drivers = f.drivers := by
  unfold work
  dsimp only
  rw [drivers_withHandlers, drivers_withMailbox]

end Working

section Driving

variable {run : Nat} {d : Driver}

theorem advance_of_get (hd : f.drivers[run]? = some d) : f.advance run = f.go run d := by
  unfold advance
  rw [hd]

theorem advance_of_none (hd : f.drivers[run]? = none) : f.advance run = f := by
  unfold advance
  rw [hd]

theorem ask_of_inFlight (hf : f.pipeline.inFlight = true) (w : Workshop σ β)
    (files : NameMap String) : f.ask w files = f := by
  unfold ask Pipeline.admitRun
  rw [if_pos hf]
  rfl

theorem desk_ask (f : Floor σ β) (w : Workshop σ β) (files : NameMap String) (step : Step) :
    (f.ask w files).desk step = f.desk step := by
  unfold ask Pipeline.admitRun
  cases f.pipeline.inFlight <;> cases step <;> rfl

theorem desk_post (f : Floor σ β) (run : Nat) (said : List PipelineEvent) (request : step.Request)
    (next : Answer step.Response → Dialogue (List PipelineEvent)) (other : Step) :
    (f.post run said step request next).desk other =
      (f.withMailbox step ((f.mailbox step).post request).2).desk other :=
  desk_withDriver ..

theorem desk_go_of_not_speaking (hd : ∀ e, d.turn ≠ .speaking e) (run : Nat) (step : Step) :
    (f.go run d).desk step = f.desk step := by
  obtain ⟨said, turn⟩ := d
  cases turn with
  | speaking e => exact absurd rfl (hd e)
  | waiting at' ticket next =>
    unfold go
    dsimp only
    split
    · exact desk_withDriver ..
    · rfl
  | parting last => cases last <;> exact desk_withDriver ..
  | gone => rfl

end Driving

end Floor

end Buildbox
