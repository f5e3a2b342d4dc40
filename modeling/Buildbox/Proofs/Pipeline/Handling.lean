import Buildbox.Proofs.Pipeline.Fairness

/-! Every request of a run is handled exactly once, whichever task goes on next. A stream of
replies closes when the worker and its sandbox are free again, and the next run is let in when
all streams have closed. -/

namespace Buildbox

variable {σ β ρ : Type} {w : Workshop σ β} {step : Step} {ticket t : Ticket}

namespace Mailbox

theorem closed_act {m : Mailbox ρ} {b : Action ρ} (hc : ticket ∈ (m.act b).closed) :
    ticket ∈ m.closed ∨ ticket ∈ m.closing := by
  cases b with
  | post request => exact .inl hc
  | take =>
    change ticket ∈ m.take.2.closed at hc
    unfold take at hc
    split at hc
    · exact .inl hc
    · split at hc <;> exact .inl hc
  | release u =>
    change ticket ∈ (m.release u).closed at hc
    unfold release at hc
    split at hc <;> exact .inl hc
  | close u =>
    change ticket ∈ (m.close u).closed at hc
    unfold close at hc
    split at hc
    · next hu =>
      rcases List.mem_append.mp hc with hc | hc
      · exact .inl hc
      · exact .inr (List.mem_singleton.mp hc ▸ hu)
    · exact .inl hc

end Mailbox

namespace Handler

variable {m : Mailbox step.Request} {s : Stages σ β}

theorem mailbox_work (h : Handler step) :
    (h.work w m s).2.1 = m ∨ ∃ b, (h.work w m s).2.1 = m.act b := by
  obtain ⟨ticket, phase, sent⟩ := h
  cases phase with
  | taken r =>
    unfold work
    dsimp only
    cases s.prepare w step r <;> exact .inl rfl
  | prepared r i => exact .inl rfl
  | asked r i answer => exact .inl rfl
  | replying replies =>
    cases replies with
    | nil => exact .inr ⟨.release ticket, rfl⟩
    | cons reply rest => exact .inl rfl
  | freed => exact .inr ⟨.close ticket, rfl⟩
  | ended => exact .inl rfl

theorem mailbox_workAt (hs : List (Handler step)) :
    (workAt w ticket hs m s).2.1 = m ∨ ∃ b, (workAt w ticket hs m s).2.1 = m.act b := by
  induction hs with
  | nil => exact .inl rfl
  | cons h rest ih =>
    unfold workAt
    split
    · exact h.mailbox_work
    · exact ih

end Handler

namespace Floor

variable {f : Floor σ β}

theorem mailbox_post (f : Floor σ β) (run : Nat) (said : List PipelineEvent) (other : Step)
    (request : other.Request) (next : Answer other.Response → Dialogue (List PipelineEvent))
    (step : Step) :
    (f.post run said other request next).mailbox step = f.mailbox step ∨
      ∃ b, (f.post run said other request next).mailbox step = (f.mailbox step).act b := by
  have hdesk := f.desk_post run said request next step
  by_cases hsame : step = other
  · subst hsame
    rw [desk_withMailbox] at hdesk
    exact .inr ⟨.post request, congrArg Desk.mailbox hdesk⟩
  · rw [desk_withMailbox_of_ne _ _ hsame] at hdesk
    exact .inl (congrArg Desk.mailbox hdesk)

theorem mailbox_act (f : Floor σ β) (w : Workshop σ β) (action : Action) (step : Step) :
    (f.act w action).mailbox step = f.mailbox step ∨
      ∃ b, (f.act w action).mailbox step = (f.mailbox step).act b := by
  cases action with
  | ask files => exact .inl (congrArg Desk.mailbox (desk_ask ..))
  | advance run =>
    change (f.advance run).mailbox step = _ ∨ ∃ b, (f.advance run).mailbox step = _
    cases hrun : f.drivers[run]? with
    | none => exact .inl (by rw [advance_of_none hrun])
    | some d =>
      rw [advance_of_get hrun]
      obtain ⟨said, turn⟩ := d
      cases turn with
      | speaking e =>
        cases e with
        | done last => exact .inl (by cases step <;> rfl)
        | report event next => exact .inl (by cases step <;> rfl)
        | transpile request next => exact f.mailbox_post ..
        | compile request next => exact f.mailbox_post ..
        | execute request next => exact f.mailbox_post ..
      | _ => exact .inl (congrArg Desk.mailbox (desk_go_of_not_speaking (by simp) run step))
  | take other =>
    by_cases hsame : step = other
    · subst hsame
      refine .inr ⟨.take, ?_⟩
      exact (congrArg Desk.mailbox (f.desk_take step)).trans (Desk.mailbox_take _)
    · exact .inl (congrArg Desk.mailbox (f.desk_take_of_ne hsame))
  | work other ticket =>
    by_cases hsame : step = other
    · subst hsame
      have hdesk := congrArg Desk.mailbox (f.desk_work w ticket step)
      change (f.work w step ticket).mailbox step = _ at hdesk
      change (f.work w step ticket).mailbox step = _ ∨ ∃ b, (f.work w step ticket).mailbox step = _
      rw [hdesk]
      exact Handler.mailbox_workAt _
    · exact .inl (congrArg Desk.mailbox (f.desk_work_of_ne w ticket hsame))

theorem Orderly.once (ho : f.Orderly) (step : Step) : (f.desk step).Once := by
  rcases ho.rest_or_serving step with ⟨n, hn⟩ | ⟨t, ht⟩
  · exact hn.once
  · exact ht.once

theorem Orderly.free_of_closed (ho : f.Orderly) (action : Action)
    (hopen : ticket ∉ (f.mailbox step).closed)
    (hc : ticket ∈ ((f.act w action).mailbox step).closed) : (f.desk step).Free := by
  have hclosing : ticket ∈ (f.desk step).mailbox.closing := by
    rcases f.mailbox_act w action step with hm | ⟨b, hm⟩
    · rw [hm] at hc
      exact absurd hc hopen
    · rw [hm] at hc
      exact (Mailbox.closed_act hc).resolve_left hopen
  rcases ho.rest_or_serving step with ⟨n, hn⟩ | ⟨t, ht⟩
  · exact hn.free
  · exact ht.free_of_closing hclosing

theorem Orderly.closed (ho : f.Orderly) (hf : f.pipeline.inFlight = false) (step : Step) :
    (f.mailbox step).closed = List.range (f.mailbox step).posted := by
  cases ho with
  | free _ _ hr =>
    obtain ⟨n, hn⟩ := hr step
    have hm : f.mailbox step = _ := hn.mailbox
    rw [hm]
  | speaking hf' => rw [hf] at hf'; cases hf'
  | waiting hf' => rw [hf] at hf'; cases hf'

/-- Whatever the tasks of a pipeline have done so far, in whatever order: each request waits or
has one handler, none was dropped, and no sandbox was found in use. A stream of replies closes
only while worker and sandbox are free, and the next run may start only when all streams have
closed. If all workers and handlers keep going on, each request that was posted is answered. -/
theorem requests_handled_once (w : Workshop σ β) (toolchain : Toolchain σ) (sandbox : β)
    (actions : List Action) :
    let f := (start toolchain sandbox).actAll w actions
    (∀ step, (f.desk step).Once) ∧
    (∀ action step ticket, ticket ∉ (f.mailbox step).closed →
      ticket ∈ ((f.act w action).mailbox step).closed → (f.desk step).Free) ∧
    (f.pipeline.inFlight = false →
      ∀ step, (f.mailbox step).closed = List.range (f.mailbox step).posted) ∧
    ∀ schedule, Fair schedule → ∀ step ticket, ticket < (f.mailbox step).posted →
      ∃ n, (f.along w schedule n).Answered step ticket := by
  intro f
  have ho : f.Orderly := orderly_actAll (orderly_start toolchain sandbox) w actions
  refine ⟨ho.once, ?_, ho.closed, ?_⟩
  · intro action step ticket hopen hclosed
    exact ho.free_of_closed action hopen hclosed
  · intro schedule hfair step ticket hposted
    exact hfair.answered ho w hposted

theorem requests_handled_once_inTurn :
    let w : Workshop Unit Unit :=
      { config := {}
        fetch := fun url => throw (.fetch url .notFound)
        backend := fun _ _ s => (⟨.error (.instantiate ""), []⟩, s) }
    let f := (start { archives := { source := () } } ()).actAll w
      [.ask .empty, .advance 0, .advance 0, .advance 0]
    0 < (f.mailbox .compile).posted ∧ Fair inTurn ∧
      ∃ n, (f.along w inTurn n).Answered .compile 0 := by
  intro w f
  have hposted : 0 < (f.mailbox .compile).posted := Nat.one_pos
  refine ⟨hposted, fair_inTurn, ?_⟩
  exact (requests_handled_once w _ () _).2.2.2 inTurn fair_inTurn .compile 0 hposted

end Floor

end Buildbox
