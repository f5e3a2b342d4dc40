import Buildbox.Proofs.Pipeline.Desks

/-! One run at a time is enough to keep every worker and sandbox free for the next request. In
whatever order the tasks go on, no request is dropped and no sandbox is ever found in use. -/

namespace Buildbox

def Turn.Left : Turn → Prop
  | .parting _ | .gone => True
  | _ => False

namespace Floor

variable {σ β : Type} {w : Workshop σ β} {f g : Floor σ β} {step other : Step}

/-- At most the last driver is still at work, and at most one worker serves it. -/
inductive Orderly (f : Floor σ β) : Prop where
  | free (hf : f.pipeline.inFlight = false) (hd : ∀ d ∈ f.drivers, d.turn.Left)
    (hr : ∀ step, ∃ n, (f.desk step).Rest n)
  | speaking {before said d} (hf : f.pipeline.inFlight = true)
    (hd : f.drivers = before ++ [{ said, turn := .speaking d }])
    (hb : ∀ b ∈ before, b.turn.Left) (hr : ∀ step, ∃ n, (f.desk step).Rest n)
  | waiting {before said step ticket next} (hf : f.pipeline.inFlight = true)
    (hd : f.drivers = before ++ [{ said, turn := .waiting step ticket next }])
    (hb : ∀ b ∈ before, b.turn.Left) (hs : (f.desk step).Serving ticket)
    (hr : ∀ other, other ≠ step → ∃ n, (f.desk other).Rest n)

section Drivers

variable {run : Nat} {before : List Driver} {b b' d e : Driver}

theorem last_of_not_left (hb : ∀ b ∈ before, b.turn.Left)
    (he : (before ++ [d])[run]? = some e) (hn : ¬ e.turn.Left) :
    run = before.length ∧ e = d := by
  by_cases hrun : run < before.length
  · rw [List.getElem?_append_left hrun] at he
    exact absurd (hb e (List.mem_of_getElem? he)) hn
  · rw [List.getElem?_append_right (by omega)] at he
    obtain ⟨hlast, heq⟩ := List.getElem?_eq_some_iff.mp he
    rw [List.length_singleton] at hlast
    have hlen : run = before.length := by omega
    subst hlen
    simp only [Nat.sub_self, List.getElem_cons_zero] at heq
    exact ⟨rfl, heq.symm⟩

theorem all_left_set (hb : ∀ b ∈ before, b.turn.Left) (hb' : b'.turn.Left) :
    ∀ b ∈ before.set run b', b.turn.Left := by
  intro b hmem
  rcases List.mem_or_eq_of_mem_set hmem with hmem | rfl
  · exact hb b hmem
  · exact hb'

theorem Orderly.withLeft (ho : f.Orderly) (hrun : f.drivers[run]? = some b) (hb : b.turn.Left)
    (hb' : b'.turn.Left) : (f.withDriver run b').Orderly := by
  have hinside {before : List Driver} {d : Driver} (hd : f.drivers = before ++ [d])
      (hn : ¬ d.turn.Left) :
      (f.withDriver run b').drivers = before.set run b' ++ [d] := by
    have hlt : run < before.length := by
      rw [hd] at hrun
      refine Nat.lt_of_not_le fun hge => hn ?_
      rw [List.getElem?_append_right hge] at hrun
      rw [← List.mem_singleton.mp (List.mem_of_getElem? hrun)]
      exact hb
    rw [withDriver, hd, List.set_append_left _ _ hlt]
  cases ho with
  | free hf hd hr =>
    refine .free hf (all_left_set hd hb') fun step => ?_
    rw [desk_withDriver]
    exact hr step
  | speaking hf hd hbefore hr =>
    refine .speaking hf (hinside hd not_false) (all_left_set hbefore hb') fun step => ?_
    rw [desk_withDriver]
    exact hr step
  | waiting hf hd hbefore hs hr =>
    refine .waiting hf (hinside hd not_false) (all_left_set hbefore hb') ?_ fun other hne => ?_
    · rw [desk_withDriver]
      exact hs
    · rw [desk_withDriver]
      exact hr other hne

end Drivers

section Turns

variable {run run' : Nat} {b d : Driver} {t : Ticket}

theorem Orderly.at_rest (ho : f.Orderly) (hrun : f.drivers[run]? = some d)
    {e : Dialogue (List PipelineEvent)} (hd : d.turn = .speaking e) (step : Step) :
    ∃ n, (f.desk step).Rest n := by
  have hleft : ¬ d.turn.Left := by
    rw [hd]
    exact not_false
  cases ho with
  | free _ hb _ => exact absurd (hb d (List.mem_of_getElem? hrun)) hleft
  | speaking _ _ _ hr => exact hr step
  | waiting _ hd' hb _ _ =>
    rw [hd'] at hrun
    obtain ⟨-, rfl⟩ := last_of_not_left hb hrun hleft
    cases hd

theorem Orderly.serving (ho : f.Orderly) (hrun : f.drivers[run]? = some d)
    {next : Answer step.Response → Dialogue (List PipelineEvent)}
    (hd : d.turn = .waiting step t next) :
    (f.desk step).Serving t ∧ ∀ other, other ≠ step → ∃ n, (f.desk other).Rest n := by
  have hleft : ¬ d.turn.Left := by
    rw [hd]
    exact not_false
  cases ho with
  | free _ hb _ => exact absurd (hb d (List.mem_of_getElem? hrun)) hleft
  | speaking _ hd' hb _ =>
    rw [hd'] at hrun
    obtain ⟨-, rfl⟩ := last_of_not_left hb hrun hleft
    cases hd
  | waiting _ hd' hb hs hr =>
    rw [hd'] at hrun
    obtain ⟨-, rfl⟩ := last_of_not_left hb hrun hleft
    cases hd
    exact ⟨hs, hr⟩

theorem Orderly.left_of_free (ho : f.Orderly) (hf : f.pipeline.inFlight = false)
    (hrun : f.drivers[run]? = some d) : d.turn.Left := by
  cases ho with
  | free _ hd _ => exact hd d (List.mem_of_getElem? hrun)
  | speaking hf' => exact absurd (hf.symm.trans hf') Bool.false_ne_true
  | waiting hf' => exact absurd (hf.symm.trans hf') Bool.false_ne_true

theorem Orderly.left_of_ne (ho : f.Orderly) (hrun : f.drivers[run]? = some d)
    (hrun' : f.drivers[run']? = some b) (hne : run' ≠ run) (hb : ¬ b.turn.Left) :
    d.turn.Left := by
  refine Classical.byContradiction fun hd => ?_
  cases ho with
  | free _ hall _ => exact hd (hall d (List.mem_of_getElem? hrun))
  | speaking _ hds hall _ =>
    rw [hds] at hrun hrun'
    exact hne ((last_of_not_left hall hrun' hb).1.trans (last_of_not_left hall hrun hd).1.symm)
  | waiting _ hds hall _ _ =>
    rw [hds] at hrun hrun'
    exact hne ((last_of_not_left hall hrun' hb).1.trans (last_of_not_left hall hrun hd).1.symm)

end Turns

section Steps

theorem Orderly.go_left {run : Nat} {b : Driver} (ho : f.Orderly) (hrun : f.drivers[run]? = some b)
    (hb : b.turn.Left) : (f.go run b).Orderly := by
  obtain ⟨said, turn⟩ := b
  cases turn with
  | speaking => exact hb.elim
  | waiting => exact hb.elim
  | gone => exact ho
  | parting last => cases last <;> exact ho.withLeft hrun hb trivial

variable {run : Nat} {before : List Driver} {d : Driver} {said : List PipelineEvent}

theorem set_last (hd : f.drivers = before ++ [d]) (e : Driver) :
    f.drivers.set before.length e = before ++ [e] := by
  rw [hd, List.set_append_right _ _ (Nat.le_refl _), Nat.sub_self]
  rfl

theorem orderly_post (step : Step) (hf : f.pipeline.inFlight = true)
    (hd : f.drivers = before ++ [d]) (hb : ∀ b ∈ before, b.turn.Left)
    (hr : ∀ step, ∃ n, (f.desk step).Rest n) (request : step.Request)
    (next : Answer step.Response → Dialogue (List PipelineEvent)) :
    (f.post before.length said step request next).Orderly := by
  -- The ticket is the number of requests so far, so the request is the only one not answered.
  obtain ⟨n, hn⟩ := hr step
  obtain ⟨hticket, hserve⟩ := hn.post request
  obtain rfl : (f.mailbox step).posted = n := hticket
  have hdrivers := drivers_withMailbox f step ((f.mailbox step).post request).2
  have hflight := (inFlight_withMailbox f step ((f.mailbox step).post request).2).trans hf
  refine .waiting hflight (set_last (hdrivers.trans hd) _) hb ?_ fun other hne => ?_
  · rw [desk_post, desk_withMailbox]
    exact hserve
  · rw [desk_post, desk_withMailbox_of_ne _ _ hne]
    exact hr other

theorem closed_of_replies? {ticket : Ticket} {replies : List step.Response}
    (h : f.replies? step ticket = some replies) :
    ticket ∈ (f.desk step).mailbox.dropped ∨ ticket ∈ (f.desk step).mailbox.closed := by
  unfold replies? at h
  split at h
  · next hd => exact .inl hd
  · split at h
    · next hc => exact .inr hc
    · cases h

theorem orderly_advance (ho : f.Orderly) (run : Nat) : (f.advance run).Orderly := by
  cases hrun : f.drivers[run]? with
  | none => rwa [advance_of_none hrun]
  | some b =>
    rw [advance_of_get hrun]
    by_cases hleft : b.turn.Left
    · exact ho.go_left hrun hleft
    cases ho with
    | free hf hd hr => exact absurd (hd b (List.mem_of_getElem? hrun)) hleft
    | @speaking before said d hf hd hb hr =>
      rw [hd] at hrun
      obtain ⟨rfl, rfl⟩ := last_of_not_left hb hrun hleft
      cases d with
      | done last =>
        -- The run lets the next one in: no stream is open by now.
        have hdrivers : (f.go before.length ⟨said, .speaking (.done last)⟩).drivers =
            before ++ [⟨said, .parting last⟩] := set_last hd _
        refine .free rfl (fun d hmem => ?_) hr
        rw [hdrivers] at hmem
        rcases List.mem_append.mp hmem with hmem | hmem
        · exact hb d hmem
        · rw [List.mem_singleton.mp hmem]
          trivial
      | report event next =>
        refine .speaking hf (set_last hd _) hb fun step => ?_
        exact (desk_withDriver ..).symm ▸ hr step
      | transpile request next => exact orderly_post .transpile hf hd hb hr request next
      | compile request next => exact orderly_post .compile hf hd hb hr request next
      | execute request next => exact orderly_post .execute hf hd hb hr request next
    | @waiting before said step ticket next hf hd hb hs hr =>
      -- The driver goes on only when its stream has closed, and by then the worker is at rest.
      rw [hd] at hrun
      obtain ⟨rfl, rfl⟩ := last_of_not_left hb hrun hleft
      unfold go
      dsimp only
      cases hreplies : f.replies? step ticket with
      | none => exact .waiting hf hd hb hs hr
      | some replies =>
        have hrest := hs.rest (closed_of_replies? hreplies)
        refine .speaking hf (set_last hd _) hb fun other => ?_
        rw [desk_withDriver]
        by_cases hother : other = step
        · subst hother
          exact ⟨_, hrest⟩
        · exact hr other hother

theorem orderly_ask (ho : f.Orderly) (w : Workshop σ β) (files : NameMap String) :
    (f.ask w files).Orderly := by
  cases ho with
  | free hf hd hr =>
    unfold ask Pipeline.admitRun
    rw [hf]
    exact .speaking rfl rfl hd hr
  | speaking hf hd hb hr =>
    rw [ask_of_inFlight hf]
    exact .speaking hf hd hb hr
  | waiting hf hd hb hs hr =>
    rw [ask_of_inFlight hf]
    exact .waiting hf hd hb hs hr

theorem Orderly.atDesk (ho : f.Orderly) (step : Step)
    (hf : g.pipeline.inFlight = f.pipeline.inFlight) (hd : g.drivers = f.drivers)
    (hother : ∀ other, other ≠ step → g.desk other = f.desk other)
    (hrest : ∀ n, (f.desk step).Rest n → (g.desk step).Rest n)
    (hserve : ∀ t, (f.desk step).Serving t → (g.desk step).Serving t) : g.Orderly := by
  have hrests (other : Step) (hr : ∃ n, (f.desk other).Rest n) : ∃ n, (g.desk other).Rest n := by
    by_cases hsame : other = step
    · subst hsame
      exact hr.imp hrest
    · rwa [hother other hsame]
  cases ho with
  | free hf' hd' hr =>
    exact .free (hf.trans hf') (hd ▸ hd') fun other => hrests other (hr other)
  | speaking hf' hd' hb hr =>
    exact .speaking (hf.trans hf') (hd.trans hd') hb fun other => hrests other (hr other)
  | @waiting _ _ at' ticket _ hf' hd' hb hs hr =>
    have hserving : (g.desk at').Serving ticket := by
      by_cases hsame : at' = step
      · subst hsame
        exact hserve ticket hs
      · rwa [hother at' hsame]
    exact .waiting (hf.trans hf') (hd.trans hd') hb hserving fun other hne =>
      hrests other (hr other hne)

theorem orderly_take (ho : f.Orderly) (step : Step) : (f.take step).Orderly := by
  refine ho.atDesk step (inFlight_take ..) (drivers_take ..) (fun other => f.desk_take_of_ne)
    (fun n hn => ?_) fun t ht => ?_
  · rwa [desk_take, hn.take]
  · rw [desk_take]
    exact ht.take

theorem Orderly.rest_or_serving (ho : f.Orderly) (step : Step) :
    (∃ n, (f.desk step).Rest n) ∨ ∃ t, (f.desk step).Serving t := by
  cases ho with
  | free _ _ hr => exact .inl (hr step)
  | speaking _ _ _ hr => exact .inl (hr step)
  | @waiting _ _ at' _ _ _ _ _ hs hr =>
    by_cases hsame : step = at'
    · subst hsame
      exact .inr ⟨_, hs⟩
    · exact .inl (hr step hsame)

theorem Orderly.desk_work_of_ne (ho : f.Orderly) (w : Workshop σ β) (ticket : Ticket)
    (hne : other ≠ step) : (f.work w step ticket).desk other = f.desk other := by
  have hrunner : (f.stagesAfter w ticket step).runner other = f.pipeline.stages.runner other := by
    rcases ho.rest_or_serving step with ⟨n, hn⟩ | ⟨t, ht⟩
    · have hpast : Desk.Past (f.handlers step) n := hn.past
      unfold stagesAfter
      rw [Desk.workAt_ended hpast.2]
    · exact (ht.work w ticket rfl).2 other hne
  rw [Floor.desk_work_of_ne w ticket f hne, hrunner]
  rfl

theorem orderly_work (ho : f.Orderly) (w : Workshop σ β) (step : Step) (ticket : Ticket) :
    (f.work w step ticket).Orderly := by
  refine ho.atDesk step (inFlight_work ..) (drivers_work ..)
    (fun other => ho.desk_work_of_ne w ticket) (fun n hn => ?_) fun t ht => ?_
  · rwa [desk_work, hn.work rfl]
  · rw [desk_work]
    exact (ht.work w ticket rfl).1

theorem orderly_act (ho : f.Orderly) (w : Workshop σ β) (action : Action) :
    (f.act w action).Orderly := by
  cases action with
  | ask files => exact orderly_ask ho w files
  | advance run => exact orderly_advance ho run
  | take step => exact orderly_take ho step
  | work step ticket => exact orderly_work ho w step ticket

theorem orderly_actAll (ho : f.Orderly) (w : Workshop σ β) (actions : List Action) :
    (f.actAll w actions).Orderly := by
  induction actions generalizing f with
  | nil => exact ho
  | cons action rest ih => exact ih (orderly_act ho w action)

end Steps

theorem orderly_start (toolchain : Toolchain σ) (sandbox : β) :
    (start toolchain sandbox).Orderly := by
  refine .free rfl (fun d hd => absurd hd List.not_mem_nil) fun step => ⟨0, ?_⟩
  have hpast : Desk.Past ([] : List (Handler step)) 0 :=
    ⟨rfl, fun h hh => absurd hh List.not_mem_nil⟩
  cases step <;> exact ⟨rfl, hpast, rfl, rfl⟩

end Floor

end Buildbox
