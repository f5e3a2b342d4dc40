import Buildbox.Proofs.Pipeline.Exclusion
import Buildbox.Proofs.Worker.Completion

/-! A run that is driven alone, each request answered in one go, is one of the orders in which
the tasks of a pipeline may go on. -/

namespace Buildbox

namespace Crew

variable {τ : Type}

def ask (crew : Crew τ) : (step : Step) → step.Request → τ → Answer step.Response × τ
  | .transpile => crew.transpile
  | .compile => crew.compile
  | .execute => crew.execute

end Crew

namespace Mailbox

variable {α ρ τ : Type}

theorem answer_of_rest (handle : α → τ → List ρ × τ) (request : α) (s : τ) (n : Nat) :
    ({ posted := n, closed := List.range n } : Mailbox α).answer handle request s =
      ((handle request s).1, { posted := n + 1, closed := List.range (n + 1) },
        (handle request s).2) := by
  simp [answer, answerAll, serve, post, takeUpTo, take, handleAll, release, close, List.range_succ]

end Mailbox

namespace Floor

variable {σ β : Type} {w : Workshop σ β} {f : Floor σ β} {step : Step} {n t : Nat}

section Service

variable {before hs : List (Handler step)} {h : Handler step} {m : Mailbox step.Request}
  {s : Stages σ β}

def withDesk (f : Floor σ β) (step : Step) (m : Mailbox step.Request) (hs : List (Handler step))
    (s : Stages σ β) : Floor σ β :=
  ({ f with pipeline := { f.pipeline with stages := s } }.withMailbox step m).withHandlers step hs

theorem mailbox_withDesk : (f.withDesk step m hs s).mailbox step = m := by
  cases step <;> rfl

theorem handlers_withDesk : (f.withDesk step m hs s).handlers step = hs := by
  cases step <;> rfl

theorem drivers_withDesk : (f.withDesk step m hs s).drivers = f.drivers := by
  cases step <;> rfl

theorem stages_withDesk : (f.withDesk step m hs s).pipeline.stages = s := by
  cases step <;> rfl

theorem work_last (hp : Desk.Past before t) (ht : h.ticket = t) :
    (f.withDesk step m (before ++ [h]) s).work w step t =
      f.withDesk step (h.work w m s).2.1 (before ++ [(h.work w m s).1]) (h.work w m s).2.2 := by
  have hlast := Desk.workAt_last (w := w) (m := m) (s := s) hp ht
  have hwork (m' : Mailbox step.Request) (hs' : List (Handler step)) (s' : Stages σ β)
      (hr : Handler.workAt w t (before ++ [h]) m s = (hs', m', s')) :
      (f.withDesk step m (before ++ [h]) s).work w step t = f.withDesk step m' hs' s' := by
    unfold work
    rw [mailbox_withDesk, handlers_withDesk]
    rw [stages_withDesk, hr]
    cases step <;> rfl
  exact hwork _ _ _ hlast

theorem actAll_work (hp : Desk.Past before t) (ht : h.ticket = t) (k : Nat) :
    let r := Handler.workTimes w k h m s
    (f.withDesk step m (before ++ [h]) s).actAll w (List.replicate k (.work step t)) =
      f.withDesk step r.2.1 (before ++ [r.1]) r.2.2 := by
  induction k generalizing h m s with
  | zero => rfl
  | succ k ih =>
    have hticket : (h.work w m s).1.ticket = t := (Handler.ticket_work h).trans ht
    have hnext := ih (m := (h.work w m s).2.1) (s := (h.work w m s).2.2) hticket
    dsimp only at hnext
    rw [← work_last hp ht] at hnext
    exact hnext

theorem actAll_append (w : Workshop σ β) (f : Floor σ β) (first later : List Action) :
    f.actAll w (first ++ later) = (f.actAll w first).actAll w later :=
  List.foldl_append

theorem actAll_serve (hp : Desk.Past hs n) (request : step.Request) :
    let m : Mailbox step.Request :=
      { posted := n + 1, queue := [(n, request)], closed := List.range n }
    let r := Stages.answer w step request s
    ∃ actions, (f.withDesk step m hs s).actAll w actions =
      f.withDesk step { posted := n + 1, closed := List.range (n + 1) }
        (hs ++ [⟨n, .ended, r.1⟩]) r.2 := by
  intro m r
  let handling : Mailbox step.Request :=
    { posted := n + 1, busy := true, handling := [n], closed := List.range n }
  have htake : (f.withDesk step m hs s).take step =
      f.withDesk step handling (hs ++ [⟨n, .taken request, []⟩]) s := by
    cases step <;> rfl
  obtain ⟨k, hk⟩ := Handler.workTimes_taken w n request handling s
  have hclosed : (handling.release n).close n =
      { posted := n + 1, closed := List.range (n + 1) } := by
    simp [handling, Mailbox.release, Mailbox.close, List.range_succ]
  refine ⟨.take step :: List.replicate k (.work step n), ?_⟩
  change ((f.withDesk step m hs s).take step).actAll w _ = _
  rw [htake, actAll_work hp rfl, hk, hclosed]

theorem replies?_of_rest (hm : f.mailbox step = { posted := t + 1, closed := List.range (t + 1) })
    (hh : f.handlers step = before ++ [h]) (hp : Desk.Past before t) (ht : h.ticket = t) :
    f.replies? step t = some h.sent := by
  unfold replies?
  rw [hm, hh, if_neg List.not_mem_nil, if_pos (List.mem_range.mpr (Nat.lt_succ_self t)),
    hp.find? ht]
  rfl

end Service

section Dialogues

variable {before : List Driver} {d : Driver} {said : List PipelineEvent} {run : Nat}

theorem getElem?_last (hd : f.drivers = before ++ [d]) : f.drivers[before.length]? = some d := by
  rw [hd, List.getElem?_append_right (Nat.le_refl _), Nat.sub_self]
  rfl

theorem post_of_rest (hn : (f.desk step).Rest n) (run : Nat) (said : List PipelineEvent)
    (request : step.Request) (next : Answer step.Response → Dialogue (List PipelineEvent)) :
    f.post run said step request next =
      (f.withDriver run ⟨said, .waiting step n next⟩).withDesk step
        { posted := n + 1, queue := [(n, request)], closed := List.range n }
        (f.handlers step) f.pipeline.stages := by
  have hm : f.mailbox step = { posted := n, closed := List.range n } := hn.mailbox
  unfold post
  rw [hm]
  cases step <;> rfl

theorem actAll_request (hn : (f.desk step).Rest n) (hd : f.drivers = before ++ [d])
    (w : Workshop σ β) (said : List PipelineEvent) (request : step.Request)
    (next : Answer step.Response → Dialogue (List PipelineEvent)) :
    let r := Stages.answer w step request f.pipeline.stages
    ∃ actions, ((f.post before.length said step request next).actAll w actions).pipeline =
        { f.pipeline with stages := r.2 }.withMailbox step
          { posted := n + 1, closed := List.range (n + 1) } ∧
      ((f.post before.length said step request next).actAll w actions).drivers =
        before ++ [⟨said, .speaking (next (.ok r.1))⟩] := by
  intro r
  let waiting : Driver := ⟨said, .waiting step n next⟩
  have hpost := post_of_rest hn before.length said request next
  have hpast : Desk.Past (f.handlers step) n := hn.past
  -- First the worker and its handler, then the driver, which finds the stream closed.
  obtain ⟨actions, hserve⟩ := actAll_serve (f := f.withDriver before.length waiting) (w := w)
    (s := f.pipeline.stages) hpast request
  let g := (f.withDriver before.length waiting).withDesk step
    { posted := n + 1, closed := List.range (n + 1) } (f.handlers step ++ [⟨n, .ended, r.1⟩]) r.2
  have hdrivers : g.drivers = before ++ [waiting] := drivers_withDesk.trans (set_last hd waiting)
  have hadvance : g.advance before.length =
      g.withDriver before.length ⟨said, .speaking (next (.ok r.1))⟩ := by
    have hreplies : g.replies? step n = some r.1 :=
      replies?_of_rest mailbox_withDesk handlers_withDesk hpast rfl
    rw [advance_of_get (getElem?_last hdrivers)]
    unfold go
    dsimp only [waiting]
    rw [hreplies]
  refine ⟨actions ++ [.advance before.length], ?_⟩
  have hfinal : (f.post before.length said step request next).actAll w
      (actions ++ [.advance before.length]) =
      g.withDriver before.length ⟨said, .speaking (next (.ok r.1))⟩ := by
    rw [hpost, actAll_append, hserve]
    exact hadvance
  rw [hfinal]
  refine ⟨?_, set_last hdrivers _⟩
  cases step <;> rfl

theorem ask_crew (w : Workshop σ β) (hn : (f.desk step).Rest n) (request : step.Request) :
    let r := Stages.answer w step request f.pipeline.stages
    (Pipeline.crew w).ask step request f.pipeline =
      (.ok r.1, { f.pipeline with stages := r.2 }.withMailbox step
        { posted := n + 1, closed := List.range (n + 1) }) := by
  have hm : f.mailbox step = { posted := n, closed := List.range n } := hn.mailbox
  cases step with
  | transpile =>
    have hm' : f.pipeline.transpile = _ := hm
    dsimp only [Crew.ask, Pipeline.crew]
    rw [hm', Mailbox.answer_of_rest]
    rfl
  | compile =>
    have hm' : f.pipeline.compile = _ := hm
    dsimp only [Crew.ask, Pipeline.crew]
    rw [hm', Mailbox.answer_of_rest]
    rfl
  | execute =>
    have hm' : f.pipeline.execute = _ := hm
    dsimp only [Crew.ask, Pipeline.crew]
    rw [hm', Mailbox.answer_of_rest]
    rfl

def Holds (w : Workshop σ β) (f : Floor σ β) (before : List Driver) (said : List PipelineEvent)
    (e : Dialogue (List PipelineEvent)) : Prop :=
  let r := e.hold (Pipeline.crew w) f.pipeline
  ∃ actions, (f.actAll w actions).pipeline = r.2 ∧
    (f.actAll w actions).drivers = before ++ [⟨said ++ r.1.1, .speaking (.done r.1.2)⟩]

theorem holds_request (ho : f.Orderly) (hn : (f.desk step).Rest n) (request : step.Request)
    (next : Answer step.Response → Dialogue (List PipelineEvent))
    (e : Dialogue (List PipelineEvent))
    (hd : f.drivers = before ++ [⟨said, .speaking e⟩])
    (hgo : f.advance before.length = f.post before.length said step request next)
    (hhold : ∀ p, e.hold (Pipeline.crew w) p =
      (next ((Pipeline.crew w).ask step request p).1).hold (Pipeline.crew w)
        ((Pipeline.crew w).ask step request p).2)
    (ih : ∀ a {g : Floor σ β}, g.Orderly → g.drivers = before ++ [⟨said, .speaking (next a)⟩] →
      Holds w g before said (next a)) :
    Holds w f before said e := by
  obtain ⟨first, hp, hd'⟩ := actAll_request hn hd w said request next
  let g := f.actAll w (.advance before.length :: first)
  have hg : g = (f.post before.length said step request next).actAll w first := by
    rw [← hgo]
    rfl
  rw [← hg] at hp hd'
  obtain ⟨later, hlater, hdrivers⟩ := ih _ (orderly_actAll ho w _) hd'
  unfold Holds
  rw [hhold, ask_crew w hn request]
  rw [hp] at hlater hdrivers
  refine ⟨(.advance before.length :: first) ++ later, ?_⟩
  rw [actAll_append]
  exact ⟨hlater, hdrivers⟩

theorem actAll_hold (w : Workshop σ β) (e : Dialogue (List PipelineEvent)) (ho : f.Orderly)
    (hd : f.drivers = before ++ [⟨said, .speaking e⟩]) : Holds w f before said e := by
  have hadvance := advance_of_get (getElem?_last hd)
  induction e generalizing f said with
  | done last =>
    refine ⟨[], rfl, ?_⟩
    change f.drivers = before ++ [⟨said ++ [], _⟩]
    rw [List.append_nil]
    exact hd
  | report event next ih =>
    have hnext : (f.advance before.length).drivers =
        before ++ [⟨said ++ [event], .speaking next⟩] := by
      rw [hadvance]
      exact set_last hd _
    obtain ⟨actions, hp, hd'⟩ := ih (orderly_advance ho before.length) hnext
      (advance_of_get (getElem?_last hnext))
    have hpipeline : (f.advance before.length).pipeline = f.pipeline := by
      rw [hadvance]
      rfl
    rw [hpipeline, List.append_assoc] at hd'
    rw [hpipeline] at hp
    exact ⟨.advance before.length :: actions, hp, hd'⟩
  | transpile request next ih =>
    obtain ⟨n, hn⟩ := ho.at_rest (getElem?_last hd) rfl .transpile
    refine holds_request ho hn request next _ hd hadvance (fun _ => rfl) fun a g hg hd' => ?_
    exact ih a hg hd' (advance_of_get (getElem?_last hd'))
  | compile request next ih =>
    obtain ⟨n, hn⟩ := ho.at_rest (getElem?_last hd) rfl .compile
    refine holds_request ho hn request next _ hd hadvance (fun _ => rfl) fun a g hg hd' => ?_
    exact ih a hg hd' (advance_of_get (getElem?_last hd'))
  | execute request next ih =>
    obtain ⟨n, hn⟩ := ho.at_rest (getElem?_last hd) rfl .execute
    refine holds_request ho hn request next _ hd hadvance (fun _ => rfl) fun a g hg hd' => ?_
    exact ih a hg hd' (advance_of_get (getElem?_last hd'))

theorem actAll_parting (w : Workshop σ β) (last : List PipelineEvent)
    (hd : f.drivers = before ++ [⟨said, .parting last⟩]) :
    ∃ actions, (f.actAll w actions).pipeline = f.pipeline ∧
      (f.actAll w actions).drivers = before ++ [⟨said ++ last, .gone⟩] := by
  have hadvance := advance_of_get (getElem?_last hd)
  induction last generalizing f said with
  | nil =>
    refine ⟨[.advance before.length], ?_⟩
    change (f.advance before.length).pipeline = _ ∧ (f.advance before.length).drivers = _
    rw [hadvance, List.append_nil]
    exact ⟨rfl, set_last hd _⟩
  | cons event rest ih =>
    have hnext : (f.advance before.length).drivers =
        before ++ [⟨said ++ [event], .parting rest⟩] := by
      rw [hadvance]
      exact set_last hd _
    have hpipeline : (f.advance before.length).pipeline = f.pipeline := by
      rw [hadvance]
      rfl
    obtain ⟨actions, hp, hd'⟩ := ih hnext (advance_of_get (getElem?_last hnext))
    rw [List.append_assoc] at hd'
    exact ⟨.advance before.length :: actions, hp.trans hpipeline, hd'⟩

end Dialogues

/-- While no run is in flight, the next one may go on as if it were driven alone. -/
theorem exists_actAll_eq_drive (w : Workshop σ β) (toolchain : Toolchain σ) (sandbox : β)
    (actions : List Action) (files : NameMap String) :
    let f := (start toolchain sandbox).actAll w actions
    let out := f.pipeline.admitRun.2.drive w files
    f.pipeline.inFlight = false → ∃ more,
      (f.actAll w (.ask files :: more)).pipeline = out.2 ∧
      (f.actAll w (.ask files :: more)).drivers = f.drivers ++ [⟨out.1, .gone⟩] := by
  intro f out hfree
  have ho : f.Orderly := orderly_actAll (orderly_start toolchain sandbox) w actions
  let e := Course.run w.config.transpile.sourceExt files
  let r := e.hold (Pipeline.crew w) f.pipeline.admitRun.2
  have hask : f.ask w files = { f with
      pipeline := f.pipeline.admitRun.2
      drivers := f.drivers ++ [⟨[], .speaking e⟩] } := by
    unfold ask Pipeline.admitRun
    rw [hfree]
    rfl
  have hdrivers : (f.ask w files).drivers = f.drivers ++ [⟨[], .speaking e⟩] := by rw [hask]
  obtain ⟨first, hp, hd⟩ := actAll_hold w e (orderly_ask ho w files) hdrivers
  have hp₀ : (f.ask w files).pipeline = f.pipeline.admitRun.2 := by rw [hask]
  rw [hp₀] at hp hd
  let g := (f.ask w files).actAll w first
  have hadvance := advance_of_get (f := g) (getElem?_last hd)
  have hsettled : (g.advance f.drivers.length).pipeline = r.2.settle := by
    rw [hadvance]
    exact congrArg Pipeline.settle hp
  have hparting : (g.advance f.drivers.length).drivers =
      f.drivers ++ [⟨r.1.1, .parting r.1.2⟩] := by
    rw [hadvance]
    exact set_last (f := g) hd _
  -- The events that end the run come after the next one may start.
  obtain ⟨last, hp', hd'⟩ := actAll_parting w r.1.2 hparting
  refine ⟨first ++ .advance f.drivers.length :: last, ?_⟩
  change ((f.ask w files).actAll w _).pipeline = _ ∧ ((f.ask w files).actAll w _).drivers = _
  rw [actAll_append]
  exact ⟨hp'.trans hsettled, hd'⟩

end Floor

end Buildbox
