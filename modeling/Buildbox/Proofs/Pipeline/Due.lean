import Buildbox.Proofs.Pipeline.Letters

/-! What is still to come of a request: the letters that pass until its stream closes, the replies
by then, and the stages that are left. Whoever goes on meanwhile, a letter that passes is the first
of these. -/

namespace Buildbox

namespace Handler

variable {σ β : Type} {w : Workshop σ β} {step : Step}

/-- `h.Due w m s letters replies s'`: until the handler ends, it passes `letters`, sends the last
of the `replies`, and leaves the stages as `s'`. -/
inductive Due (w : Workshop σ β) : Handler step → Mailbox step.Request → Stages σ β →
    List Letter → List step.Response → Stages σ β → Prop where
  | ended {ticket sent m s} : Due w ⟨ticket, .ended, sent⟩ m s [] sent s
  | work {h m s letters later replies s'}
    (hd : Due w (h.work w m s).1 (h.work w m s).2.1 (h.work w m s).2.2 later replies s')
    (hl : letters = Visit.runLetters step (h.run? w s) ++ later) :
    Due w h m s letters replies s'

variable {h : Handler step} {m : Mailbox step.Request} {s s' : Stages σ β} {letters : List Letter}
  {replies : List step.Response}

theorem Due.next (hd : h.Due w m s letters replies s') :
    ∃ later, letters = Visit.runLetters step (h.run? w s) ++ later ∧
      Due w (h.work w m s).1 (h.work w m s).2.1 (h.work w m s).2.2 later replies s' := by
  cases hd with
  | ended => exact ⟨[], rfl, .ended⟩
  | work hd hl => exact ⟨_, hl, hd⟩

theorem Due.of_ended (hd : h.Due w m s letters replies s') (hended : h.phase = .ended) :
    letters = [] ∧ replies = h.sent ∧ s' = s := by
  induction hd with
  | ended => exact ⟨rfl, rfl, rfl⟩
  | @work h m s letters later replies s' hd hl ih =>
    have hwork : h.work w m s = (h, m, s) := by rw [Handler.work, hended]
    have hrun : h.run? w s = none := by rw [run?, hended]
    rw [hwork] at ih
    obtain ⟨rfl, hreplies, hs⟩ := ih hended
    rw [hl, hrun]
    exact ⟨rfl, hreplies, hs⟩

theorem due_replying (ticket : Ticket) (replies sent : List step.Response)
    (m : Mailbox step.Request) (s : Stages σ β) :
    Due w ⟨ticket, .replying replies, sent⟩ m s [] (sent ++ replies) s := by
  induction replies generalizing sent with
  | nil =>
    rw [List.append_nil]
    exact .work (.work .ended rfl) rfl
  | cons reply rest ih =>
    have hnext := ih (sent ++ [reply])
    rw [List.append_assoc] at hnext
    exact .work hnext rfl

theorem due_prepared (ticket : Ticket) (r : step.Request) (i : Invocation)
    (m : Mailbox step.Request) (s : Stages σ β) :
    Due w ⟨ticket, .prepared r i, []⟩ m s (Visit.runLetters step (s.admittedRun? w step i))
      (Stages.replies w step r (s.run w step i).1) (s.run w step i).2 := by
  have hasked : Due w ⟨ticket, .asked r i (s.acquire step).1, []⟩ m (s.acquire step).2
      (Visit.runLetters step (s.admittedRun? w step i))
      (Stages.replies w step r (s.run w step i).1) (s.run w step i).2 := by
    unfold Stages.admittedRun? Stages.run
    rcases s.acquire step with ⟨_ | _, s₁⟩
    · exact .work (due_replying ticket _ [] m s₁) rfl
    · exact .work (due_replying ticket _ [] m _) rfl
  exact .work hasked rfl

theorem due_taken (ticket : Ticket) (r : step.Request) (m : Mailbox step.Request)
    (s : Stages σ β) :
    Due w ⟨ticket, .taken r, []⟩ m s (Visit.runLetters step (s.sandboxRun? w step r))
      (Stages.answer w step r s).1 (Stages.answer w step r s).2 := by
  have hworked : Due w (Handler.work w ⟨ticket, .taken r, []⟩ m s).1
      (Handler.work w ⟨ticket, .taken r, []⟩ m s).2.1
      (Handler.work w ⟨ticket, .taken r, []⟩ m s).2.2
      (Visit.runLetters step (s.sandboxRun? w step r))
      (Stages.answer w step r s).1 (Stages.answer w step r s).2 := by
    rw [Stages.answer_eq]
    unfold Handler.work Stages.sandboxRun?
    dsimp only
    cases s.prepare w step r with
    | error f s₁ => exact due_replying ticket _ [] m s₁
    | ok i s₁ => exact due_prepared ticket r i m s₁
  exact .work hworked rfl

theorem run?_of_ended {hs : List (Handler step)} (hended : ∀ h ∈ hs, h.phase = .ended)
    (ticket : Ticket) : (hs.find? (·.ticket = ticket)).bind (·.run? w s) = none := by
  cases hfind : hs.find? (·.ticket = ticket) with
  | none => rfl
  | some h =>
    have hphase : h.phase = .ended := hended h (List.mem_of_find?_eq_some hfind)
    rw [Option.bind_some, run?, hphase]

end Handler

namespace Desk

variable {step : Step} {d : Desk step} {t : Ticket}

theorem Serving.queue (hs : Serving d t) :
    d.mailbox.queue = [] ∨
      (∃ r, d.mailbox.take = (some (t, some r), { d.mailbox with
          queue := [], busy := true, handling := d.mailbox.handling ++ [t] }) ∧
        d.mailbox.queue = [(t, r)]) ∧ Past d.handlers t := by
  cases hs with
  | @queued request hm hp =>
    refine .inr ⟨⟨request, ?_, by rw [hm]⟩, hp⟩
    rw [hm]
    rfl
  | handled hm => exact .inl (by rw [hm])
  | freed hm => exact .inl (by rw [hm])
  | answered hr => exact .inl (by rw [hr.mailbox])

end Desk

namespace Floor

variable {σ β : Type} {w : Workshop σ β} {f : Floor σ β} {step : Step} {t u : Ticket}
  {s : Stages σ β} {letters : List Letter} {replies : List step.Response}

section Still

theorem take_of_queue_nil (hq : (f.mailbox step).queue = []) : f.take step = f := by
  unfold take Mailbox.take
  rw [hq]
  cases step <;> rfl

theorem work_of_same (hsame : Handler.workAt w u (f.handlers step) (f.mailbox step)
      f.pipeline.stages = (f.handlers step, f.mailbox step, f.pipeline.stages)) :
    f.work w step u = f := by
  unfold work
  rw [hsame]
  cases step <;> rfl

theorem take_of_rest {n : Nat} (hr : (f.desk step).Rest n) : f.take step = f := by
  have hm : f.mailbox step = { posted := n, closed := List.range n } := hr.mailbox
  exact take_of_queue_nil (by rw [hm])

theorem work_of_rest {n : Nat} (hr : (f.desk step).Rest n) (u : Ticket) : f.work w step u = f := by
  have hp : Desk.Past (f.handlers step) n := hr.past
  exact work_of_same (Desk.workAt_ended hp.2)

end Still

section Due

/-- `f.Due w step t letters replies s`: until the stream of the last request closes, `letters`
pass; then all `replies` have been sent and the stages are as `s`. -/
inductive Due (w : Workshop σ β) (f : Floor σ β) (step : Step) (t : Ticket)
    (letters : List Letter) (replies : List step.Response) (s : Stages σ β) : Prop where
  | queued {r} (hq : (f.mailbox step).queue = [(t, r)]) (hp : Desk.Past (f.handlers step) t)
    (hl : letters = Visit.runLetters step (f.pipeline.stages.sandboxRun? w step r))
    (ha : Stages.answer w step r f.pipeline.stages = (replies, s))
  | handled {before h} (hh : f.handlers step = before ++ [h]) (hp : Desk.Past before t)
    (ht : h.ticket = t) (hd : h.Due w (f.mailbox step) f.pipeline.stages letters replies s)

theorem Due.take (hd : f.Due w step t letters replies s) (hs : (f.desk step).Serving t) :
    (f.take step).Due w step t letters replies s := by
  rcases hs.queue with hempty | ⟨⟨r, htake, hqueue⟩, hpast⟩
  · rw [take_of_queue_nil hempty]
    exact hd
  cases hd with
  | handled hh hp ht hd =>
    -- The handlers are those of earlier requests.
    have hmem : t ∈ (f.handlers step).map (·.ticket) := by
      rw [hh, ← ht]
      simp
    have hpast' : (f.handlers step).map (·.ticket) = List.range t := hpast.1
    rw [hpast'] at hmem
    exact absurd hmem List.not_mem_range_self
  | @queued r' hq hp hl ha =>
    obtain rfl : r' = r := by
      have hsame := hq.symm.trans hqueue
      simpa using hsame
    let m : Mailbox step.Request := { f.mailbox step with
      queue := [], busy := true, handling := (f.mailbox step).handling ++ [t] }
    have hf : f.take step =
        f.withDesk step m (f.handlers step ++ [⟨t, .taken r', []⟩]) f.pipeline.stages := by
      have htake' : (f.mailbox step).take = (some (t, some r'), m) := htake
      unfold Floor.take
      rw [htake']
      cases step <;> rfl
    have hstages : (f.take step).pipeline.stages = f.pipeline.stages := by
      rw [hf, stages_withDesk]
    have hhandlers : (f.take step).handlers step = f.handlers step ++ [⟨t, .taken r', []⟩] := by
      rw [hf, handlers_withDesk]
    refine .handled hhandlers hp rfl ?_
    have hstarted := Handler.due_taken (w := w) t r' ((f.take step).mailbox step) f.pipeline.stages
    rw [ha, ← hl] at hstarted
    rw [hstages]
    exact hstarted

theorem Due.work (hd : f.Due w step t letters replies s) (u : Ticket) :
    ∃ later, letters = (if u = t then f.runOf w step u else []) ++ later ∧
      (f.work w step u).Due w step t later replies s := by
  cases hd with
  | queued hq hp hl ha =>
    have hnone : f.runOf w step u = [] := by rw [runOf, Handler.run?_of_ended hp.2]; rfl
    rw [work_of_same (Desk.workAt_ended hp.2), hnone, ite_self]
    exact ⟨letters, rfl, .queued hq hp hl ha⟩
  | @handled before h hh hp ht hd =>
    -- The handlers of earlier requests are done, so only this one can go on.
    by_cases hu : u = t
    · subst hu
      obtain ⟨later, hl, hlater⟩ := hd.next
      have hrun : f.runOf w step u = Visit.runLetters step (h.run? w f.pipeline.stages) := by
        rw [runOf, hh, hp.find? ht]
        rfl
      have hf : f = f.withDesk step (f.mailbox step) (before ++ [h]) f.pipeline.stages := by
        rw [← hh]
        cases step <;> rfl
      have hwork := work_last (f := f) (w := w) (m := f.mailbox step) (s := f.pipeline.stages) hp ht
      rw [← hf] at hwork
      rw [if_pos rfl, hrun, hwork]
      have hticket : (h.work w (f.mailbox step) f.pipeline.stages).1.ticket = u :=
        (Handler.ticket_work h).trans ht
      refine ⟨later, hl, .handled handlers_withDesk hp hticket ?_⟩
      rw [mailbox_withDesk, stages_withDesk]
      exact hlater
    · have hother := Desk.workAt_other (w := w) (m := f.mailbox step) (s := f.pipeline.stages)
        hp ht hu
      rw [← hh] at hother
      rw [work_of_same hother, if_neg hu]
      exact ⟨letters, rfl, .handled hh hp ht hd⟩

theorem Due.closed (hd : f.Due w step t letters replies s) (hs : (f.desk step).Serving t)
    {heard : List step.Response} (hr : f.replies? step t = some heard) :
    letters = [] ∧ heard = replies ∧ s = f.pipeline.stages := by
  have hrest : (f.desk step).Rest (t + 1) := hs.rest (closed_of_replies? hr)
  have hm : f.mailbox step = { posted := t + 1, closed := List.range (t + 1) } := hrest.mailbox
  cases hd with
  | queued hq =>
    rw [hm] at hq
    cases hq
  | @handled before h hh hp ht hd =>
    have hmem : h ∈ f.handlers step := by simp [hh]
    have hended : h.phase = .ended := hrest.past.2 h hmem
    obtain ⟨hletters, hreplies, hstages⟩ := hd.of_ended hended
    have hheard : h.sent = heard := Option.some.inj ((replies?_of_rest hm hh hp ht).symm.trans hr)
    exact ⟨hletters, hheard.symm.trans hreplies.symm, hstages⟩

end Due

end Floor

end Buildbox
