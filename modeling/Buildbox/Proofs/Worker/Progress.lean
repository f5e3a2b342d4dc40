import Buildbox.Proofs.Worker.Desk

/-! How much a worker has still to do for the request it serves. Only the step that is due
changes anything at its desk, and that step leaves less to do. -/

namespace Buildbox

abbrev Amount := Nat × Nat

def Amount.Less (a b : Amount) : Prop :=
  Prod.Lex (· < ·) (· < ·) a b

theorem Amount.less_wf : WellFounded Amount.Less :=
  (Prod.lex Nat.lt_wfRel Nat.lt_wfRel).wf

theorem Amount.less_iff {a b : Amount} : Less a b ↔ a.1 < b.1 ∨ a.1 = b.1 ∧ a.2 < b.2 :=
  Prod.lex_def

namespace Phase

variable {step : Step}

def left : Phase step → Amount
  | taken _ => (5, 0)
  | prepared _ _ => (4, 0)
  | asked _ _ _ => (3, 0)
  | replying replies => (2, replies.length)
  | freed => (1, 0)
  | ended => (0, 0)

end Phase

variable {σ β : Type} {step : Step}

theorem Handler.left_work (w : Workshop σ β) (h : Handler step) (m : Mailbox step.Request)
    (s : Stages σ β) (hopen : h.phase ≠ .ended) :
    Amount.Less (h.work w m s).1.phase.left h.phase.left := by
  obtain ⟨ticket, phase, sent⟩ := h
  cases phase with
  | taken r =>
    unfold work
    dsimp only
    cases s.prepare w step r with
    | ok i s => exact .left _ _ (by decide)
    | error f s => exact .left _ _ (by decide)
  | prepared r i => exact .left _ _ (by decide)
  | asked r i answer => exact .left _ _ (by decide)
  | replying replies =>
    cases replies with
    | nil => exact .left _ _ (by decide)
    | cons reply rest => exact .right _ (Nat.lt_succ_self _)
  | freed => exact .left _ _ (by decide)
  | ended => exact absurd rfl hopen

namespace Desk

variable {d : Desk step} {before : List (Handler step)} {h : Handler step} {t u : Nat}

def left (d : Desk step) : Amount :=
  match d.mailbox.queue, d.handlers.getLast? with
  | _ :: _, _ => (6, 0)
  | [], some h => h.phase.left
  | [], none => (0, 0)

theorem left_of_last (before : List (Handler step)) (h : Handler step)
    (hq : d.mailbox.queue = []) (hh : d.handlers = before ++ [h]) :
    d.left = h.phase.left := by
  unfold left
  rw [hq, hh, List.getLast?_concat]

theorem queue_work (w : Workshop σ β) (h : Handler step) (m : Mailbox step.Request)
    (s : Stages σ β) : (h.work w m s).2.1.queue = m.queue := by
  obtain ⟨ticket, phase, sent⟩ := h
  cases phase with
  | taken r =>
    unfold Handler.work
    dsimp only
    cases s.prepare w step r <;> rfl
  | prepared r i => rfl
  | asked r i answer => rfl
  | replying replies =>
    cases replies with
    | nil =>
      change (m.release ticket).queue = m.queue
      unfold Mailbox.release
      split <;> rfl
    | cons reply rest => rfl
  | freed =>
    change (m.close ticket).queue = m.queue
    unfold Mailbox.close
    split <;> rfl
  | ended => rfl

theorem left_work_last (w : Workshop σ β) (s : Stages σ β) (hp : Past before t)
    (hh : d.handlers = before ++ [h]) (ht : h.ticket = t) (hq : d.mailbox.queue = [])
    (hopen : h.phase ≠ .ended) : Amount.Less (d.work w t s).left d.left := by
  have hwork : d.work w t s = ⟨(h.work w d.mailbox s).2.1,
      before ++ [(h.work w d.mailbox s).1], (h.work w d.mailbox s).2.2.runner step⟩ := by
    unfold work
    rw [hh, workAt_last hp ht]
  rw [left_of_last before h hq hh, hwork, left_of_last _ _ ((queue_work ..).trans hq) rfl]
  exact Handler.left_work w h d.mailbox s hopen

theorem not_ended_of_working {phase : Phase step} (hw : phase.Working) : phase ≠ .ended := by
  rintro rfl
  exact hw

theorem Serving.left_work {s : Stages σ β} (hserve : Serving d t) (w : Workshop σ β) (u : Ticket)
    (hs : d.runner = s.runner step) :
    d.work w u s = d ∨ Amount.Less (d.work w u s).left d.left := by
  have hsame {handlers} (hh : d.handlers = handlers)
      (hwork : Handler.workAt w u handlers d.mailbox s = (handlers, d.mailbox, s)) :
      d.work w u s = d := by
    unfold Desk.work
    rw [hh, hwork, ← hh]
    exact congrArg (Desk.mk d.mailbox d.handlers) hs.symm
  -- Only the last handler has anything left to do.
  have hlast {before : List (Handler step)} {h : Handler step} (hq : d.mailbox.queue = [])
      (hh : d.handlers = before ++ [h]) (ht : h.ticket = t) (hp : Past before t)
      (hopen : h.phase ≠ .ended) : d.work w u s = d ∨ Amount.Less (d.work w u s).left d.left := by
    by_cases hu : u = t
    · subst hu
      exact .inr (left_work_last w s hp hh ht hq hopen)
    · exact .inl (hsame hh (workAt_other hp ht hu))
  cases hserve with
  | queued hm hp hi ha => exact .inl (hsame rfl (workAt_ended hp.2))
  | answered hr => exact .inl (hr.work hs)
  | handled hm hh ht hp hw hi ha => exact hlast (by rw [hm]) hh ht hp (not_ended_of_working hw)
  | freed hm hh ht hp hf hi ha => exact hlast (by rw [hm]) hh ht hp (by simp [hf])

theorem left_take_queued {request : step.Request} (hm : d.mailbox =
    { posted := t + 1, queue := [(t, request)], closed := List.range t }) :
    Amount.Less d.take.left d.left := by
  obtain ⟨m, hs, r⟩ := d
  obtain rfl : m = _ := hm
  rw [left_of_last hs ⟨t, .taken request, []⟩ rfl rfl]
  exact .left _ _ (by decide)

theorem Serving.left_take (hserve : Serving d t) :
    d.take = d ∨ Amount.Less d.take.left d.left := by
  have hnone {m : Mailbox step.Request} (hm : d.mailbox = m) (hq : m.queue = []) :
      d.take = d := by
    obtain ⟨_, hs, r⟩ := d
    obtain rfl : _ = m := hm
    unfold Desk.take Mailbox.take
    rw [hq]
  cases hserve with
  | queued hm => exact .inr (left_take_queued hm)
  | handled hm => exact .inl (hnone hm rfl)
  | freed hm => exact .inl (hnone hm rfl)
  | answered hr => exact .inl hr.take

theorem Serving.due (hserve : Serving d t) (w : Workshop σ β) :
    Rest d (t + 1) ∨ Amount.Less d.take.left d.left ∨
      ∀ s : Stages σ β, Amount.Less (d.work w t s).left d.left := by
  cases hserve with
  | queued hm => exact .inr (.inl (left_take_queued hm))
  | handled hm hh ht hp hw =>
    refine .inr (.inr fun s => ?_)
    exact left_work_last w s hp hh ht (by rw [hm]) (not_ended_of_working hw)
  | freed hm hh ht hp hf =>
    refine .inr (.inr fun s => ?_)
    exact left_work_last w s hp hh ht (by rw [hm]) (by simp [hf])
  | answered hr => exact .inl hr

end Desk

end Buildbox
