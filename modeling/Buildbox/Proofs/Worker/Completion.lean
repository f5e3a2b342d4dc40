import Buildbox.Worker.Handler

/-! A handler that goes on without a break does what the stage does in one go. -/

namespace Buildbox

variable {σ β : Type} {w : Workshop σ β} {step : Step}

namespace Stages

def answer (w : Workshop σ β) : (step : Step) → step.Request → Stages σ β →
    List step.Response × Stages σ β
  | .transpile => answerTranspile w
  | .compile => answerCompile w
  | .execute => answerExecute w

theorem answer_eq (step : Step) (r : step.Request) (s : Stages σ β) :
    answer w step r s = match s.prepare w step r with
      | .ok i s => (replies w step r (s.run w step i).1, (s.run w step i).2)
      | .error f s => (replies w step r ⟨.error f, []⟩, s) := by
  cases step with
  | transpile =>
    dsimp only [answer, answerTranspile, transpileFile, prepare]
    cases hname : w.config.transpile.derivedName? r.filename with
    | none => rfl
    | some derived =>
      dsimp only [perform, replies]
      rw [hname]
      cases prepareTranspile w r.filename r.content s <;> rfl
  | compile =>
    dsimp only [answer, answerCompile, compileFiles, perform, prepare]
    cases prepareCompile w r.files s <;> rfl
  | execute => rfl

end Stages

namespace Handler

variable {m : Mailbox step.Request} {s : Stages σ β}

def workTimes (w : Workshop σ β) : Nat → Handler step → Mailbox step.Request → Stages σ β →
    Handler step × Mailbox step.Request × Stages σ β
  | 0, h, m, s => (h, m, s)
  | n + 1, h, m, s =>
    let r := h.work w m s
    workTimes w n r.1 r.2.1 r.2.2

theorem ticket_work (h : Handler step) : (h.work w m s).1.ticket = h.ticket := by
  obtain ⟨ticket, phase, sent⟩ := h
  cases phase with
  | taken r =>
    unfold work
    dsimp only
    cases s.prepare w step r <;> rfl
  | replying replies => cases replies <;> rfl
  | _ => rfl

theorem workTimes_replying (ticket : Ticket) (replies sent : List step.Response) :
    workTimes w (replies.length + 2) ⟨ticket, .replying replies, sent⟩ m s =
      (⟨ticket, .ended, sent ++ replies⟩, (m.release ticket).close ticket, s) := by
  induction replies generalizing sent with
  | nil =>
    rw [List.append_nil]
    rfl
  | cons reply rest ih =>
    have hnext := ih (sent ++ [reply])
    rw [List.append_assoc] at hnext
    exact hnext

theorem workTimes_taken (w : Workshop σ β) (ticket : Ticket) (r : step.Request)
    (m : Mailbox step.Request) (s : Stages σ β) :
    ∃ n, workTimes w n ⟨ticket, .taken r, []⟩ m s =
      (⟨ticket, .ended, (Stages.answer w step r s).1⟩, (m.release ticket).close ticket,
        (Stages.answer w step r s).2) := by
  rw [Stages.answer_eq]
  cases hprepare : s.prepare w step r with
  | error f s₁ =>
    let replies := Stages.replies w step r ⟨.error f, []⟩
    refine ⟨replies.length + 2 + 1, ?_⟩
    unfold workTimes work
    dsimp only
    rw [hprepare]
    exact workTimes_replying ticket replies []
  | ok i s₁ =>
    let replies := Stages.replies w step r (s₁.run w step i).1
    refine ⟨replies.length + 2 + 3, ?_⟩
    unfold workTimes work
    dsimp only
    rw [hprepare]
    exact workTimes_replying ticket replies []

end Handler

end Buildbox
