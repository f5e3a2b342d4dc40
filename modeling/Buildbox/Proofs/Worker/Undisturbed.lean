import Buildbox.Proofs.Worker.Streams

/-! A request that nothing disturbs. However its own tasks take turns, it is answered as the stage
answers it in one go, and the stages are left in the same state. -/

namespace Buildbox

variable {σ β : Type} {step : Step} {w : Workshop σ β}

inductive SandboxRun.Alone (w : Workshop σ β) (request : step.Request) (s₀ : Stages σ β) :
    SandboxRun → Stages σ β → Prop
  | none : Alone w request s₀ none s₀
  | unprepared {f s} (h : s₀.prepare w step request = .error f s) : Alone w request s₀ (refused f) s
  | busy {i s₁ f s} (h : s₀.prepare w step request = .ok i s₁)
    (ha : s₁.acquire step = (.error f, s)) : Alone w request s₀ (refused f) s
  | ready {i s} (h : s₀.prepare w step request = .ok i s) : Alone w request s₀ (ready i) s
  | queued {i s₁ s} (h : s₀.prepare w step request = .ok i s₁)
    (ha : s₁.acquire step = (.ok (), s)) : Alone w request s₀ (queued i) s
  | printing {i s₁ s x b} (h : s₀.prepare w step request = .ok i s₁)
    (ha : s₁.acquire step = (.ok (), s)) (hx : w.backend step i s.sandbox = (x, b)) (n : Nat) :
    Alone w request s₀ (printing i x n) { s with sandbox := b }
  | finished {i s₁ s x b} (h : s₀.prepare w step request = .ok i s₁)
    (ha : s₁.acquire step = (.ok (), s)) (hx : w.backend step i s.sandbox = (x, b)) :
    Alone w request s₀ (finished i x) { s with sandbox := b }
  | released {i s₁ x s} (h : s₀.prepare w step request = .ok i s₁) (hr : s₁.run w step i = (x, s)) :
    Alone w request s₀ (released i x) s

namespace StageWork

variable {k : StageWork step} {o : Outbox step.Response} {s₀ s : Stages σ β}

theorem answer_of_alone {run : SandboxRun} {request : step.Request} {x : Execution}
    (ha : run.Alone w request s₀ s) (hx : run.ended? = some x) :
    Stages.answer w step request s₀ = (Stages.replies w step request x, s) := by
  rw [Stages.answer_eq]
  cases ha with
  | none | ready | queued | printing | finished => cases hx
  | unprepared h =>
    obtain rfl := Option.some.inj hx
    rw [h]
  | @busy i s₁ f s h ha =>
    obtain rfl := Option.some.inj hx
    have hrun : s₁.run w step i = (⟨.error f, []⟩, s) := by
      rw [Stages.run, ha]
      rfl
    rw [h]
    dsimp only
    rw [hrun]
  | released h hr =>
    obtain rfl := Option.some.inj hx
    rw [h]
    dsimp only
    rw [hr]

theorem alone_print (ha : k.run.Alone w k.request s₀ s) :
    (k.print w s).1.run.Alone w k.request s₀ (k.print w s).2 := by
  unfold print
  cases hrun : k.run with
  | none | refused | ready | released => exact ha
  | queued i =>
    rw [hrun] at ha
    cases ha with
    | queued h hacquire => exact .printing h hacquire rfl 0
  | printing i x n =>
    rw [hrun] at ha
    cases ha with
    | printing h hacquire hx =>
      dsimp only
      split
      · exact .printing h hacquire hx (n + 1)
      · exact .finished h hacquire hx
  | finished i x =>
    rw [hrun] at ha
    cases ha with
    | finished h hacquire hx =>
      refine .released h ?_
      rw [Stages.run, hacquire]
      dsimp only
      rw [Stages.carryOut, hx]
      cases step <;> rfl

theorem alone_handle (hk : k.Sound w o) (ha : k.run.Alone w k.request s₀ s) :
    (k.handle w s).1.run.Alone w k.request s₀ (k.handle w s).2.2 := by
  obtain ⟨-, out, said, -, -, hr⟩ := hk
  unfold handle
  cases hp : k.point with
  | fresh | judged | returned => exact ha
  | taken =>
    rw [Reached, hp] at hr
    rw [hr.1] at ha
    cases ha with
    | none =>
      dsimp only
      split
      · next h => exact .ready h
      · next h => exact .unprepared h
  | prepared =>
    dsimp only
    split
    · next i hrun =>
      rw [hrun] at ha
      cases ha with
      | ready h =>
        split
        · next hacquire => exact .queued h hacquire
        · next hacquire => exact .busy h hacquire
    · exact ha
  | running =>
    dsimp only
    split <;> exact ha
  | collecting | forwarding =>
    dsimp only
    split <;> exact ha
  | replying replies => cases replies <;> exact ha

theorem alone_go (hk : k.Sound w o) (ha : k.run.Alone w k.request s₀ s) (task : Task) :
    (go w task k s).1.run.Alone w k.request s₀ (go w task k s).2.2 := by
  cases task with
  | handler => exact alone_handle hk ha
  | sandbox => exact alone_print ha
  | relay n => exact ha

theorem request_go (w : Workshop σ β) (task : Task) (k : StageWork step) (s : Stages σ β) :
    (go w task k s).1.request = k.request := by
  cases task with
  | handler =>
    change (k.handle w s).1.request = k.request
    unfold handle
    repeat' split
    all_goals rfl
  | sandbox =>
    change (k.print w s).1.request = k.request
    unfold print
    repeat' split
    all_goals rfl
  | relay n => rfl

end StageWork

namespace Stages

def isOwn : Station.Action step.Request StageWork.Task (Stages σ β) → Bool
  | .post _ _ | .elsewhere _ => false
  | .take | .go _ _ | .leave _ => true

/-- There is one handling, which nothing has disturbed. -/
def Undisturbed (w : Workshop σ β) (request : step.Request) (s₀ : Stages σ β)
    (s : Station step.Request step.Response (StageWork step) (Stages σ β)) : Prop :=
  s.mailbox.queue = [] ∧ ∃ h, s.handlings = [h] ∧ (service w step).Kept (StageWork.Sound w) h ∧
    h.work.request = request ∧ h.work.run.Alone w request s₀ s.world

theorem undisturbed_change {request : step.Request} {s₀ : Stages σ β}
    {s s' : Station step.Request step.Response (StageWork step) (Stages σ β)}
    {x : Station.Action step.Request StageWork.Task (Stages σ β)}
    (hs : Undisturbed w request s₀ s) (hown : isOwn x)
    (hc : Station.Change (service w step) s x s') : Undisturbed w request s₀ s' := by
  obtain ⟨hqueue, h, hh, hkept, hrequest, halone⟩ := hs
  have hall : ∀ h ∈ s'.handlings, (service w step).Kept (StageWork.Sound w) h :=
    Station.kept_change (service_ends w step).toKeeps
      (by rw [hh]; exact fun b hb => List.mem_singleton.mp hb ▸ hkept) hc
  have hindex {i : Nat} {b : Handling step.Response (StageWork step)}
      (hi : s.handlings[i]? = some b) : i = 0 ∧ b = h := by
    rw [hh] at hi
    cases i with
    | zero => exact ⟨rfl, (Option.some.inj hi).symm⟩
    | succ i => cases hi
  have hset {b : Handling step.Response (StageWork step)}
      (hsame : Mailbox.SameQueue s.mailbox s'.mailbox)
      (hs' : s'.handlings = s.handlings.set 0 b) (hrequest' : b.work.request = request)
      (halone' : b.work.run.Alone w request s₀ s'.world) : Undisturbed w request s₀ s' := by
    have hh' : s'.handlings = [b] := by rw [hs', hh]; rfl
    exact ⟨hsame.queue.trans hqueue, b, hh', hall b (hh' ▸ List.mem_singleton_self b), hrequest',
      halone'⟩
  cases hc with
  | still => exact ⟨hqueue, h, hh, hkept, hrequest, halone⟩
  | post | elsewhere => cases hown
  | dropped hq | taken hq =>
    rw [hqueue] at hq
    cases hq
  | @work _ task _ hi =>
    obtain ⟨rfl, rfl⟩ := hindex hi
    refine hset (Station.sameQueue_update { s with world := _ } 0 _) rfl
      ((StageWork.request_go w task _ _).trans hrequest) ?_
    subst hrequest
    exact StageWork.alone_go hkept.1 halone task
  | free hi =>
    obtain ⟨rfl, rfl⟩ := hindex hi
    exact hset (Station.sameQueue_free s 0 _ _) rfl hrequest halone
  | leave hi =>
    obtain ⟨rfl, rfl⟩ := hindex hi
    exact hset (Station.sameQueue_update s 0 _) rfl hrequest halone

theorem undisturbed_take (w : Workshop σ β) (client : Nat) (request : step.Request)
    (s₀ : Stages σ β) : Undisturbed w request s₀
      (((Station.start s₀).post client request).take (service w step)) := by
  refine ⟨rfl, _, rfl, ⟨StageWork.sound_start w request, nofun⟩, rfl, .none⟩

/-- However its tasks take turns, a request that is alone is answered as by `answer`. -/
theorem undisturbed_answer (w : Workshop σ β) (client : Nat) (request : step.Request)
    (s₀ : Stages σ β) {actions : List (Station.Action step.Request StageWork.Task (Stages σ β))}
    (hown : ∀ x ∈ actions, isOwn x) :
    let s := worker w step s₀ (.post client request :: .take :: actions)
    ∃ h, s.handlings = [h] ∧
      (h.isClosed → (h.outbox.sent, s.world) = answer w step request s₀) := by
  intro s
  have hs : Undisturbed w request s₀ s := by
    have hrun (s : Station step.Request step.Response (StageWork step) (Stages σ β))
        (hs : Undisturbed w request s₀ s) :
        Undisturbed w request s₀ (s.actAll (service w step) actions) := by
      induction actions generalizing s with
      | nil => exact hs
      | cons x rest ih =>
        exact ih (fun y hy => hown y (List.mem_cons_of_mem x hy)) _
          (undisturbed_change hs (hown x List.mem_cons_self) (Station.change_act _ s x))
    exact hrun _ (undisturbed_take w client request s₀)
  obtain ⟨-, h, hh, ⟨hsound, hreturned⟩, rfl, halone⟩ := hs
  refine ⟨h, hh, fun hclosed => ?_⟩
  have hinactive := Handling.inactive_of_closed hclosed
  obtain ⟨x, hended, hsent⟩ := hsound.whole (returned_iff.mp (hreturned hinactive))
  rw [StageWork.answer_of_alone halone hended, hsent]

end Stages

end Buildbox
