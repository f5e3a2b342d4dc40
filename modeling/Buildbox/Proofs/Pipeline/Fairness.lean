import Buildbox.Proofs.Pipeline.Exclusion
import Buildbox.Proofs.Worker.Progress
import Mathlib.Data.Nat.Pairing

/-! In a schedule that passes over no worker and no handler for ever, every request that was
posted is answered sooner or later, whatever else goes on. -/

namespace Buildbox

namespace Floor

variable {σ β : Type} {w : Workshop σ β} {f : Floor σ β} {step : Step} {ticket t : Ticket}

theorem Orderly.not_speaking (ho : f.Orderly) (hserve : (f.desk step).Serving t)
    (hopen : ¬ (f.desk step).Rest (t + 1)) {run : Nat} {d : Driver}
    (hrun : f.drivers[run]? = some d) (e : Dialogue (List PipelineEvent)) :
    d.turn ≠ .speaking e := by
  have hbusy : ¬ ∃ n, (f.desk step).Rest n := fun ⟨_, hn⟩ => hopen (hserve.rest_of_rest hn)
  intro hd
  have hleft : ¬ d.turn.Left := by
    rw [hd]
    exact not_false
  cases ho with
  | free _ _ hr => exact hbusy (hr step)
  | speaking _ _ _ hr => exact hbusy (hr step)
  | waiting _ hdrivers hb =>
    rw [hdrivers] at hrun
    obtain ⟨-, rfl⟩ := last_of_not_left hb hrun hleft
    cases hd

theorem Orderly.desk_act (ho : f.Orderly) (hserve : (f.desk step).Serving t)
    (hopen : ¬ (f.desk step).Rest (t + 1)) (w : Workshop σ β) (action : Action) :
    ((f.act w action).desk step).Serving t ∧ ((f.act w action).desk step = f.desk step ∨
      Amount.Less ((f.act w action).desk step).left (f.desk step).left) := by
  have hsame {g : Floor σ β} (hg : g.desk step = f.desk step) : (g.desk step).Serving t ∧
      (g.desk step = f.desk step ∨ Amount.Less (g.desk step).left (f.desk step).left) := by
    rw [hg]
    exact ⟨hserve, .inl rfl⟩
  cases action with
  | ask files => exact hsame (desk_ask ..)
  | advance run =>
    refine hsame ?_
    change (f.advance run).desk step = _
    cases hrun : f.drivers[run]? with
    | none => rw [advance_of_none hrun]
    | some d =>
      rw [advance_of_get hrun]
      exact desk_go_of_not_speaking (ho.not_speaking hserve hopen hrun) run step
  | take other =>
    by_cases hother : step = other
    · subst hother
      change ((f.take step).desk step).Serving t ∧ ((f.take step).desk step = _ ∨
        Amount.Less ((f.take step).desk step).left _)
      rw [desk_take]
      exact ⟨hserve.take, hserve.left_take⟩
    · exact hsame (f.desk_take_of_ne hother)
  | work other ticket =>
    by_cases hother : step = other
    · subst hother
      change ((f.work w step ticket).desk step).Serving t ∧ ((f.work w step ticket).desk step = _ ∨
        Amount.Less ((f.work w step ticket).desk step).left _)
      rw [desk_work]
      exact ⟨(hserve.work w ticket rfl).1, hserve.left_work w ticket rfl⟩
    · exact hsame (ho.desk_work_of_ne w ticket hother)

def along (w : Workshop σ β) (schedule : Nat → Action) (f : Floor σ β) (n : Nat) : Floor σ β :=
  f.actAll w ((List.range n).map schedule)

/-- A schedule in which workers and handlers get their turn again and again. -/
structure Fair (schedule : Nat → Action) : Prop where
  take : ∀ step n, ∃ m, n ≤ m ∧ schedule m = .take step
  work : ∀ step ticket n, ∃ m, n ≤ m ∧ schedule m = .work step ticket

section Schedules

variable {schedule : Nat → Action}

theorem along_succ (w : Workshop σ β) (schedule : Nat → Action) (f : Floor σ β) (n : Nat) :
    f.along w schedule (n + 1) = (f.along w schedule n).act w (schedule n) := by
  unfold along actAll
  rw [List.range_succ, List.map_append, List.foldl_append]
  rfl

theorem orderly_along (ho : f.Orderly) (w : Workshop σ β) (schedule : Nat → Action) (n : Nat) :
    (f.along w schedule n).Orderly :=
  orderly_actAll ho w _

theorem Orderly.stays_or_less (ho : f.Orderly) {n : Nat}
    (hserve : ((f.along w schedule n).desk step).Serving t)
    (hopen : ¬ ((f.along w schedule n).desk step).Rest (t + 1)) (k : Nat) :
    (f.along w schedule (n + k)).desk step = (f.along w schedule n).desk step ∨
      ∃ m, n ≤ m ∧ ((f.along w schedule m).desk step).Serving t ∧
        Amount.Less ((f.along w schedule m).desk step).left
          ((f.along w schedule n).desk step).left := by
  induction k with
  | zero => exact .inl rfl
  | succ k ih =>
    rcases ih with heq | hless
    · rw [← heq] at hserve hopen
      have hnow := (orderly_along ho w schedule (n + k)).desk_act hserve hopen w (schedule (n + k))
      rw [← along_succ, heq] at hnow
      obtain ⟨hserving, hsame | hless⟩ := hnow
      · exact .inl hsame
      · exact .inr ⟨n + k + 1, by omega, hserving, hless⟩
    · exact .inr hless

theorem Fair.due (hfair : Fair schedule) (w : Workshop σ β) (hserve : (f.desk step).Serving t)
    (hopen : ¬ (f.desk step).Rest (t + 1)) :
    ∃ action, (∀ n, ∃ m, n ≤ m ∧ schedule m = action) ∧
      ∀ g : Floor σ β, g.desk step = f.desk step →
        Amount.Less ((g.act w action).desk step).left (f.desk step).left := by
  rcases hserve.due w with hr | htake | hwork
  · exact absurd hr hopen
  · refine ⟨.take step, hfair.take step, fun g hg => ?_⟩
    change Amount.Less ((g.take step).desk step).left _
    rwa [desk_take, hg]
  · refine ⟨.work step t, hfair.work step t, fun g hg => ?_⟩
    change Amount.Less ((g.work w step t).desk step).left _
    rw [desk_work, hg]
    exact hwork _

theorem Fair.rest (hfair : Fair schedule) (ho : f.Orderly) (w : Workshop σ β) {n : Nat}
    (hserve : ((f.along w schedule n).desk step).Serving t) :
    ∃ m, n ≤ m ∧ ((f.along w schedule m).desk step).Rest (t + 1) := by
  obtain ⟨amount, hamount⟩ : ∃ a, a = ((f.along w schedule n).desk step).left := ⟨_, rfl⟩
  -- By induction on what is left to do: sooner or later the step that is due is taken.
  induction amount using Amount.less_wf.induction generalizing n with
  | _ amount ih =>
    by_cases hopen : ((f.along w schedule n).desk step).Rest (t + 1)
    · exact ⟨n, Nat.le_refl n, hopen⟩
    have hless {m : Nat} (hm : n ≤ m) (hserving : ((f.along w schedule m).desk step).Serving t)
        (hl : Amount.Less ((f.along w schedule m).desk step).left amount) :
        ∃ m, n ≤ m ∧ ((f.along w schedule m).desk step).Rest (t + 1) := by
      obtain ⟨m', hm', hrest⟩ := ih _ hl hserving rfl
      exact ⟨m', Nat.le_trans hm hm', hrest⟩
    obtain ⟨action, hturn, hdue⟩ := hfair.due w hserve hopen
    obtain ⟨m, hm, haction⟩ := hturn n
    obtain ⟨k, rfl⟩ := Nat.exists_eq_add_of_le hm
    rcases ho.stays_or_less hserve hopen k with heq | ⟨m, hm, hserving, hl⟩
    -- Nothing has moved until the turn of the step that is due.
    · have hl := hdue _ heq
      rw [← haction, ← along_succ, ← hamount] at hl
      rw [← heq] at hserve hopen
      have hnow := (orderly_along ho w schedule (n + k)).desk_act hserve hopen w (schedule (n + k))
      rw [← along_succ] at hnow
      exact hless (Nat.le_succ_of_le hm) hnow.1 hl
    · exact hless hm hserving (hamount ▸ hl)

/-- All was replied to a request, and the stream of its replies has closed. -/
structure Answered (f : Floor σ β) (step : Step) (ticket : Ticket) : Prop where
  closed : ticket ∈ (f.mailbox step).closed
  ended : ∃ h ∈ f.handlers step, h.ticket = ticket ∧ h.phase = .ended

theorem answered_of_rest {n : Nat} (hr : (f.desk step).Rest n) (ht : ticket < n) :
    f.Answered step ticket := by
  have hm : f.mailbox step = _ := hr.mailbox
  have hmem : ticket ∈ (f.handlers step).map (·.ticket) := by
    have htickets : (f.handlers step).map (·.ticket) = _ := hr.past.1
    rw [htickets]
    exact List.mem_range.mpr ht
  obtain ⟨h, hh, hticket⟩ := List.mem_map.mp hmem
  constructor
  · rw [hm]
    exact List.mem_range.mpr ht
  · exact ⟨h, hh, hticket, hr.past.2 h hh⟩

theorem Fair.answered (hfair : Fair schedule) (ho : f.Orderly) (w : Workshop σ β)
    (ht : ticket < (f.mailbox step).posted) : ∃ n, (f.along w schedule n).Answered step ticket := by
  have hposted : ticket < (f.desk step).mailbox.posted := ht
  rcases ho.rest_or_serving step with ⟨n, hn⟩ | ⟨t, hserve⟩
  · rw [hn.mailbox] at hposted
    exact ⟨0, answered_of_rest hn hposted⟩
  · rw [hserve.posted] at hposted
    obtain ⟨m, -, hm⟩ := hfair.rest ho w (n := 0) hserve
    exact ⟨m, answered_of_rest hm hposted⟩

end Schedules

def inTurn (n : Nat) : Action :=
  match n.unpair.1 with
  | 0 => .take .transpile
  | 1 => .take .compile
  | 2 => .take .execute
  | k + 3 =>
    match k % 3 with
    | 0 => .work .transpile (k / 3)
    | 1 => .work .compile (k / 3)
    | _ => .work .execute (k / 3)

theorem fair_inTurn : Fair inTurn := by
  have hturn (k n : Nat) {action : Action} (haction : inTurn (Nat.pair k 0) = action) :
      ∃ m, n ≤ m ∧ inTurn m = action := by
    refine ⟨Nat.pair k n, Nat.right_le_pair k n, ?_⟩
    rw [← haction, inTurn, inTurn, Nat.unpair_pair, Nat.unpair_pair]
  constructor
  · intro step n
    cases step with
    | transpile => exact hturn 0 n (by rw [inTurn, Nat.unpair_pair])
    | compile => exact hturn 1 n (by rw [inTurn, Nat.unpair_pair])
    | execute => exact hturn 2 n (by rw [inTurn, Nat.unpair_pair])
  · intro step ticket n
    cases step with
    | transpile => exact hturn (3 * ticket + 3) n (by simp [inTurn])
    | compile => exact hturn (3 * ticket + 1 + 3) n (by simp [inTurn, Nat.mul_add_div])
    | execute => exact hturn (3 * ticket + 2 + 3) n (by simp [inTurn, Nat.mul_add_div])

end Floor

end Buildbox
