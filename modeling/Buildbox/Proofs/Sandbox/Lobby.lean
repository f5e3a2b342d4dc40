import Buildbox.Proofs.Lists
import Buildbox.Sandbox.Lobby
import Buildbox.Stage.Basic

/-! However many call for a sandbox, whenever they go away and however their runs end, the sandbox
carries out one run at a time. It is in use from when a caller was let in until the run that was
started for that caller has ended. -/

namespace Buildbox

def Bid.holds : Bid → Bool
  | admitted | counted => true
  | _ => false

def Bid.isRefusal : Bid → Bool
  | refused | rejected => true
  | _ => false

def Job.holds : Job → Bool
  | queued | executing | ended _ => true
  | _ => false

def Job.executes : Job → Bool
  | executing => true
  | _ => false

def Job.isStarted : Job → Bool
  | none => false
  | _ => true

namespace Attempt

def holds (a : Attempt) : Bool :=
  a.bid.holds || a.job.holds

def wasRefused (a : Attempt) : Bool :=
  a.bid.isRefusal

def wasAdmitted (a : Attempt) : Bool :=
  a.bid.holds || a.job.isStarted

def isDecided (a : Attempt) : Bool :=
  a.wasRefused || a.wasAdmitted

def owesRefusal (a : Attempt) : Bool :=
  a.bid matches .refused

def owesAdmission (a : Attempt) : Bool :=
  a.bid matches .admitted

inductive Sound : Attempt → Prop where
  | early {bid} (h : bid = .fresh ∨ bid.isRefusal ∨ bid.holds) : Sound ⟨bid, .none⟩
  | awaiting {job} (h : job.isStarted) : Sound ⟨.awaiting, job⟩
  | answered (c : Completion) : Sound ⟨.answered c, .released c⟩
  | dropped (job : Job) : Sound ⟨.dropped, job⟩

inductive Stride (r : Runner) : Attempt → Attempt → Runner → Prop where
  | stay {a} : Stride r a a r
  | enter {job} (h : r.state = .idle) :
    Stride r ⟨.fresh, job⟩ ⟨.admitted, job⟩ { r with state := .running }
  | refuse {job} (h : r.state = .running) : Stride r ⟨.fresh, job⟩ ⟨.refused, job⟩ r
  | reject {job} : Stride r ⟨.refused, job⟩ ⟨.rejected, job⟩ (r.count false)
  | count {job} : Stride r ⟨.admitted, job⟩ ⟨.counted, job⟩ (r.count true)
  | spawn {job} : Stride r ⟨.counted, job⟩ ⟨.awaiting, .queued⟩ r
  | hear {c} : Stride r ⟨.awaiting, .released c⟩ ⟨.answered c, .released c⟩ r
  | quit {bid job} (h : bid = .fresh ∨ bid = .awaiting) : Stride r ⟨bid, job⟩ ⟨.dropped, job⟩ r
  | begin {bid} : Stride r ⟨bid, .queued⟩ ⟨bid, .executing⟩ r
  | finish {bid} (c : Completion) : Stride r ⟨bid, .executing⟩ ⟨bid, .ended c⟩ r
  | release {bid c} : Stride r ⟨bid, .ended c⟩ ⟨bid, .released c⟩ r.release

variable {a b : Attempt} {r s : Runner}

section Strides

theorem stride_go (a : Attempt) (r : Runner) : Stride r a (a.go r).1 (a.go r).2 := by
  obtain ⟨bid, job⟩ := a
  cases bid with
  | fresh =>
    unfold go Runner.enter
    cases h : r.state with
    | idle => exact .enter h
    | running => exact .refuse h
  | refused => exact .reject
  | admitted => exact .count
  | counted => exact .spawn
  | awaiting =>
    cases job with
    | released c => exact .hear
    | _ => exact .stay
  | _ => exact .stay

theorem stride_drop (a : Attempt) (r : Runner) : Stride r a a.drop r := by
  obtain ⟨bid, job⟩ := a
  cases bid with
  | fresh => exact .quit (.inl rfl)
  | awaiting => exact .quit (.inr rfl)
  | _ => exact .stay

theorem stride_work (a : Attempt) (r : Runner) : Stride r a (a.work r).1 (a.work r).2 := by
  obtain ⟨bid, job⟩ := a
  cases job with
  | queued => exact .begin
  | ended c => exact .release
  | _ => exact .stay

theorem stride_finish (a : Attempt) (c : Completion) (r : Runner) :
    Stride r a (a.finish c) r := by
  obtain ⟨bid, job⟩ := a
  cases job with
  | executing => exact .finish c
  | _ => exact .stay

namespace Stride

theorem sound (hs : Stride r a b s) (ha : a.Sound) : b.Sound := by
  cases hs with
  | stay => exact ha
  | enter => cases ha; exact .early (.inr (.inr rfl))
  | refuse => cases ha; exact .early (.inr (.inl rfl))
  | reject => cases ha; exact .early (.inr (.inl rfl))
  | count => cases ha; exact .early (.inr (.inr rfl))
  | spawn => exact .awaiting rfl
  | hear => exact .answered _
  | quit => exact .dropped _
  | begin | finish | release =>
    cases ha with
    | awaiting => exact .awaiting rfl
    | dropped => exact .dropped _

theorem balance (hs : Stride r a b s) (ha : a.Sound) (hr : a.holds → r.state = .running) :
    b.holds.toNat + (if r.state = .running then 1 else 0) =
      a.holds.toNat + (if s.state = .running then 1 else 0) := by
  cases hs with
  | stay | hear | begin | finish | refuse | reject | count => rfl
  | enter h => cases ha; simp [holds, Bid.holds, Job.holds, h]
  | spawn => cases ha; rfl
  | quit h => obtain rfl | rfl := h <;> rfl
  | release => cases ha <;> simp [holds, Bid.holds, Job.holds, Runner.release, hr rfl]

theorem runs (hs : Stride r a b s) (ha : a.Sound) :
    s.runCount + b.owesAdmission.toNat + a.wasAdmitted.toNat =
      r.runCount + a.owesAdmission.toNat + b.wasAdmitted.toNat := by
  cases hs with
  | stay | reject | refuse | hear | begin | finish | release => rfl
  | enter => cases ha; rfl
  | count => cases ha; simp [owesAdmission, wasAdmitted, Bid.holds, Runner.count]
  | spawn => cases ha; rfl
  | quit h => obtain rfl | rfl := h <;> rfl

theorem rejections (hs : Stride r a b s) :
    s.rejectedCount + b.owesRefusal.toNat + a.wasRefused.toNat =
      r.rejectedCount + a.owesRefusal.toNat + b.wasRefused.toNat := by
  cases hs with
  | stay | enter | refuse | count | spawn | hear | begin | finish | release => rfl
  | reject => simp [owesRefusal, wasRefused, Bid.isRefusal, Runner.count]
  | quit h => obtain rfl | rfl := h <;> rfl

end Stride

theorem Stride.decided (hs : Stride r a b s) (ha : a.Sound) :
    (a.wasRefused → b.wasRefused) ∧ (a.wasAdmitted → b.wasAdmitted) := by
  cases hs with
  | stay | reject | hear | begin | finish | release => exact ⟨id, id⟩
  | enter | refuse => cases ha; exact ⟨nofun, nofun⟩
  | count => cases ha; exact ⟨nofun, id⟩
  | spawn => exact ⟨nofun, fun _ => rfl⟩
  | quit h => obtain rfl | rfl := h <;> exact ⟨nofun, id⟩

theorem Stride.lets_go (hs : Stride r a b s) (ha : a.holds) :
    b.holds ∨ ∃ c, a.job = .ended c ∧ b = { a with job := .released c } ∧ s = r.release := by
  cases hs with
  | stay | reject | refuse | begin | finish => exact .inl ha
  | enter | count => exact .inl rfl
  | spawn => exact .inl rfl
  | hear => cases ha
  | quit h => obtain rfl | rfl := h <;> exact .inl ha
  | @release bid c => exact .inr ⟨c, rfl, rfl, rfl⟩

theorem isDecided_go (ha : a.Sound) (h : (a.go r).1.isDecided) :
    a.isDecided ∨ a.bid = .fresh := by
  cases ha with
  | @early bid hbid =>
    rcases hbid with rfl | hbid | hbid
    · exact .inr rfl
    · exact .inl (by simp [isDecided, wasRefused, hbid])
    · exact .inl (by simp [isDecided, wasAdmitted, hbid])
  | awaiting hjob => exact .inl hjob
  | answered c => exact .inl rfl
  | dropped job => exact .inl h

theorem isDecided_drop : a.drop.isDecided → a.isDecided := by
  obtain ⟨bid, job⟩ := a
  cases bid <;> exact id

theorem isDecided_work : (a.work r).1.isDecided → a.isDecided := by
  obtain ⟨bid, job⟩ := a
  cases job <;> simp [work, isDecided, wasRefused, wasAdmitted, Job.isStarted]

theorem isDecided_finish {c : Completion} : (a.finish c).isDecided → a.isDecided := by
  obtain ⟨bid, job⟩ := a
  cases job <;> simp [finish, isDecided, wasRefused, wasAdmitted, Job.isStarted]

theorem Sound.not_both (ha : a.Sound) (hr : a.wasRefused) : a.wasAdmitted = false := by
  cases ha with
  | @early bid => cases bid <;> first | rfl | cases hr
  | awaiting | answered | dropped => cases hr

theorem Sound.answer (ha : a.Sound) {name : String} {result : Except Failure RunReport}
    (h : a.answer? name = some result) :
    a.holds = false ∧ (a.wasRefused ∧ result = .error (.busy name) ∨
      ∃ c, a.wasAdmitted ∧ a.job = .released c ∧ result = c.result) := by
  cases ha with
  | @early bid =>
    cases bid with
    | rejected => exact ⟨rfl, .inl ⟨rfl, (Option.some.inj h).symm⟩⟩
    | answered c => simp_all [Bid.isRefusal, Bid.holds]
    | _ => cases h
  | awaiting | dropped => cases h
  | answered c => exact ⟨rfl, .inr ⟨c, rfl, rfl, (Option.some.inj h).symm⟩⟩

end Strides

end Attempt

namespace Lobby

variable {l : Lobby} {a b : Attempt} {r : Runner} {i : Nat}

/-- What holds in a lobby at any time. -/
structure Orderly (l : Lobby) : Prop where
  sound : ∀ a ∈ l.attempts, a.Sound
  held : l.attempts.countP Attempt.holds = if l.runner.state = .running then 1 else 0
  runs : l.runner.runCount + l.attempts.countP Attempt.owesAdmission =
    l.attempts.countP Attempt.wasAdmitted
  rejections : l.runner.rejectedCount + l.attempts.countP Attempt.owesRefusal =
    l.attempts.countP Attempt.wasRefused

section Steps

theorem moveAt_of_get {move : Attempt → Runner → Attempt × Runner} (ha : l.attempts[i]? = some a) :
    l.moveAt i move = { runner := (move a l.runner).2
                        attempts := l.attempts.set i (move a l.runner).1 } := by
  simp only [moveAt, ha]

theorem moveAt_cases (l : Lobby) (i : Nat) (move : Attempt → Runner → Attempt × Runner)
    (hs : ∀ a r, Attempt.Stride r a (move a r).1 (move a r).2) :
    l.moveAt i move = l ∨ ∃ j a b r, l.attempts[j]? = some a ∧ Attempt.Stride l.runner a b r ∧
      l.moveAt i move = { runner := r, attempts := l.attempts.set j b } := by
  cases ha : l.attempts[i]? with
  | none => exact .inl (by simp only [moveAt, ha])
  | some a => exact .inr ⟨i, a, _, _, ha, hs a l.runner, moveAt_of_get ha⟩

theorem act_cases (l : Lobby) (x : Action) :
    l.act x = { l with attempts := l.attempts ++ [{}] } ∨ l.act x = l ∨
      ∃ j a b r, l.attempts[j]? = some a ∧ Attempt.Stride l.runner a b r ∧
        l.act x = { runner := r, attempts := l.attempts.set j b } := by
  cases x with
  | call => exact .inl rfl
  | go i => exact .inr (l.moveAt_cases i _ Attempt.stride_go)
  | drop i => exact .inr (l.moveAt_cases i (fun a r => (a.drop, r)) Attempt.stride_drop)
  | work i => exact .inr (l.moveAt_cases i _ Attempt.stride_work)
  | finish i c =>
    exact .inr (l.moveAt_cases i (fun a r => (a.finish c, r)) fun a r => a.stride_finish c r)

theorem Orderly.running (ho : l.Orderly) (ha : a ∈ l.attempts) (hholds : a.holds) :
    l.runner.state = .running := by
  have hpos : 0 < l.attempts.countP Attempt.holds := List.countP_pos_iff.mpr ⟨a, ha, hholds⟩
  rw [ho.held] at hpos
  by_cases h : l.runner.state = .running
  · exact h
  · rw [if_neg h] at hpos
    exact absurd hpos (Nat.lt_irrefl 0)

theorem Orderly.running_iff (ho : l.Orderly) :
    l.runner.state = .running ↔ ∃ a ∈ l.attempts, a.holds := by
  refine ⟨fun h => ?_, fun ⟨a, ha, hholds⟩ => ho.running ha hholds⟩
  have hheld := ho.held
  rw [if_pos h] at hheld
  exact List.countP_pos_iff.mp (hheld ▸ Nat.one_pos)

theorem orderly_stride (ho : l.Orderly) (ha : l.attempts[i]? = some a)
    (hs : Attempt.Stride l.runner a b r) :
    Orderly { runner := r, attempts := l.attempts.set i b } := by
  have hmem := List.mem_of_getElem? ha
  have hsound := ho.sound a hmem
  constructor
  case sound =>
    intro q hq
    rcases List.mem_or_eq_of_mem_set hq with hq | rfl
    · exact ho.sound q hq
    · exact hs.sound hsound
  case held =>
    have hset := countP_set_toNat ha Attempt.holds b
    have hbalance := hs.balance hsound (ho.running hmem)
    rw [ho.held] at hset
    dsimp only
    omega
  case runs =>
    have hset := countP_set_toNat ha Attempt.owesAdmission b
    have hset' := countP_set_toNat ha Attempt.wasAdmitted b
    have hruns := hs.runs hsound
    have hnow := ho.runs
    dsimp only
    omega
  case rejections =>
    have hset := countP_set_toNat ha Attempt.owesRefusal b
    have hset' := countP_set_toNat ha Attempt.wasRefused b
    have hrejections := hs.rejections
    have hnow := ho.rejections
    dsimp only
    omega

theorem orderly_act (ho : l.Orderly) (x : Action) : (l.act x).Orderly := by
  rcases l.act_cases x with hcall | hsame | ⟨i, a, b, r, ha, hs, hact⟩
  · rw [hcall]
    obtain ⟨hsound, hheld, hruns, hrejections⟩ := ho
    refine ⟨fun a ha => ?_, ?_, ?_, ?_⟩
    · rcases List.mem_append.mp ha with ha | ha
      · exact hsound a ha
      · exact List.mem_singleton.mp ha ▸ .early (.inl rfl)
    all_goals simpa only [List.countP_append] using by assumption
  · rwa [hsame]
  · rw [hact]
    exact orderly_stride ho ha hs

theorem orderly_actAll (ho : l.Orderly) (actions : List Action) : (l.actAll actions).Orderly := by
  induction actions generalizing l with
  | nil => exact ho
  | cons x rest ih => exact ih (orderly_act ho x)

theorem orderly_start (name : String) : (start name).Orderly :=
  ⟨fun _ ha => absurd ha List.not_mem_nil, rfl, rfl, rfl⟩

end Steps

section Histories

theorem get_moveAt_of_ne {j : Nat} (hne : j ≠ i) (move : Attempt → Runner → Attempt × Runner)
    (l : Lobby) : (l.moveAt j move).attempts[i]? = l.attempts[i]? := by
  unfold moveAt
  split
  · rfl
  · exact List.getElem?_set_ne hne

theorem get_moveAt {move : Attempt → Runner → Attempt × Runner} (ha : l.attempts[i]? = some a) :
    (l.moveAt i move).attempts[i]? = some (move a l.runner).1 := by
  rw [moveAt_of_get ha]
  exact List.getElem?_set_self (List.getElem?_eq_some_iff.mp ha).1

theorem get_act (ha : l.attempts[i]? = some a) (x : Action) :
    ∃ b, (l.act x).attempts[i]? = some b ∧ ∃ r, Attempt.Stride l.runner a b r := by
  have hlt := (List.getElem?_eq_some_iff.mp ha).1
  rcases l.act_cases x with hcall | hsame | ⟨j, a', b, r, ha', hs, hact⟩
  · exact ⟨a, by rw [hcall]; exact (List.getElem?_append_left hlt).trans ha, _, .stay⟩
  · exact ⟨a, by rwa [hsame], _, .stay⟩
  · rw [hact]
    by_cases hj : j = i
    · subst hj
      obtain rfl := Option.some.inj (ha.symm.trans ha')
      exact ⟨b, List.getElem?_set_self hlt, r, hs⟩
    · exact ⟨a, (List.getElem?_set_ne hj).trans ha, _, .stay⟩

theorem decided_actAll (ho : l.Orderly) (ha : l.attempts[i]? = some a) (actions : List Action) :
    ∃ b, (l.actAll actions).attempts[i]? = some b ∧ (a.wasRefused → b.wasRefused) ∧
      (a.wasAdmitted → b.wasAdmitted) := by
  induction actions generalizing l a with
  | nil => exact ⟨a, ha, id, id⟩
  | cons x rest ih =>
    obtain ⟨b, hb, r, hs⟩ := get_act ha x
    obtain ⟨hrefused, hadmitted⟩ := hs.decided (ho.sound a (List.mem_of_getElem? ha))
    obtain ⟨c, hc, hrefused', hadmitted'⟩ := ih (orderly_act ho x) hb
    exact ⟨c, hc, hrefused' ∘ hrefused, hadmitted' ∘ hadmitted⟩

theorem fresh_of_decided (ho : l.Orderly) {x : Action} (hb : (l.act x).attempts[i]? = some b)
    (hdecided : b.isDecided) (hopen : ∀ a, l.attempts[i]? = some a → ¬ a.isDecided) :
    x = .go i ∧ ∃ a, l.attempts[i]? = some a ∧ a.bid = .fresh := by
  have hold : l.attempts[i]? ≠ some b := fun h => hopen b h hdecided
  -- Of all moves, only the caller's own decides anything.
  have hmove {j : Nat} {move : Attempt → Runner → Attempt × Runner}
      (hb : (l.moveAt j move).attempts[i]? = some b) :
      j = i ∧ ∃ a, l.attempts[i]? = some a ∧ (move a l.runner).1.isDecided := by
    have hj : j = i := Classical.byContradiction fun hne =>
      hold ((get_moveAt_of_ne hne move l).symm.trans hb)
    subst hj
    cases ha : l.attempts[j]? with
    | none => simp [moveAt, ha] at hb
    | some a =>
      rw [get_moveAt ha] at hb
      exact ⟨rfl, a, rfl, Option.some.inj hb ▸ hdecided⟩
  cases x with
  | call =>
    by_cases hlt : i < l.attempts.length
    · exact absurd ((List.getElem?_append_left hlt).symm.trans hb) hold
    · have hmem := List.mem_of_getElem?
        ((List.getElem?_append_right (Nat.not_lt.mp hlt)).symm.trans hb)
      rw [List.mem_singleton.mp hmem] at hdecided
      cases hdecided
  | go j =>
    obtain ⟨rfl, a, ha, hgo⟩ := hmove hb
    have hsound := ho.sound a (List.mem_of_getElem? ha)
    exact ⟨rfl, a, ha, (Attempt.isDecided_go hsound hgo).resolve_left (hopen a ha)⟩
  | drop j =>
    obtain ⟨rfl, a, ha, hdrop⟩ := hmove hb
    exact absurd (Attempt.isDecided_drop hdrop) (hopen a ha)
  | work j =>
    obtain ⟨rfl, a, ha, hwork⟩ := hmove hb
    exact absurd (Attempt.isDecided_work hwork) (hopen a ha)
  | finish j c =>
    obtain ⟨rfl, a, ha, hfinish⟩ := hmove hb
    exact absurd (Attempt.isDecided_finish hfinish) (hopen a ha)

theorem exists_ask (ho : l.Orderly) {actions : List Action}
    (hb : (l.actAll actions).attempts[i]? = some b) (hdecided : b.isDecided)
    (hopen : ∀ a, l.attempts[i]? = some a → ¬ a.isDecided) :
    ∃ before after a, actions = before ++ .go i :: after ∧
      (l.actAll before).attempts[i]? = some a ∧ a.bid = .fresh := by
  obtain ⟨before, x, after, rfl, hno, q, hq, hyes⟩ :=
    exists_turn (p := fun m : Lobby => ∃ a, m.attempts[i]? = some a ∧ a.isDecided)
      (fun ⟨a, ha, hdecided⟩ => hopen a ha hdecided) ⟨b, hb, hdecided⟩
  obtain ⟨rfl, a, hmoment⟩ := fresh_of_decided (orderly_actAll ho before) hq hyes
    fun a ha hdecided => hno ⟨a, ha, hdecided⟩
  exact ⟨before, after, a, rfl, hmoment⟩

theorem decided_of_fresh (ho : l.Orderly) (ha : l.attempts[i]? = some a) (hfresh : a.bid = .fresh)
    (actions : List Action) :
    ∃ b, (l.actAll (.go i :: actions)).attempts[i]? = some b ∧
      (b.wasRefused ↔ ∃ q ∈ l.attempts, q.holds) ∧
      (b.wasAdmitted ↔ ¬ ∃ q ∈ l.attempts, q.holds) := by
  have hgo : (l.act (.go i)).attempts[i]? = some (a.go l.runner).1 := get_moveAt ha
  have ho' := orderly_act ho (.go i)
  obtain ⟨b, hb, hrefused, hadmitted⟩ := decided_actAll ho' hgo actions
  have hsound := (orderly_actAll ho' actions).sound b (List.mem_of_getElem? hb)
  refine ⟨b, hb, ?_⟩
  by_cases hin : l.runner.state = .running
  · have hno : b.wasRefused := hrefused (by
      simp [Attempt.go, hfresh, Runner.enter, hin, Attempt.wasRefused, Bid.isRefusal])
    have hholder := ho.running_iff.mp hin
    simp [hno, hsound.not_both hno, hholder]
  · have hyes : b.wasAdmitted := hadmitted (by
      have hidle : l.runner.state = .idle := by
        cases h : l.runner.state
        · rfl
        · exact absurd h hin
      simp [Attempt.go, hfresh, Runner.enter, hidle, Attempt.wasAdmitted, Bid.holds])
    have hno : b.wasRefused = false := by
      rw [← Bool.not_eq_true]
      intro hrefused
      rw [hsound.not_both hrefused] at hyes
      cases hyes
    have hholder := mt ho.running_iff.mpr hin
    simp [hyes, hno, hholder]

end Histories

section Letting

theorem held_until_ended (ha : l.attempts[i]? = some a) (hholds : a.holds) (x : Action) :
    ∃ b, (l.act x).attempts[i]? = some b ∧ (b.holds ∨ ∃ c, a.job = .ended c) := by
  obtain ⟨b, hb, r, hs⟩ := get_act ha x
  refine ⟨b, hb, (hs.lets_go hholds).imp_right ?_⟩
  rintro ⟨c, hjob, -⟩
  exact ⟨c, hjob⟩

theorem drop_leaves (l : Lobby) (i : Nat) :
    (l.act (.drop i)).runner = l.runner ∧
    (l.act (.drop i)).attempts.map (·.job) = l.attempts.map (·.job) ∧
    (l.act (.drop i)).attempts.map Attempt.holds = l.attempts.map Attempt.holds := by
  change (l.moveAt i fun a r => (a.drop, r)).runner = _ ∧ _
  cases ha : l.attempts[i]? with
  | none => simp [act, moveAt, ha]
  | some a =>
    have hsame : a.drop.job = a.job ∧ a.drop.holds = a.holds := by
      obtain ⟨bid, job⟩ := a
      cases bid <;> exact ⟨rfl, rfl⟩
    rw [act, moveAt_of_get ha]
    exact ⟨rfl, map_set_of_eq ha _ hsame.1, map_set_of_eq ha _ hsame.2⟩

def due (c : Completion) (i : Nat) (a : Attempt) : Action :=
  match a.job with
  | .queued | .ended _ => .work i
  | .executing => .finish i c
  | _ => .go i

theorem due_cases (c : Completion) (i : Nat) (a : Attempt) :
    due c i a = .go i ∨ due c i a = .work i ∨ due c i a = .finish i c := by
  unfold due
  split <;> simp

def stepsLeft (a : Attempt) : Nat :=
  match a.job with
  | .queued => 3
  | .executing => 2
  | .ended _ => 1
  | _ => if a.bid matches .admitted then 5 else 4

theorem act_due (hs : a.Sound) (ha : l.attempts[i]? = some a) (hholds : a.holds) (c : Completion) :
    (l.act (due c i a)).runner.state = .idle ∨
      ∃ b, (l.act (due c i a)).attempts[i]? = some b ∧ b.holds ∧ stepsLeft b < stepsLeft a := by
  have hnext (move : Attempt → Runner → Attempt × Runner) (b : Attempt)
      (hb : (move a l.runner).1 = b) (hholds : b.holds) (hl : stepsLeft b < stepsLeft a) :
      (l.moveAt i move).runner.state = .idle ∨
        ∃ b, (l.moveAt i move).attempts[i]? = some b ∧ b.holds ∧ stepsLeft b < stepsLeft a :=
    .inr ⟨b, hb ▸ get_moveAt ha, hholds, hl⟩
  obtain ⟨bid, job⟩ := a
  cases job with
  | none =>
    cases bid with
    | admitted => exact hnext Attempt.go ⟨.counted, .none⟩ rfl rfl (by decide)
    | counted => exact hnext Attempt.go ⟨.awaiting, .queued⟩ rfl rfl (by decide)
    | _ => cases hholds
  | queued =>
    exact hnext Attempt.work ⟨bid, .executing⟩ rfl (Bool.or_true _) (Nat.lt_succ_self 2)
  | executing =>
    exact hnext (fun a r => (a.finish c, r)) ⟨bid, .ended c⟩ rfl (Bool.or_true _)
      (Nat.lt_succ_self 1)
  | ended c =>
    refine .inl ?_
    change (l.moveAt i Attempt.work).runner.state = _
    rw [moveAt_of_get ha]
    rfl
  | released c => cases hs <;> cases hholds

theorem exists_idle (ho : l.Orderly) (ha : l.attempts[i]? = some a) (hholds : a.holds)
    (c : Completion) :
    ∃ steps, (∀ x ∈ steps, x = .go i ∨ x = .work i ∨ x = .finish i c) ∧
      (l.actAll steps).runner.state = .idle := by
  induction hn : stepsLeft a using Nat.strongRecOn generalizing l a with
  | ind n ih =>
    rcases act_due (ho.sound a (List.mem_of_getElem? ha)) ha hholds c with hidle | ⟨b, hb, hbh, hl⟩
    · exact ⟨[due c i a], fun x hx => List.mem_singleton.mp hx ▸ due_cases c i a, hidle⟩
    · obtain ⟨steps, hsteps, hidle⟩ := ih _ (hn ▸ hl) (orderly_act ho _) hb hbh rfl
      refine ⟨due c i a :: steps, fun x hx => ?_, hidle⟩
      rcases List.mem_cons.mp hx with rfl | hx
      · exact due_cases c i a
      · exact hsteps x hx

end Letting

section Alone

variable {σ β : Type}

/-- A run of a stage is a call that nobody interrupts. -/
theorem exists_actAll_eq_run (w : Workshop σ β) (step : Step) (i : Invocation) (s : Stages σ β) :
    let x := s.run w step i
    ∃ actions, ((Lobby.mk (s.runner step) []).actAll actions).runner = x.2.runner step ∧
      ∃ a, ((Lobby.mk (s.runner step) []).actAll actions).attempts = [a] ∧
        a.answer? (s.runner step).name = some x.1.result := by
  intro x
  let c : Completion := .returned x.1.result
  cases h : (s.runner step).state with
  | idle =>
    refine ⟨[.call, .go 0, .go 0, .go 0, .work 0, .finish 0 c, .work 0, .go 0], ?_,
      ⟨.answered c, .released c⟩, ?_, rfl⟩
    · simp [x, Stages.run, Stages.acquire, Stages.carryOut, Runner.acquire, h, actAll, act, moveAt,
        Attempt.go, Attempt.work, Attempt.finish, Runner.enter, Runner.count, Runner.release]
    · simp [actAll, act, moveAt, Attempt.go, Attempt.work, Attempt.finish, Runner.enter, h]
  | running =>
    refine ⟨[.call, .go 0, .go 0], ?_, ⟨.rejected, .none⟩, ?_, ?_⟩
    · simp [x, Stages.run, Stages.acquire, Stages.carryOut, Runner.acquire, h, actAll, act, moveAt,
        Attempt.go, Runner.enter, Runner.count]
    · simp [actAll, act, moveAt, Attempt.go, Runner.enter, h]
    · simp [x, Stages.run, Stages.acquire, Stages.carryOut, Runner.acquire, h, Attempt.answer?]

end Alone

/-- What callers of a sandbox can rely on, after whatever actions. -/
structure OneAtATime (name : String) (actions : List Action) (l : Lobby) : Prop where
  executing : l.attempts.countP (·.job.executes) ≤ 1
  held : l.attempts.countP Attempt.holds ≤ 1
  running : l.runner.state = .running ↔ ∃ a ∈ l.attempts, a.holds
  /-- Whoever asks is refused if somebody holds the sandbox then, and let in otherwise. -/
  decided : ∀ before i after a, actions = before ++ .go i :: after →
    let moment := (start name).actAll before
    moment.attempts[i]? = some a → a.bid = .fresh → ∃ b, l.attempts[i]? = some b ∧
      (b.wasRefused ↔ ∃ q ∈ moment.attempts, q.holds) ∧
      (b.wasAdmitted ↔ ¬ ∃ q ∈ moment.attempts, q.holds)
  asked : ∀ i b, l.attempts[i]? = some b → b.isDecided → ∃ before after a,
    actions = before ++ .go i :: after ∧
      ((start name).actAll before).attempts[i]? = some a ∧ a.bid = .fresh
  answered : ∀ a ∈ l.attempts, ∀ result, a.answer? name = some result → a.holds = false ∧
    (a.wasRefused ∧ result = .error (.busy name) ∨
      ∃ c, a.wasAdmitted ∧ a.job = .released c ∧ result = c.result)
  busy : ∀ before i after a b result, actions = before ++ .go i :: after →
    let moment := (start name).actAll before
    moment.attempts[i]? = some a → a.bid = .fresh → l.attempts[i]? = some b →
      b.answer? name = some result → (∀ c, b.job = .released c → c.result ≠ .error (.busy name)) →
      (result = .error (.busy name) ↔ ∃ q ∈ moment.attempts, q.holds)
  dropped : ∀ i, (l.act (.drop i)).runner = l.runner ∧
    (l.act (.drop i)).attempts.map (·.job) = l.attempts.map (·.job) ∧
    (l.act (.drop i)).attempts.map Attempt.holds = l.attempts.map Attempt.holds
  kept : ∀ (x : Action) (i : Nat) (a : Attempt), l.attempts[i]? = some a → a.holds →
    ∃ b, (l.act x).attempts[i]? = some b ∧ (b.holds ∨ ∃ c, a.job = .ended c)
  freed : ∀ (i : Nat) (a : Attempt) (c : Completion), l.attempts[i]? = some a → a.holds →
    ∃ steps, (∀ x ∈ steps, x = .go i ∨ x = .work i ∨ x = .finish i c) ∧
      (l.actAll steps).runner.state = .idle
  counted : l.runner.runCount + l.attempts.countP Attempt.owesAdmission =
      l.attempts.countP Attempt.wasAdmitted ∧
    l.runner.rejectedCount + l.attempts.countP Attempt.owesRefusal =
      l.attempts.countP Attempt.wasRefused
  settled : (∀ a ∈ l.attempts, ¬ a.owesAdmission ∧ ¬ a.owesRefusal) →
    l.runner.runCount = l.attempts.countP Attempt.wasAdmitted ∧
    l.runner.rejectedCount = l.attempts.countP Attempt.wasRefused ∧
    ∀ a ∈ l.attempts, a.wasRefused → a.answer? name = some (.error (.busy name))

/-- However many call, whenever they go away and however their runs end. -/
theorem one_at_a_time (name : String) (actions : List Action) :
    OneAtATime name actions ((start name).actAll actions) := by
  have ho (actions : List Action) : ((start name).actAll actions).Orderly :=
    orderly_actAll (orderly_start name) actions
  have hheld : ((start name).actAll actions).attempts.countP Attempt.holds ≤ 1 := by
    rw [(ho actions).held]
    split <;> omega
  have hdecided : ∀ before i after a, actions = before ++ .go i :: after →
      ((start name).actAll before).attempts[i]? = some a → a.bid = .fresh →
      ∃ b, ((start name).actAll actions).attempts[i]? = some b ∧
        (b.wasRefused ↔ ∃ q ∈ ((start name).actAll before).attempts, q.holds) ∧
        (b.wasAdmitted ↔ ¬ ∃ q ∈ ((start name).actAll before).attempts, q.holds) := by
    intro before i after a hsplit ha hfresh
    have hrest := decided_of_fresh (ho before) ha hfresh after
    rwa [actAll, actAll, ← List.foldl_append, ← hsplit] at hrest
  have hanswer : ∀ a ∈ ((start name).actAll actions).attempts, ∀ result,
      a.answer? name = some result → a.holds = false ∧
        (a.wasRefused ∧ result = .error (.busy name) ∨
          ∃ c, a.wasAdmitted ∧ a.job = .released c ∧ result = c.result) :=
    fun a ha result => ((ho actions).sound a ha).answer
  refine ⟨?executing, hheld, (ho actions).running_iff, hdecided, ?asked, hanswer, ?busy,
    drop_leaves _, fun x i a ha hholds => held_until_ended ha hholds x,
    fun i a c ha hholds => exists_idle (ho actions) ha hholds c,
    ⟨(ho actions).runs, (ho actions).rejections⟩, ?settled⟩
  case executing =>
    refine Nat.le_trans (List.countP_mono_left fun a _ hexecutes => ?_) hheld
    obtain ⟨bid, job⟩ := a
    cases job with
    | executing => exact Bool.or_true _
    | _ => cases hexecutes
  case asked =>
    intro i b hb hdecided
    exact exists_ask (orderly_start name) hb hdecided fun a ha => by cases ha
  case busy =>
    intro before i after a b result hsplit moment ha hfresh hb hresult hown
    obtain ⟨b', hb', hrefused, hadmitted⟩ := hdecided before i after a hsplit ha hfresh
    obtain rfl := Option.some.inj (hb.symm.trans hb')
    rw [← hrefused]
    have hsound := (ho actions).sound b (List.mem_of_getElem? hb)
    rcases (hanswer b (List.mem_of_getElem? hb) result hresult).2 with
      ⟨hrefused, hbusy⟩ | ⟨c, hadmitted, hover, rfl⟩
    · exact iff_of_true hbusy hrefused
    · refine iff_of_false (hown c hover) fun hrefused => ?_
      rw [hsound.not_both hrefused] at hadmitted
      cases hadmitted
  case settled =>
    intro hnone
    have hadmissions : ((start name).actAll actions).attempts.countP Attempt.owesAdmission = 0 :=
      List.countP_eq_zero.mpr fun a ha => (hnone a ha).1
    have hrefusals : ((start name).actAll actions).attempts.countP Attempt.owesRefusal = 0 :=
      List.countP_eq_zero.mpr fun a ha => (hnone a ha).2
    have hruns := (ho actions).runs
    have hrejections := (ho actions).rejections
    rw [hadmissions, Nat.add_zero] at hruns
    rw [hrefusals, Nat.add_zero] at hrejections
    refine ⟨hruns, hrejections, fun a ha hrefused => ?_⟩
    obtain ⟨bid, job⟩ := a
    cases bid with
    | refused => exact absurd rfl (hnone _ ha).2
    | rejected => rfl
    | _ => cases hrefused

theorem one_at_a_time_abandoned :
    let before : List Action :=
      [.call, .call, .go 0, .go 1, .go 1, .go 0, .go 0, .drop 0, .work 0, .call]
    let after : List Action := [.go 2, .finish 0 (.panicked "overflow"), .work 0]
    let moment := (start "compile").actAll before
    let l := (start "compile").actAll (before ++ .go 2 :: after)
    l.runner = { name := "compile", runCount := 1, rejectedCount := 2 } ∧
    (∃ b, l.attempts[2]? = some b ∧ (b.wasRefused ↔ ∃ q ∈ moment.attempts, q.holds) ∧
      (b.wasAdmitted ↔ ¬ ∃ q ∈ moment.attempts, q.holds)) ∧
    l.runner.runCount = l.attempts.countP Attempt.wasAdmitted ∧
    l.runner.rejectedCount = l.attempts.countP Attempt.wasRefused ∧
    ∀ a ∈ l.attempts, a.wasRefused → a.answer? "compile" = some (.error (.busy "compile")) := by
  intro before after moment l
  have h := one_at_a_time "compile" (before ++ .go 2 :: after)
  exact ⟨rfl, h.decided before 2 after {} rfl rfl rfl, h.settled (by decide)⟩

end Lobby

end Buildbox
