import Buildbox.Proofs.Worker.HandledOnce
import Buildbox.Proofs.Worker.Progress

/-! What every step of a handling keeps holds of all handlings. If before its end a handling always
has a task whose step leaves less to do, its stream closes, unless that task is passed over for
ever. -/

namespace Buildbox

variable {α ρ ω κ τ : Type}

namespace Service

variable {v : Service α ρ ω κ τ} {p : ω → Outbox ρ → Prop} {left : ω → Amount}

/-- Holds of whatever a handling works on, and nothing happens any more when it has returned. -/
structure Keeps (v : Service α ρ ω κ τ) (p : ω → Outbox ρ → Prop) : Prop where
  start : ∀ request, p (v.start request) {}
  go : ∀ k {work o} world, p work o →
    p (v.go k work world).1 (o.actAll (v.go k work world).2.1)
  still : ∀ k {work o} world, p work o → v.returned work →
    (v.go k work world).1 = work ∧ (v.go k work world).2.1 = []

structure Ends (v : Service α ρ ω κ τ) (p : ω → Outbox ρ → Prop) (left : ω → Amount) : Prop
    extends v.Keeps p where
  less : ∀ k {work o} world, p work o →
    (v.go k work world).1 = work ∧ (v.go k work world).2.1 = [] ∨
      Amount.Less (left (v.go k work world).1) (left work)
  due : ∀ {work o}, p work o → v.returned work = true ∧ o.senders = 0 ∨
    ∃ k, ∀ world, Amount.Less (left (v.go k work world).1) (left work)

def Kept (v : Service α ρ ω κ τ) (p : ω → Outbox ρ → Prop) (h : Handling ρ ω) : Prop :=
  p h.work h.outbox ∧ (h.isActive = false → v.returned h.work = true)

end Service

namespace Handling

def Phase.toGo : Phase → Nat
  | active => 2
  | freed => 1
  | left => 0

def toGo (left : ω → Amount) (h : Handling ρ ω) : Amount :=
  ((left h.work).1 + h.phase.toGo, (left h.work).2)

end Handling

namespace Station

variable {v : Service α ρ ω κ τ} {p : ω → Outbox ρ → Prop} {left : ω → Amount}
  {s : Station α ρ ω τ} {h : Handling ρ ω} {i n : Nat} {t : Ticket} {x : Action α κ τ}
  {schedule : Nat → Action α κ τ}

section Keeping

theorem kept_change {s' : Station α ρ ω τ} (hv : v.Keeps p)
    (hall : ∀ h ∈ s.handlings, v.Kept p h) (hc : Change v s x s') :
    ∀ h ∈ s'.handlings, v.Kept p h := by
  have hset {i : Nat} {h' : Handling ρ ω} (hh' : v.Kept p h') :
      ∀ h ∈ s.handlings.set i h', v.Kept p h := fun h hm => by
    rcases List.mem_or_eq_of_mem_set hm with hm | rfl
    · exact hall h hm
    · exact hh'
  cases hc with
  | still | elsewhere | post | dropped => exact hall
  | taken =>
    intro h hm
    rcases List.mem_append.mp hm with hm | hm
    · exact hall h hm
    · rw [List.mem_singleton.mp hm]
      exact ⟨hv.start _, nofun⟩
  | @work i k h hi =>
    obtain ⟨hp, hr⟩ := hall h (List.mem_of_getElem? hi)
    refine hset ⟨hv.go k s.world hp, fun hinactive => ?_⟩
    dsimp only
    rw [(hv.still k s.world hp (hr hinactive)).1]
    exact hr hinactive
  | free hi hp hr => exact hset ⟨(hall _ (List.mem_of_getElem? hi)).1, fun _ => hr⟩
  | leave hi hp =>
    obtain ⟨hwork, hr⟩ := hall _ (List.mem_of_getElem? hi)
    exact hset ⟨hwork, fun _ => hr (by simp [Handling.isActive, hp])⟩

theorem kept_actAll (hv : v.Keeps p) (hall : ∀ h ∈ s.handlings, v.Kept p h)
    (actions : List (Action α κ τ)) : ∀ h ∈ (s.actAll v actions).handlings, v.Kept p h := by
  induction actions generalizing s with
  | nil => exact hall
  | cons x rest ih => exact ih (kept_change hv hall (change_act v s x))

theorem kept_start (hv : v.Keeps p) (world : τ) (actions : List (Action α κ τ)) :
    ∀ h ∈ ((start world).actAll v actions).handlings, v.Kept p h :=
  kept_actAll hv (fun _ hm => absurd hm List.not_mem_nil) actions

end Keeping

section Ending

/-- Nobody is passed over for ever. -/
structure Fair (schedule : Nat → Action α κ τ) : Prop where
  take : TakesOn schedule
  go : ∀ i k n, ∃ m, n ≤ m ∧ schedule m = .go i k
  leave : ∀ i n, ∃ m, n ≤ m ∧ schedule m = .leave i

theorem left_change {s' : Station α ρ ω τ} (hv : v.Ends p left)
    (hall : ∀ h ∈ s.handlings, v.Kept p h) (hc : Change v s x s') (hi : s.handlings[i]? = some h) :
    ∃ h', s'.handlings[i]? = some h' ∧ h'.ticket = h.ticket ∧
      (h' = h ∨ Amount.Less (h'.toGo left) (h.toGo left)) := by
  obtain ⟨h', hi', rfl | hs⟩ := stride_of_change hc hi
  · exact ⟨h', hi', rfl, .inl rfl⟩
  · refine ⟨h', hi', hs.ticket, ?_⟩
    cases hs with
    | work k world =>
      rcases hv.less k world (hall h (List.mem_of_getElem? hi)).1 with ⟨hwork, hds⟩ | hless
      · left
        rw [hwork, hds]
        rfl
      · right
        rw [Amount.less_iff] at hless ⊢
        simp only [Handling.toGo]
        omega
    | free hp =>
      refine .inr (.left _ _ ?_)
      simp [hp, Handling.Phase.toGo]
    | leave hp =>
      refine .inr (.left _ _ ?_)
      simp [hp, Handling.Phase.toGo]

theorem left_along (hv : v.Ends p left) (hall : ∀ h ∈ s.handlings, v.Kept p h)
    (schedule : Nat → Action α κ τ) (hi : (s.along v schedule n).handlings[i]? = some h) {m : Nat}
    (hm : n ≤ m) :
    ∃ h', (s.along v schedule m).handlings[i]? = some h' ∧ h'.ticket = h.ticket ∧
      (h' = h ∨ Amount.Less (h'.toGo left) (h.toGo left)) := by
  induction hm with
  | refl => exact ⟨h, hi, rfl, .inl rfl⟩
  | @step m _ ih =>
    obtain ⟨b, hb, htb, hless⟩ := ih
    have hkept := kept_actAll hv.toKeeps hall ((List.range m).map schedule)
    rw [along_succ]
    obtain ⟨h', hh', ht, hless'⟩ := left_change hv hkept (change_act v _ (schedule m)) hb
    refine ⟨h', hh', ht.trans htb, ?_⟩
    rcases hless' with rfl | hless'
    · exact hless
    · rcases hless with rfl | hless
      · exact .inr hless'
      · rw [Amount.less_iff] at hless hless' ⊢
        omega

theorem due_of_open (hv : v.Ends p left) (hk : v.Kept p h) (hopen : h.isClosed = false) :
    ∃ x : Action α κ τ, (x = .leave i ∨ ∃ k, x = .go i k) ∧
      ∀ s : Station α ρ ω τ, s.handlings[i]? = some h → ∃ h',
        (s.act v x).handlings[i]? = some h' ∧ h'.ticket = h.ticket ∧
          Amount.Less (h'.toGo left) (h.toGo left) := by
  have hset {s s' : Station α ρ ω τ} {h' : Handling ρ ω} (hi : s.handlings[i]? = some h)
      (hs' : s'.handlings = s.handlings.set i h') : s'.handlings[i]? = some h' :=
    hs' ▸ List.getElem?_set_self (List.getElem?_eq_some_iff.mp hi).1
  rcases hv.due hk.1 with ⟨hr, hsenders⟩ | ⟨k, hless⟩
  · refine ⟨.leave i, .inl rfl, fun s hi => ?_⟩
    cases hp : h.phase with
    | active =>
      have hact : (s.act v (.leave i)).handlings =
          s.handlings.set i { h with phase := .freed } := by
        change (s.leave v i).handlings = _
        simp only [leave, hi, hp, if_pos hr]
        rfl
      refine ⟨_, hset hi hact, rfl, .left _ _ ?_⟩
      simp [hp, Handling.Phase.toGo]
    | freed =>
      have hact : (s.act v (.leave i)).handlings =
          s.handlings.set i { h with phase := .left } := by
        change (s.leave v i).handlings = _
        simp only [leave, hi, hp]
        rfl
      refine ⟨_, hset hi hact, rfl, .left _ _ ?_⟩
      simp [hp, Handling.Phase.toGo]
    | left => simp [Handling.isClosed, hp, hsenders] at hopen
  · refine ⟨.go i k, .inr ⟨k, rfl⟩, fun s hi => ?_⟩
    have hact : (s.act v (.go i k)).handlings = s.handlings.set i
        { h with
          work := (v.go k h.work s.world).1
          outbox := h.outbox.actAll (v.go k h.work s.world).2.1 } := by
      change (s.go v i k).handlings = _
      simp only [go, hi]
      rfl
    refine ⟨_, hset hi hact, rfl, ?_⟩
    have hnow := hless s.world
    rw [Amount.less_iff] at hnow ⊢
    simp only [Handling.toGo]
    omega

theorem Fair.closes (hfair : Fair schedule) (hv : v.Ends p left)
    (hall : ∀ h ∈ s.handlings, v.Kept p h) (hi : (s.along v schedule n).handlings[i]? = some h) :
    ∃ m h', (s.along v schedule m).handlings[i]? = some h' ∧ h'.ticket = h.ticket ∧
      h'.isClosed := by
  generalize ha : h.toGo left = a
  -- By induction on what is left to do.
  induction a using Amount.less_wf.induction generalizing n h with
  | h a ih =>
    cases hclosed : h.isClosed with
    | true => exact ⟨n, h, hi, rfl, hclosed⟩
    | false =>
      have hkept := kept_actAll hv.toKeeps hall ((List.range n).map schedule)
      obtain ⟨x, hx, hdue⟩ := due_of_open (i := i) hv (hkept h (List.mem_of_getElem? hi)) hclosed
      obtain ⟨m, hm, hturn⟩ : ∃ m, n ≤ m ∧ schedule m = x := by
        rcases hx with rfl | ⟨k, rfl⟩
        · exact hfair.leave i n
        · exact hfair.go i k n
      -- When its turn has come, the handling is as it was, or has gone on already.
      obtain ⟨b, hb, htb, rfl | hless⟩ := left_along hv hall schedule hi hm
      · obtain ⟨h', hi', ht', hless⟩ := hdue _ hb
        rw [← hturn, ← along_succ] at hi'
        obtain ⟨l, b, hb, htb, hc⟩ := ih _ (ha ▸ hless) hi' rfl
        exact ⟨l, b, hb, htb.trans ht', hc⟩
      · obtain ⟨l, b', hb', htb', hc⟩ := ih _ (ha ▸ hless) hb rfl
        exact ⟨l, b', hb', htb'.trans htb, hc⟩

theorem Fair.closes_or_drops (hfair : Fair schedule) (hv : v.Ends p left) (ho : s.Orderly)
    (hall : ∀ h ∈ s.handlings, v.Kept p h) (ht : t < s.mailbox.posted) :
    ∃ n, (∃ h ∈ (s.along v schedule n).handlings, h.ticket = t ∧ h.isClosed) ∨
      t ∈ (s.along v schedule n).mailbox.dropped := by
  obtain ⟨n, ⟨h, hm, rfl⟩ | hd⟩ := exists_settled hfair.take ho ht v
  · obtain ⟨i, hi⟩ := List.mem_iff_getElem?.mp hm
    obtain ⟨m, h', hi', ht', hc⟩ := hfair.closes hv hall hi
    exact ⟨m, .inl ⟨h', List.mem_of_getElem? hi', ht', hc⟩⟩
  · exact ⟨n, .inr hd⟩

end Ending

end Station

end Buildbox
