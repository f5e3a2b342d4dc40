import Buildbox.Proofs.Lists
import Buildbox.Worker.Station

/-! Whoever posts requests to a worker and whichever task goes on next, a request waits, is
dropped, or has one handler, and at most one handler is active. A stream of replies closes after
the worker was let go. -/

namespace Buildbox

variable {α ρ ω κ τ : Type}

namespace Outbox

theorem actAll_of_none {o : Outbox ρ} (h : o.senders = 0) (ds : List (Dispatch ρ)) :
    o.actAll ds = o := by
  induction ds with
  | nil => rfl
  | cons d rest ih =>
    have hone : o.act d = o := if_pos h
    change (o.act d).actAll rest = o
    rwa [hone]

end Outbox

namespace Mailbox

variable {m : Mailbox α} {t : Ticket}

theorem count_release (hmem : t ∈ m.handling) (u : Ticket) :
    (m.release t).handling.count u + (if t = u then 1 else 0) = m.handling.count u ∧
    (m.release t).closing.count u = m.closing.count u + (if t = u then 1 else 0) := by
  have hpos : 0 < m.handling.count t := List.count_pos_iff.mpr hmem
  rw [release, if_pos hmem]
  dsimp only
  rw [List.count_erase, List.count_append, List.count_singleton]
  by_cases htu : t = u
  · subst htu
    simp only [beq_self_eq_true, if_true, and_true]
    omega
  · simp [htu]

theorem count_close (hmem : t ∈ m.closing) (u : Ticket) :
    (m.close t).closing.count u + (if t = u then 1 else 0) = m.closing.count u ∧
    (m.close t).closed.count u = m.closed.count u + (if t = u then 1 else 0) := by
  have hpos : 0 < m.closing.count t := List.count_pos_iff.mpr hmem
  rw [close, if_pos hmem]
  dsimp only
  rw [List.count_erase, List.count_append, List.count_singleton]
  by_cases htu : t = u
  · subst htu
    simp only [beq_self_eq_true, if_true, and_true]
    omega
  · simp [htu]

theorem busy_release (hmem : t ∈ m.handling) : (m.release t).busy = false := by
  rw [release, if_pos hmem]

structure SameQueue (m m' : Mailbox α) : Prop where
  posted : m'.posted = m.posted
  queue : m'.queue = m.queue
  dropped : m'.dropped = m.dropped

theorem SameQueue.trans {m m' m'' : Mailbox α} (h : SameQueue m m') (h' : SameQueue m' m'') :
    SameQueue m m'' :=
  ⟨h'.posted.trans h.posted, h'.queue.trans h.queue, h'.dropped.trans h.dropped⟩

theorem sameQueue_release (m : Mailbox α) (t : Ticket) : SameQueue m (m.release t) := by
  unfold release
  split <;> exact ⟨rfl, rfl, rfl⟩

theorem sameQueue_close (m : Mailbox α) (t : Ticket) : SameQueue m (m.close t) := by
  unfold close
  split <;> exact ⟨rfl, rfl, rfl⟩

theorem busy_and_handling_close (m : Mailbox α) (t : Ticket) :
    (m.close t).busy = m.busy ∧ (m.close t).handling = m.handling := by
  unfold close
  split <;> exact ⟨rfl, rfl⟩

end Mailbox

namespace Handling

def isClosing (h : Handling ρ ω) : Bool :=
  !h.isActive && !h.isClosed

inductive Stride (v : Service α ρ ω κ τ) (h : Handling ρ ω) : Handling ρ ω → Prop where
  | work (k : κ) (world : τ) : Stride v h
    { h with
      work := (v.go k h.work world).1
      outbox := h.outbox.actAll (v.go k h.work world).2.1 }
  | free (hp : h.phase = .active) (hr : v.returned h.work = true) :
    Stride v h { h with phase := .freed }
  | leave (hp : h.phase = .freed) : Stride v h { h with phase := .left }

variable {v : Service α ρ ω κ τ} {h h' : Handling ρ ω}

theorem Stride.ticket (hs : Stride v h h') : h'.ticket = h.ticket := by
  cases hs <;> rfl

theorem Stride.not_active (hs : Stride v h h') (hn : h.isActive = false) :
    h'.isActive = false := by
  cases hs with
  | work => exact hn
  | free => rfl
  | leave => rfl

theorem Stride.closed (hs : Stride v h h') (hc : h.isClosed) : h'.isClosed := by
  have hleft : h.phase = .left ∧ h.outbox.senders = 0 := by simpa [isClosed] using hc
  cases hs with
  | work => simpa [isClosed, Outbox.actAll_of_none hleft.2] using hc
  | free hp => rw [hp] at hleft; cases hleft.1
  | leave hp => rw [hp] at hleft; cases hleft.1

end Handling

namespace Station

variable {v : Service α ρ ω κ τ} {s : Station α ρ ω τ} {h h' : Handling ρ ω} {i : Nat}
  {t : Ticket} {request : α} {queue : List (Ticket × α)}

inductive Change (v : Service α ρ ω κ τ) (s : Station α ρ ω τ) :
    Action α κ τ → Station α ρ ω τ → Prop where
  | still {x : Action α κ τ} : Change v s x s
  | elsewhere {f : τ → τ} : Change v s (.elsewhere f) { s with world := f s.world }
  | post {client : Nat} {request : α} :
    Change v s (.post client request) (s.post client request)
  | dropped {t : Ticket} {request : α} {queue : List (Ticket × α)}
    (hq : s.mailbox.queue = (t, request) :: queue) (hb : s.mailbox.busy = true) :
    Change v s .take { s with
      mailbox := { s.mailbox with queue, dropped := s.mailbox.dropped ++ [t] } }
  | taken {t : Ticket} {request : α} {queue : List (Ticket × α)}
    (hq : s.mailbox.queue = (t, request) :: queue) (hb : s.mailbox.busy = false) :
    Change v s .take { s with
      mailbox := { s.mailbox with queue, busy := true, handling := s.mailbox.handling ++ [t] }
      handlings := s.handlings ++ [{ ticket := t, work := v.start request }] }
  | work {i : Nat} {k : κ} {h : Handling ρ ω} (hi : s.handlings[i]? = some h) :
    Change v s (.go i k) ({ s with world := (v.go k h.work s.world).2.2 }.update i
      { h with
        work := (v.go k h.work s.world).1
        outbox := h.outbox.actAll (v.go k h.work s.world).2.1 })
  | free {i : Nat} {h : Handling ρ ω} (hi : s.handlings[i]? = some h) (hp : h.phase = .active)
    (hr : v.returned h.work = true) :
    Change v s (.leave i) ({ s with mailbox := s.mailbox.release h.ticket }.update i
      { h with phase := .freed })
  | leave {i : Nat} {h : Handling ρ ω} (hi : s.handlings[i]? = some h) (hp : h.phase = .freed) :
    Change v s (.leave i) (s.update i { h with phase := .left })

section Actions

theorem take_of_nil (hq : s.mailbox.queue = []) (v : Service α ρ ω κ τ) : s.take v = s := by
  simp only [take, Mailbox.take, hq]

theorem take_of_busy (hq : s.mailbox.queue = (t, request) :: queue)
    (hb : s.mailbox.busy = true) (v : Service α ρ ω κ τ) :
    s.take v = { s with
      mailbox := { s.mailbox with queue, dropped := s.mailbox.dropped ++ [t] } } := by
  simp only [take, Mailbox.take, hq, if_pos hb]

theorem take_of_free (hq : s.mailbox.queue = (t, request) :: queue)
    (hb : s.mailbox.busy = false) (v : Service α ρ ω κ τ) :
    s.take v = { s with
      mailbox := { s.mailbox with queue, busy := true, handling := s.mailbox.handling ++ [t] }
      handlings := s.handlings ++ [{ ticket := t, work := v.start request }] } := by
  simp only [take, Mailbox.take, hq, if_neg (Bool.eq_false_iff.mp hb)]

theorem change_act (v : Service α ρ ω κ τ) (s : Station α ρ ω τ) (x : Action α κ τ) :
    Change v s x (s.act v x) := by
  cases x with
  | post client request => exact .post
  | take =>
    change Change v s .take (s.take v)
    cases hq : s.mailbox.queue with
    | nil =>
      rw [take_of_nil hq]
      exact .still
    | cons e queue =>
      obtain ⟨t, request⟩ := e
      by_cases hb : s.mailbox.busy
      · rw [take_of_busy hq hb]
        exact .dropped hq hb
      · rw [take_of_free hq (Bool.eq_false_iff.mpr hb)]
        exact .taken hq (Bool.eq_false_iff.mpr hb)
  | go i k =>
    change Change v s (.go i k) (s.go v i k)
    unfold go
    cases hi : s.handlings[i]? with
    | none => exact .still
    | some h => exact .work hi
  | leave i =>
    change Change v s (.leave i) (s.leave v i)
    unfold leave
    cases hi : s.handlings[i]? with
    | none => exact .still
    | some h =>
      dsimp only
      cases hp : h.phase with
      | active =>
        dsimp only
        split
        · next hr => exact .free hi hp hr
        · exact .still
      | freed => exact .leave hi hp
      | left => exact .still
  | elsewhere f => exact .elsewhere

theorem stride_of_change {x : Action α κ τ} {s' : Station α ρ ω τ} (hc : Change v s x s')
    (hi : s.handlings[i]? = some h) :
    ∃ h', s'.handlings[i]? = some h' ∧ (h' = h ∨ Handling.Stride v h h') := by
  have hlt := (List.getElem?_eq_some_iff.mp hi).1
  have hset {j : Nat} {b b' : Handling ρ ω} (hj : s.handlings[j]? = some b)
      (hs : Handling.Stride v b b') :
      ∃ h', (s.handlings.set j b')[i]? = some h' ∧ (h' = h ∨ Handling.Stride v h h') := by
    by_cases hij : j = i
    · subst hij
      obtain rfl := Option.some.inj (hi.symm.trans hj)
      exact ⟨b', List.getElem?_set_self hlt, .inr hs⟩
    · exact ⟨h, (List.getElem?_set_ne hij).trans hi, .inl rfl⟩
  cases hc with
  | still | elsewhere | post | dropped => exact ⟨h, hi, .inl rfl⟩
  | taken => exact ⟨h, (List.getElem?_append_left hlt).trans hi, .inl rfl⟩
  | work hj => exact hset hj (.work _ _)
  | free hj hp hr => exact hset hj (.free hp hr)
  | leave hj hp => exact hset hj (.leave hp)

theorem sameQueue_update (s : Station α ρ ω τ) (i : Nat) (h : Handling ρ ω) :
    Mailbox.SameQueue s.mailbox (s.update i h).mailbox := by
  unfold update
  dsimp only
  split
  · exact Mailbox.sameQueue_close _ _
  · exact ⟨rfl, rfl, rfl⟩

theorem sameQueue_free (s : Station α ρ ω τ) (i : Nat) (h : Handling ρ ω) (t : Ticket) :
    Mailbox.SameQueue s.mailbox
      ({ s with mailbox := s.mailbox.release t }.update i h).mailbox :=
  (Mailbox.sameQueue_release s.mailbox t).trans
    (sameQueue_update { s with mailbox := s.mailbox.release t } i h)

end Actions

/-- What holds at a station at any time. The lists of the mailbox tell how far the handlings are. -/
structure Orderly (s : Station α ρ ω τ) : Prop where
  busy : s.handlings.countP Handling.isActive = s.mailbox.busy.toNat
  handling : ∀ t, s.mailbox.handling.count t =
    s.handlings.countP fun h => h.ticket = t && h.isActive
  closing : ∀ t, s.mailbox.closing.count t =
    s.handlings.countP fun h => h.ticket = t && h.isClosing
  closed : ∀ t, s.mailbox.closed.count t =
    s.handlings.countP fun h => h.ticket = t && h.isClosed
  last : ∀ i h, s.handlings[i]? = some h → h.isActive → i + 1 = s.handlings.length
  once : (s.handlings.map (·.ticket) ++ s.mailbox.dropped ++ s.mailbox.queue.map (·.1)).Perm
    (List.range s.mailbox.posted)
  fifo : (s.handlings.map (·.ticket) ++ s.mailbox.queue.map (·.1)).Pairwise (· < ·)
  posters : s.posters.length = s.mailbox.posted

section Invariant

theorem orderly_start (world : τ) : (start world : Station α ρ ω τ).Orderly :=
  ⟨rfl, fun _ => rfl, fun _ => rfl, fun _ => rfl, fun _ _ hi => by simp [start] at hi, .nil, .nil,
    rfl⟩

theorem Orderly.nodup (ho : s.Orderly) :
    (s.handlings.map (·.ticket) ++ s.mailbox.dropped ++ s.mailbox.queue.map (·.1)).Nodup :=
  ho.once.nodup_iff.mpr List.nodup_range

theorem Orderly.index_unique (ho : s.Orderly) {j : Nat} (hi : s.handlings[i]? = some h)
    (hj : s.handlings[j]? = some h') (ht : h.ticket = h'.ticket) : i = j := by
  have hnodup := (List.nodup_append.mp (List.nodup_append.mp ho.nodup).1).1
  have hne := List.pairwise_iff_getElem.mp (List.pairwise_map.mp hnodup)
  obtain ⟨hli, rfl⟩ := List.getElem?_eq_some_iff.mp hi
  obtain ⟨hlj, rfl⟩ := List.getElem?_eq_some_iff.mp hj
  rcases Nat.lt_trichotomy i j with hlt | heq | hgt
  · exact absurd ht (hne i j hli hlj hlt)
  · exact heq
  · exact absurd ht.symm (hne j i hlj hli hgt)

theorem countP_update (hi : s.handlings[i]? = some h) (ht : h'.ticket = h.ticket) (t : Ticket)
    (p : Handling ρ ω → Bool) :
    ((s.handlings.set i h').countP fun h => h.ticket = t && p h) +
        (if h.ticket = t then (p h).toNat else 0) =
      (s.handlings.countP fun h => h.ticket = t && p h) +
        (if h.ticket = t then (p h').toNat else 0) := by
  have hset := countP_set_toNat hi (fun h => h.ticket = t && p h) h'
  by_cases hticket : h.ticket = t
  · simpa [ht, hticket] using hset
  · simpa [ht, hticket] using hset

structure Tallies (m m' : Mailbox α) (h h' : Handling ρ ω) : Prop where
  same : Mailbox.SameQueue m m'
  busy : m'.busy.toNat + h.isActive.toNat = m.busy.toNat + h'.isActive.toNat
  handling : ∀ t, m'.handling.count t + (if h.ticket = t then h.isActive.toNat else 0) =
    m.handling.count t + (if h.ticket = t then h'.isActive.toNat else 0)
  closing : ∀ t, m'.closing.count t + (if h.ticket = t then h.isClosing.toNat else 0) =
    m.closing.count t + (if h.ticket = t then h'.isClosing.toNat else 0)
  closed : ∀ t, m'.closed.count t + (if h.ticket = t then h.isClosed.toNat else 0) =
    m.closed.count t + (if h.ticket = t then h'.isClosed.toNat else 0)

theorem Orderly.update (ho : s.Orderly) (hi : s.handlings[i]? = some h)
    (hs : Handling.Stride v h h') {m : Mailbox α} (hm : Tallies s.mailbox m h h') (world : τ) :
    Orderly { s with mailbox := m, handlings := s.handlings.set i h', world } := by
  obtain ⟨⟨hposted, hqueue, hdropped⟩, hbusy, hhandling, hclosing, hclosed⟩ := hm
  have ht := hs.ticket
  -- A list of the mailbox gains or loses a ticket as the handling comes to be counted or not.
  constructor
  case busy =>
    have hset := countP_set_toNat hi Handling.isActive h'
    have hnow := ho.busy
    dsimp only
    omega
  case handling =>
    intro t
    have hset := countP_update hi ht t Handling.isActive
    have hnow := ho.handling t
    have hstep := hhandling t
    dsimp only
    omega
  case closing =>
    intro t
    have hset := countP_update hi ht t Handling.isClosing
    have hnow := ho.closing t
    have hstep := hclosing t
    dsimp only
    omega
  case closed =>
    intro t
    have hset := countP_update hi ht t Handling.isClosed
    have hnow := ho.closed t
    have hstep := hclosed t
    dsimp only
    omega
  case last =>
    intro j b hj hb
    rw [List.length_set]
    by_cases hij : i = j
    · subst hij
      rw [List.getElem?_set_self (List.getElem?_eq_some_iff.mp hi).1] at hj
      obtain rfl := Option.some.inj hj
      refine ho.last i h hi (Bool.of_not_eq_false fun hn => ?_)
      rw [hs.not_active hn] at hb
      cases hb
    · rw [List.getElem?_set_ne hij] at hj
      exact ho.last j b hj hb
  case once =>
    rw [map_set_of_eq hi _ ht, hposted, hqueue, hdropped]
    exact ho.once
  case fifo =>
    rw [map_set_of_eq hi _ ht, hqueue]
    exact ho.fifo
  case posters =>
    rw [hposted]
    exact ho.posters

theorem Orderly.mem_handling (ho : s.Orderly) (hi : s.handlings[i]? = some h)
    (ha : h.isActive) : h.ticket ∈ s.mailbox.handling := by
  refine List.count_pos_iff.mp (ho.handling h.ticket ▸ ?_)
  exact List.countP_pos_iff.mpr ⟨h, List.mem_of_getElem? hi, by simp [ha]⟩

theorem Orderly.mem_closing (ho : s.Orderly) (hi : s.handlings[i]? = some h) :
    h.ticket ∈ s.mailbox.closing ↔ h.isClosing := by
  rw [← List.count_pos_iff, ho.closing, List.countP_pos_iff]
  constructor
  · rintro ⟨b, hb, hp⟩
    obtain ⟨j, hj⟩ := List.mem_iff_getElem?.mp hb
    have hboth : b.ticket = h.ticket ∧ b.isClosing := by simpa using hp
    obtain rfl := ho.index_unique hi hj hboth.1.symm
    exact Option.some.inj (hi.symm.trans hj) ▸ hboth.2
  · exact fun hc => ⟨h, List.mem_of_getElem? hi, by simp [hc]⟩

theorem Orderly.tallies_close (ho : s.Orderly) (hi : s.handlings[i]? = some h)
    (hs : Handling.Stride v h h') (ha : h'.isActive = h.isActive) :
    Tallies s.mailbox (if h'.isClosed then s.mailbox.close h'.ticket else s.mailbox) h h' := by
  have hmem := ho.mem_closing hi
  rw [hs.ticket]
  cases hclosed' : h'.isClosed with
  | false =>
    have hclosed : h.isClosed = false := Bool.eq_false_iff.mpr fun hc => by
      rw [hs.closed hc] at hclosed'
      cases hclosed'
    rw [if_neg Bool.false_ne_true]
    refine ⟨⟨rfl, rfl, rfl⟩, ?_, fun t => ?_, fun t => ?_, fun t => ?_⟩ <;>
      simp [Handling.isClosing, ha, hclosed, hclosed']
  | true =>
    -- The worker's own sending end was the last one, or a task's after that.
    have hinactive : h.isActive = false := by
      have hleft : h'.phase = .left := by
        simp only [Handling.isClosed, Bool.and_eq_true, decide_eq_true_eq] at hclosed'
        exact hclosed'.1
      rw [← ha, Handling.isActive, hleft]
      rfl
    rw [if_pos rfl]
    cases hclosed : h.isClosed with
    | true =>
      have hnot : h.ticket ∉ s.mailbox.closing := fun hin => by
        simpa [Handling.isClosing, hclosed] using hmem.mp hin
      rw [Mailbox.close, if_neg hnot]
      refine ⟨⟨rfl, rfl, rfl⟩, ?_, fun t => ?_, fun t => ?_, fun t => ?_⟩ <;>
        simp [Handling.isClosing, ha, hclosed, hclosed']
    | false =>
      have hin : h.ticket ∈ s.mailbox.closing := hmem.mpr (by
        simp [Handling.isClosing, hinactive, hclosed])
      obtain ⟨hbusy, hhandling⟩ := Mailbox.busy_and_handling_close s.mailbox h.ticket
      refine ⟨Mailbox.sameQueue_close _ _, ?_, fun t => ?_, fun t => ?_, fun t => ?_⟩
      · rw [hbusy, ha]
      · rw [hhandling, ha]
      · simpa [Handling.isClosing, ha, hinactive, hclosed, hclosed']
          using (Mailbox.count_close hin t).1
      · simpa [hclosed, hclosed'] using (Mailbox.count_close hin t).2

theorem Orderly.tallies_release (ho : s.Orderly) (hi : s.handlings[i]? = some h)
    (hp : h.phase = .active) :
    Tallies s.mailbox (s.mailbox.release h.ticket) h { h with phase := .freed } := by
  have hactive : h.isActive = true := by simp [Handling.isActive, hp]
  have hin := ho.mem_handling hi hactive
  have hone : s.mailbox.busy.toNat = 1 := by
    have hle : 0 < s.handlings.countP Handling.isActive :=
      List.countP_pos_iff.mpr ⟨h, List.mem_of_getElem? hi, hactive⟩
    have hnow := ho.busy
    have hbound := Bool.toNat_le s.mailbox.busy
    omega
  refine ⟨Mailbox.sameQueue_release _ _, ?_, fun t => ?_, fun t => ?_, fun t => ?_⟩
  · rw [Mailbox.busy_release hin, hone, hactive]
    rfl
  · simpa [Handling.isActive, hp] using (Mailbox.count_release hin t).1
  · simpa [hactive, Handling.isClosing, Handling.isActive, Handling.isClosed, hp] using
      (Mailbox.count_release hin t).2
  · have hclosed : (s.mailbox.release h.ticket).closed = s.mailbox.closed := by
      rw [Mailbox.release, if_pos hin]
    simp [hclosed, Handling.isClosed, hp]

theorem orderly_post (ho : s.Orderly) (client : Nat) (request : α) :
    (s.post client request).Orderly := by
  obtain ⟨hbusy, hhandling, hclosing, hclosed, hlast, honce, hfifo, hposters⟩ := ho
  have hbound (u : Ticket)
      (hu : u ∈ s.handlings.map (·.ticket) ++ s.mailbox.queue.map (·.1)) :
      u < s.mailbox.posted := by
    refine List.mem_range.mp (honce.mem_iff.mp ?_)
    rcases List.mem_append.mp hu with hu | hu
    · exact List.mem_append_left _ (List.mem_append_left _ hu)
    · exact List.mem_append_right _ hu
  refine ⟨hbusy, hhandling, hclosing, hclosed, hlast, ?_, ?_, ?_⟩
  · simp only [post, Mailbox.post, List.map_append, List.map_cons, List.map_nil, List.range_succ]
    rw [← List.append_assoc]
    exact honce.append_right _
  · simp only [post, Mailbox.post, List.map_append, List.map_cons, List.map_nil]
    rw [← List.append_assoc]
    refine List.pairwise_append.mpr ⟨hfifo, List.pairwise_singleton .., fun u hu x hx => ?_⟩
    rw [List.mem_singleton.mp hx]
    exact hbound u hu
  · simp [post, Mailbox.post, hposters]

theorem orderly_taken {request : α} {queue : List (Ticket × α)} {t : Ticket} (ho : s.Orderly)
    (hq : s.mailbox.queue = (t, request) :: queue) (hb : s.mailbox.busy = false)
    (v : Service α ρ ω κ τ) : (s.take v).Orderly := by
  rw [take_of_free hq hb]
  obtain ⟨hbusy, hhandling, hclosing, hclosed, hlast, honce, hfifo, hposters⟩ := ho
  rw [hq, List.map_cons] at honce hfifo
  have hnone : s.handlings.countP Handling.isActive = 0 := by rw [hbusy, hb]; rfl
  refine ⟨?_, fun u => ?_, fun u => ?_, fun u => ?_, ?last, ?once, ?fifo, hposters⟩
  · simp [List.countP_append, hnone, Handling.isActive]
  · simp [List.countP_append, List.count_append, List.count_singleton, hhandling,
      Handling.isActive]
  · simp [List.countP_append, hclosing, Handling.isClosing, Handling.isActive]
  · simp [List.countP_append, hclosed, Handling.isClosed]
  case last =>
    intro j b hj hactive
    rw [List.length_append, List.length_singleton]
    by_cases hlt : j < s.handlings.length
    · rw [List.getElem?_append_left hlt] at hj
      have hno := List.countP_eq_zero.mp hnone b (List.mem_of_getElem? hj)
      exact absurd hactive hno
    · have hend := (List.getElem?_eq_some_iff.mp hj).1
      rw [List.length_append, List.length_singleton] at hend
      omega
  case once =>
    simp only [List.map_append, List.map_cons, List.map_nil]
    refine List.Perm.trans ?_ honce
    have hmoved : (t :: (s.mailbox.dropped ++ queue.map (·.1))).Perm
        (s.mailbox.dropped ++ t :: queue.map (·.1)) := List.perm_middle.symm
    simpa only [List.append_assoc, List.cons_append, List.nil_append] using
      hmoved.append_left (s.handlings.map (·.ticket))
  case fifo =>
    simpa only [List.map_append, List.map_cons, List.map_nil, List.append_assoc,
      List.cons_append, List.nil_append] using hfifo

theorem orderly_change {x : Action α κ τ} {s' : Station α ρ ω τ} (ho : s.Orderly)
    (hc : Change v s x s') : s'.Orderly := by
  cases hc with
  | still => exact ho
  | elsewhere =>
    obtain ⟨hbusy, hhandling, hclosing, hclosed, hlast, honce, hfifo, hposters⟩ := ho
    exact ⟨hbusy, hhandling, hclosing, hclosed, hlast, honce, hfifo, hposters⟩
  | @post client request => exact orderly_post ho client request
  | @dropped t request queue hq hb =>
    obtain ⟨hbusy, hhandling, hclosing, hclosed, hlast, honce, hfifo, hposters⟩ := ho
    rw [hq, List.map_cons] at honce hfifo
    refine ⟨hbusy, hhandling, hclosing, hclosed, hlast, ?_,
      hfifo.sublist ((List.sublist_cons_self ..).append_left _), hposters⟩
    dsimp only
    rw [← List.append_assoc, List.append_assoc _ [t]]
    exact honce
  | taken hq hb =>
    rw [← take_of_free hq hb v]
    exact orderly_taken ho hq hb v
  | @work i k h hi =>
    have hs : Handling.Stride v h _ := .work k s.world
    exact ho.update hi hs (ho.tallies_close hi hs rfl) _
  | free hi hp hr => exact ho.update hi (.free hp hr) (ho.tallies_release hi hp) s.world
  | @leave i h hi hp =>
    have hs : Handling.Stride v h _ := .leave hp
    have hsame : Handling.isActive { h with phase := .left } = h.isActive := by
      simp [Handling.isActive, hp]
    exact ho.update hi hs (ho.tallies_close hi hs hsame) s.world

theorem orderly_act (ho : s.Orderly) (v : Service α ρ ω κ τ) (x : Action α κ τ) :
    (s.act v x).Orderly :=
  orderly_change ho (change_act v s x)

theorem orderly_actAll (ho : s.Orderly) (v : Service α ρ ω κ τ)
    (actions : List (Action α κ τ)) : (s.actAll v actions).Orderly := by
  induction actions generalizing s with
  | nil => exact ho
  | cons x rest ih => exact ih (orderly_act ho v x)

end Invariant

end Station

end Buildbox
