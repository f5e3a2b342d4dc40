import Buildbox.Proofs.Worker.Station

/-! What clients of a worker can rely on: a request is handled once or dropped, it is dropped only
because another is being handled, and whoever has seen a stream close finds the worker free. -/

namespace Buildbox

variable {α ρ ω κ τ : Type}

theorem Handling.not_closed_of_active {h : Handling ρ ω} (ha : h.isActive) :
    h.isClosed = false := by
  have hp : h.phase = .active := of_decide_eq_true ha
  simp [Handling.isClosed, hp]

theorem Handling.inactive_of_closed {h : Handling ρ ω} (hc : h.isClosed) :
    h.isActive = false := by
  refine Bool.eq_false_iff.mpr fun ha => ?_
  rw [not_closed_of_active ha] at hc
  cases hc

namespace Station

variable {v : Service α ρ ω κ τ} {s : Station α ρ ω τ} {h h' : Handling ρ ω} {i : Nat}
  {t : Ticket} {x : Action α κ τ} {actions : List (Action α κ τ)}

def isOpen (s : Station α ρ ω τ) (t : Ticket) : Bool :=
  s.mailbox.queue.any (·.1 = t) || s.handlings.any fun h => h.ticket = t && !h.isClosed

def sent (s : Station α ρ ω τ) (t : Ticket) : List ρ :=
  (s.handlings.filter (·.ticket = t)).flatMap (·.outbox.sent)

def next? (s : Station α ρ ω τ) : Option Ticket :=
  s.mailbox.queue.head?.map (·.1)

def HandledToEnd (s : Station α ρ ω τ) (t : Ticket) : Prop :=
  t < s.mailbox.posted ∧ t ∉ s.mailbox.dropped ∧ ¬ s.isOpen t

section Streams

theorem isOpen_iff : s.isOpen t ↔
    t ∈ s.mailbox.queue.map (·.1) ∨
      ∃ h ∈ s.handlings, h.ticket = t ∧ h.isClosed = false := by
  simp [isOpen]

theorem Orderly.busy_iff (ho : s.Orderly) :
    s.mailbox.busy = true ↔ ∃ h ∈ s.handlings, h.isActive := by
  rw [← List.countP_pos_iff, ho.busy]
  cases s.mailbox.busy <;> simp

theorem Orderly.empty_of_dropped (ho : s.Orderly) (hd : t ∈ s.mailbox.dropped) :
    ¬ s.isOpen t ∧ s.sent t = [] := by
  obtain ⟨hnodup, -, hqueue⟩ := List.nodup_append.mp ho.nodup
  obtain ⟨-, -, hhandlings⟩ := List.nodup_append.mp hnodup
  have hno (h : Handling ρ ω) (hm : h ∈ s.handlings) : h.ticket ≠ t :=
    hhandlings h.ticket (List.mem_map_of_mem hm) t hd
  constructor
  · rw [isOpen_iff]
    rintro (hwaits | ⟨h, hm, ht, -⟩)
    · exact hqueue t (List.mem_append_right _ hd) t hwaits rfl
    · exact hno h hm ht
  · have hfilter : s.handlings.filter (·.ticket = t) = [] :=
      List.filter_eq_nil_iff.mpr fun h hm => by simp [hno h hm]
    rw [sent, hfilter]
    rfl

theorem Orderly.closed_handling (ho : s.Orderly) (ht : s.HandledToEnd t) :
    ∃ (i : Nat) (h : Handling ρ ω), s.handlings[i]? = some h ∧ h.ticket = t ∧ h.isClosed := by
  obtain ⟨hposted, hd, hopen⟩ := ht
  rw [isOpen_iff, not_or] at hopen
  have hmem := ho.once.mem_iff.mpr (List.mem_range.mpr hposted)
  have hhandled := (List.mem_append.mp ((List.mem_append.mp hmem).resolve_right
    hopen.1)).resolve_right hd
  obtain ⟨h, hm, rfl⟩ := List.mem_map.mp hhandled
  obtain ⟨i, hi⟩ := List.mem_iff_getElem?.mp hm
  exact ⟨i, h, hi, rfl, Bool.of_not_eq_false fun hc => hopen.2 ⟨h, hm, rfl, hc⟩⟩

end Streams

section Histories

theorem get_actAll (hi : s.handlings[i]? = some h) (v : Service α ρ ω κ τ)
    (actions : List (Action α κ τ)) :
    ∃ h', (s.actAll v actions).handlings[i]? = some h' ∧ h'.ticket = h.ticket ∧
      (h.isActive = false → h'.isActive = false) ∧ (h.isClosed → h'.isClosed) := by
  induction actions generalizing s h with
  | nil => exact ⟨h, hi, rfl, id, id⟩
  | cons x rest ih =>
    obtain ⟨b, hb, rfl | hs⟩ := stride_of_change (change_act v s x) hi
    · exact ih hb
    · obtain ⟨h', hh', ht, ha, hc⟩ := ih hb
      exact ⟨h', hh', ht.trans hs.ticket, ha ∘ hs.not_active, hc ∘ hs.closed⟩

theorem actAll_append (v : Service α ρ ω κ τ) (s : Station α ρ ω τ)
    (first later : List (Action α κ τ)) :
    s.actAll v (first ++ later) = (s.actAll v first).actAll v later :=
  List.foldl_append

theorem taken_of_change {s' : Station α ρ ω τ} (hc : Change v s x s')
    (hno : ¬ i < s.handlings.length) (hyes : i < s'.handlings.length) :
    x = .take ∧ s.handlings.length = i ∧ s.mailbox.busy = false ∧
      ∃ h, s.next? = some h.ticket ∧ s'.handlings[i]? = some h := by
  cases hc with
  | taken hq hb =>
    rw [List.length_append, List.length_singleton] at hyes
    have hlength : s.handlings.length = i := by omega
    subst hlength
    exact ⟨rfl, rfl, hb, _, by rw [next?, hq]; rfl, List.getElem?_concat_length ..⟩
  | still | elsewhere | post | dropped => exact absurd hyes hno
  | work | free | leave => exact absurd (List.length_set ▸ hyes) hno

theorem dropped_of_change {s' : Station α ρ ω τ} (hc : Change v s x s')
    (hno : t ∉ s.mailbox.dropped) (hyes : t ∈ s'.mailbox.dropped) :
    x = .take ∧ s.mailbox.busy = true ∧ s.next? = some t := by
  cases hc with
  | dropped hq hb =>
    obtain rfl := List.mem_singleton.mp ((List.mem_append.mp hyes).resolve_left hno)
    exact ⟨rfl, hb, by rw [next?, hq]; rfl⟩
  | still | elsewhere | post | taken => exact absurd hyes hno
  | work | leave =>
    rw [(sameQueue_update _ _ _).dropped] at hyes
    exact absurd hyes hno
  | free =>
    rw [(sameQueue_free _ _ _ _).dropped] at hyes
    exact absurd hyes hno

theorem exists_taken (hlater : s.handlings.length ≤ i)
    (hi : (s.actAll v actions).handlings[i]? = some h) :
    ∃ before after, actions = before ++ .take :: after ∧
      (s.actAll v before).next? = some h.ticket ∧
      (s.actAll v before).mailbox.busy = false ∧
      (s.actAll v before).handlings.length = i := by
  obtain ⟨before, x, after, rfl, hno, hyes⟩ :=
    exists_turn (p := fun m : Station α ρ ω τ => i < m.handlings.length)
      (Nat.not_lt.mpr hlater) (List.getElem?_eq_some_iff.mp hi).1
  obtain ⟨rfl, hlength, hb, b, hnext, hbi⟩ :=
    taken_of_change (change_act v (s.actAll v before) x) hno hyes
  obtain ⟨h', hh', ht, -⟩ := get_actAll hbi v after
  have hsame : (s.actAll v (before ++ .take :: after)).handlings[i]? = some h' := by
    rw [actAll_append]
    exact hh'
  obtain rfl := Option.some.inj (hi.symm.trans hsame)
  exact ⟨before, after, rfl, ht ▸ hnext, hb, hlength⟩

theorem exists_dropped (hbefore : t ∉ s.mailbox.dropped)
    (hd : t ∈ (s.actAll v actions).mailbox.dropped) :
    ∃ before after, actions = before ++ .take :: after ∧
      (s.actAll v before).next? = some t ∧ (s.actAll v before).mailbox.busy = true := by
  obtain ⟨before, x, after, rfl, hno, hyes⟩ :=
    exists_turn (p := fun m : Station α ρ ω τ => t ∈ m.mailbox.dropped) hbefore hd
  obtain ⟨rfl, hb, hnext⟩ := dropped_of_change (change_act v (s.actAll v before) x) hno hyes
  exact ⟨before, after, rfl, hnext, hb⟩

theorem dropped_change {s' : Station α ρ ω τ} (hc : Change v s x s')
    (hd : t ∈ s.mailbox.dropped) : t ∈ s'.mailbox.dropped := by
  cases hc with
  | still | elsewhere | post | taken => exact hd
  | dropped => exact List.mem_append_left _ hd
  | work | leave => rwa [(sameQueue_update _ _ _).dropped]
  | free => rwa [(sameQueue_free _ _ _ _).dropped]

theorem dropped_actAll (hd : t ∈ s.mailbox.dropped) (v : Service α ρ ω κ τ)
    (actions : List (Action α κ τ)) : t ∈ (s.actAll v actions).mailbox.dropped := by
  induction actions generalizing s with
  | nil => exact hd
  | cons x rest ih => exact ih (dropped_change (change_act v s x) hd)

theorem freed_of_change {s' : Station α ρ ω τ} (ho : s.Orderly) (hc : Change v s x s')
    (hno : ¬ ∃ h ∈ s.handlings, h.ticket = t ∧ h.isActive = false)
    (hyes : ∃ h ∈ s'.handlings, h.ticket = t ∧ h.isActive = false) :
    s'.mailbox.busy = false ∧ ∃ h ∈ s'.handlings, h.ticket = t ∧ h.phase = .freed := by
  obtain ⟨h, hm, ht, hinactive⟩ := hyes
  have hset {i : Nat} {b b' : Handling ρ ω} (hi : s.handlings[i]? = some b)
      (hm : h ∈ s.handlings.set i b') : h = b' :=
    (List.mem_or_eq_of_mem_set hm).resolve_left fun hold => hno ⟨h, hold, ht, hinactive⟩
  cases hc with
  | still | elsewhere | post | dropped => exact absurd ⟨h, hm, ht, hinactive⟩ hno
  | taken =>
    rcases List.mem_append.mp hm with hm | hm
    · exact absurd ⟨h, hm, ht, hinactive⟩ hno
    · -- A handling begins active.
      rw [List.mem_singleton.mp hm] at hinactive
      cases hinactive
  | @work i _ b hi =>
    obtain rfl := hset hi hm
    exact absurd ⟨b, List.mem_of_getElem? hi, ht, hinactive⟩ hno
  | @leave i b hi hp =>
    obtain rfl := hset hi hm
    exact absurd ⟨b, List.mem_of_getElem? hi, ht, by simp [Handling.isActive, hp]⟩ hno
  | @free i b hi hp =>
    obtain rfl := hset hi hm
    refine ⟨?_, _, hm, ht, rfl⟩
    have hin := ho.mem_handling hi (by simp [Handling.isActive, hp])
    simp [update, Handling.isClosed, Mailbox.busy_release hin]

theorem exists_freed (world : τ)
    (hm : ∃ h ∈ ((start world).actAll v actions).handlings,
      h.ticket = t ∧ h.isActive = false) :
    ∃ before after, actions = before ++ after ∧
      ((start world : Station α ρ ω τ).actAll v before).mailbox.busy = false ∧
      ∃ h ∈ ((start world).actAll v before).handlings, h.ticket = t ∧ h.phase = .freed := by
  obtain ⟨before, x, after, rfl, hno, hyes⟩ :=
    exists_turn (p := fun m : Station α ρ ω τ =>
      ∃ h ∈ m.handlings, h.ticket = t ∧ h.isActive = false) (fun ⟨h, hm, _⟩ => by cases hm) hm
  have ho := orderly_actAll (orderly_start (α := α) (ρ := ρ) (ω := ω) world) v before
  have hfreed := freed_of_change ho (change_act v _ x) hno hyes
  refine ⟨before ++ [x], after, by simp, ?_⟩
  rw [actAll_append]
  exact hfreed

end Histories

section Closures

variable {world : τ} {client : Nat} {request : α}

theorem Orderly.lt_of_open (ho : s.Orderly) (hopen : s.isOpen t) : t < s.mailbox.posted := by
  refine List.mem_range.mp (ho.once.mem_iff.mp ?_)
  rcases isOpen_iff.mp hopen with hwaits | ⟨h, hm, rfl, -⟩
  · exact List.mem_append_right _ hwaits
  · exact List.mem_append_left _ (List.mem_append_left _ (List.mem_map_of_mem hm))

theorem waits_of_next (hn : s.next? = some t) : t ∈ s.mailbox.queue.map (·.1) := by
  obtain ⟨e, he, rfl⟩ := Option.map_eq_some_iff.mp hn
  exact List.mem_map_of_mem (List.mem_of_mem_head? he)

theorem Orderly.not_open_of_closed (ho : s.Orderly) (hi : s.handlings[i]? = some h)
    (hc : h.isClosed) : ¬ s.isOpen h.ticket := by
  rw [isOpen_iff]
  rintro (hwaits | ⟨b, hb, ht, hopen⟩)
  · have hmem := List.mem_append_left s.mailbox.dropped
      (List.mem_map_of_mem (f := (·.ticket)) (List.mem_of_getElem? hi))
    exact (List.nodup_append.mp ho.nodup).2.2 _ hmem _ hwaits rfl
  · obtain ⟨j, hj⟩ := List.mem_iff_getElem?.mp hb
    obtain rfl := ho.index_unique hi hj ht.symm
    obtain rfl := Option.some.inj (hi.symm.trans hj)
    rw [hc] at hopen
    cases hopen

theorem Orderly.lt_of_active {j : Nat} (ho : s.Orderly) (hi : s.handlings[i]? = some h)
    (hinactive : h.isActive = false) (hj : s.handlings[j]? = some h') (hactive : h'.isActive) :
    i < j := by
  have hlast := ho.last j h' hj hactive
  have hin := (List.getElem?_eq_some_iff.mp hi).1
  refine Nat.lt_of_le_of_ne (by omega) fun hij => ?_
  obtain rfl := Option.some.inj ((hij ▸ hi).symm.trans hj)
  rw [hinactive] at hactive
  cases hactive

theorem Orderly.open_before (ho : s.Orderly) (v : Service α ρ ω κ τ)
    (actions : List (Action α κ τ)) (ht : t < s.mailbox.posted)
    (hopen : (s.actAll v actions).isOpen t) : s.isOpen t := by
  have ho' := orderly_actAll ho v actions
  refine Bool.of_not_eq_false fun hclosed => ?_
  have hno : ¬ s.isOpen t := by simp [hclosed]
  by_cases hd : t ∈ s.mailbox.dropped
  · exact (ho'.empty_of_dropped (dropped_actAll hd v actions)).1 hopen
  · obtain ⟨i, h, hi, rfl, hc⟩ := ho.closed_handling ⟨ht, hd, hno⟩
    obtain ⟨h', hi', ht', -, hc'⟩ := get_actAll hi v actions
    exact ho'.not_open_of_closed hi' (hc' hc) (ht' ▸ hopen)

theorem exists_other {before after : List (Action α κ τ)}
    (ht : ((start world).actAll v before).HandledToEnd t)
    (hd : ((start world).actAll v before).mailbox.posted ∈
      ((start world).actAll v (before ++ .post client request :: after)).mailbox.dropped) :
    ∃ first rest other, before ++ .post client request :: after = first ++ .take :: rest ∧
      ((start world).actAll v first).next? = some other ∧
      ((start world).actAll v first).mailbox.busy = false ∧
      (∃ h ∈ ((start world).actAll v first).handlings, h.ticket = t) ∧
      ((start world).actAll v before).mailbox.posted ∉
        ((start world).actAll v first).mailbox.dropped ∧
      ((start world).actAll v before).isOpen other := by
  have ho (actions : List (Action α κ τ)) : ((start world).actAll v actions).Orderly :=
    orderly_actAll (orderly_start world) v actions
  obtain ⟨i, h, hi, rfl, hc⟩ := (ho before).closed_handling ht
  have hfresh : ((start world).actAll v before).mailbox.posted ∉
      (((start world).actAll v before).post client request).mailbox.dropped := fun hmem =>
    Nat.lt_irrefl _ (List.mem_range.mp ((ho before).once.mem_iff.mp
      (List.mem_append_left _ (List.mem_append_right _ hmem))))
  rw [actAll_append] at hd
  obtain ⟨middle, later, rfl, hnext, hb⟩ := exists_dropped (v := v) hfresh hd
  have hmiddle : (((start world).actAll v before).post client request).actAll v middle =
      (start world).actAll v (before ++ .post client request :: middle) :=
    (actAll_append v _ before (.post client request :: middle)).symm
  rw [hmiddle] at hnext hb
  have hnow := ho (before ++ .post client request :: middle)
  -- The worker is busy with the last one that it took, which is not the one that has ended.
  obtain ⟨b, hbmem, hactive⟩ := hnow.busy_iff.mp hb
  obtain ⟨j, hj⟩ := List.mem_iff_getElem?.mp hbmem
  obtain ⟨h', hi', ht', -, hc'⟩ := get_actAll hi v (.post client request :: middle)
  rw [← actAll_append] at hi'
  have hlt : i < j := hnow.lt_of_active hi' (Handling.inactive_of_closed (hc' hc)) hj hactive
  obtain ⟨first, rest, hsplit, hfirst, hfree, hlength⟩ := exists_taken (Nat.zero_le _) hj
  refine ⟨first, rest ++ .take :: later, b.ticket, ?_, hfirst, hfree, ?past, ?_, ?still⟩
  · rw [← List.cons_append, ← List.append_assoc, hsplit, List.append_assoc, List.cons_append]
  case past =>
    obtain ⟨e, he⟩ : ∃ e, ((start world).actAll v first).handlings[i]? = some e :=
      ⟨_, List.getElem?_eq_getElem (hlength.symm ▸ hlt)⟩
    obtain ⟨e', he', hte, -⟩ := get_actAll he v (.take :: rest)
    rw [← actAll_append, ← hsplit] at he'
    obtain rfl := Option.some.inj (hi'.symm.trans he')
    exact ⟨e, List.mem_of_getElem? he, hte.symm.trans ht'⟩
  · intro hmem
    have hdropped := dropped_actAll hmem v (.take :: rest)
    rw [← actAll_append, ← hsplit] at hdropped
    exact (List.nodup_append.mp hnow.nodup).2.2 _ (List.mem_append_right _ hdropped) _
      (waits_of_next hnext) rfl
  case still =>
    have hticket := (List.pairwise_append.mp hnow.fifo).2.2 _ (List.mem_map_of_mem hbmem) _
      (waits_of_next hnext)
    refine (ho before).open_before v (.post client request :: middle) hticket ?_
    rw [← actAll_append, isOpen_iff]
    exact .inr ⟨b, hbmem, rfl, Handling.not_closed_of_active hactive⟩

end Closures

section Schedules

variable {schedule : Nat → Action α κ τ} {n : Nat}

def along (v : Service α ρ ω κ τ) (schedule : Nat → Action α κ τ) (s : Station α ρ ω τ) (n : Nat) :
    Station α ρ ω τ :=
  s.actAll v ((List.range n).map schedule)

def TakesOn (schedule : Nat → Action α κ τ) : Prop :=
  ∀ n, ∃ m, n ≤ m ∧ schedule m = .take

def ahead (s : Station α ρ ω τ) (t : Ticket) : Nat :=
  s.mailbox.queue.countP (·.1 ≤ t)

theorem along_succ (v : Service α ρ ω κ τ) (schedule : Nat → Action α κ τ) (s : Station α ρ ω τ)
    (n : Nat) : s.along v schedule (n + 1) = (s.along v schedule n).act v (schedule n) := by
  unfold along
  rw [List.range_succ, List.map_append, actAll_append]
  rfl

theorem queue_take (v : Service α ρ ω κ τ) (s : Station α ρ ω τ) :
    (s.take v).mailbox.queue = s.mailbox.queue.tail := by
  cases hq : s.mailbox.queue with
  | nil => rw [take_of_nil hq, hq]; rfl
  | cons e queue =>
    obtain ⟨t, request⟩ := e
    cases hb : s.mailbox.busy with
    | true => rw [take_of_busy hq hb]; rfl
    | false => rw [take_of_free hq hb]; rfl

theorem ahead_change {s' : Station α ρ ω τ} (hc : Change v s x s') (ht : t < s.mailbox.posted) :
    t < s'.mailbox.posted ∧ s'.ahead t ≤ s.ahead t := by
  have hsame {s' : Station α ρ ω τ} (hm : Mailbox.SameQueue s.mailbox s'.mailbox) :
      t < s'.mailbox.posted ∧ s'.ahead t ≤ s.ahead t :=
    ⟨hm.posted ▸ ht, by rw [ahead, hm.queue]; exact Nat.le_refl _⟩
  cases hc with
  | still | elsewhere => exact ⟨ht, Nat.le_refl _⟩
  | post =>
    refine ⟨Nat.lt_succ_of_lt ht, ?_⟩
    have hlate : ¬ s.mailbox.posted ≤ t := Nat.not_le.mpr ht
    simp [ahead, post, Mailbox.post, hlate]
  | dropped hq | taken hq =>
    refine ⟨ht, ?_⟩
    rw [ahead, ahead, hq]
    exact (List.sublist_cons_self ..).countP_le
  | @work i k h =>
    exact hsame (sameQueue_update { s with world := (v.go k h.work s.world).2.2 } i _)
  | leave => exact hsame (sameQueue_update _ _ _)
  | free => exact hsame (sameQueue_free _ _ _ _)

theorem Orderly.ahead_take (ho : s.Orderly) (hwaits : 0 < s.ahead t) (v : Service α ρ ω κ τ) :
    (s.take v).ahead t < s.ahead t := by
  rw [ahead, queue_take, ahead]
  have hsorted := (List.pairwise_append.mp ho.fifo).2.1
  rw [ahead] at hwaits
  cases hq : s.mailbox.queue with
  | nil => simp [hq] at hwaits
  | cons e queue =>
    rw [hq] at hwaits hsorted
    -- The first one in the queue is the oldest.
    have hfirst : e.1 ≤ t := by
      obtain ⟨b, hb, hle⟩ := List.countP_pos_iff.mp hwaits
      rcases List.mem_cons.mp hb with rfl | hb
      · exact of_decide_eq_true hle
      · have hlt := (List.pairwise_cons.mp hsorted).1 _ (List.mem_map_of_mem hb)
        exact Nat.le_of_lt (Nat.lt_of_lt_of_le hlt (of_decide_eq_true hle))
    simp [hfirst]

theorem posted_along (v : Service α ρ ω κ τ) (schedule : Nat → Action α κ τ)
    (ht : t < s.mailbox.posted) (n : Nat) : t < (s.along v schedule n).mailbox.posted := by
  induction n with
  | zero => exact ht
  | succ n ih =>
    rw [along_succ]
    exact (ahead_change (change_act v _ (schedule n)) ih).1

theorem ahead_along (v : Service α ρ ω κ τ) (schedule : Nat → Action α κ τ)
    (ht : t < s.mailbox.posted) {n m : Nat} (hm : n ≤ m) :
    (s.along v schedule m).ahead t ≤ (s.along v schedule n).ahead t := by
  induction hm with
  | refl => exact Nat.le_refl _
  | @step m _ ih =>
    rw [along_succ]
    have hone := ahead_change (change_act v _ (schedule m)) (posted_along v schedule ht m)
    exact Nat.le_trans hone.2 ih

theorem exists_not_ahead (hschedule : TakesOn schedule) (ho : s.Orderly)
    (ht : t < s.mailbox.posted) (v : Service α ρ ω κ τ) :
    ∃ n, (s.along v schedule n).ahead t = 0 := by
  have hless (k n : Nat) (hk : (s.along v schedule n).ahead t ≤ k) :
      ∃ n, (s.along v schedule n).ahead t = 0 := by
    induction k generalizing n with
    | zero => exact ⟨n, Nat.le_zero.mp hk⟩
    | succ k ih =>
      obtain ⟨m, hm, htake⟩ := hschedule n
      have hle := ahead_along v schedule ht hm
      rcases Nat.eq_zero_or_pos ((s.along v schedule m).ahead t) with hnone | hwaits
      · exact ⟨m, hnone⟩
      · refine ih (m + 1) ?_
        have hnow : (s.along v schedule m).Orderly :=
          orderly_actAll ho v ((List.range m).map schedule)
        have hfewer := hnow.ahead_take hwaits v
        rw [along_succ, htake]
        change ((s.along v schedule m).take v).ahead t ≤ k
        omega
  exact hless _ 0 (Nat.le_refl _)

theorem exists_settled (hschedule : TakesOn schedule) (ho : s.Orderly)
    (ht : t < s.mailbox.posted) (v : Service α ρ ω κ τ) :
    ∃ n, (∃ h ∈ (s.along v schedule n).handlings, h.ticket = t) ∨
      t ∈ (s.along v schedule n).mailbox.dropped := by
  obtain ⟨n, hnone⟩ := exists_not_ahead hschedule ho ht v
  refine ⟨n, ?_⟩
  have hmem := (orderly_actAll ho v ((List.range n).map schedule)).once.mem_iff.mpr
    (List.mem_range.mpr (posted_along v schedule ht n))
  have hout : t ∉ (s.along v schedule n).mailbox.queue.map (·.1) := fun hwaits => by
    obtain ⟨e, he, rfl⟩ := List.mem_map.mp hwaits
    simpa using List.countP_eq_zero.mp hnone e he
  rcases List.mem_append.mp ((List.mem_append.mp hmem).resolve_right hout) with hhandled | hd
  · exact .inl (List.mem_map.mp hhandled)
  · exact .inr hd

end Schedules

/-- What clients of a worker can rely on, after some actions. -/
structure Reliable (v : Service α ρ ω κ τ) (world : τ) (actions : List (Action α κ τ)) :
    Prop where
  active : ((start world).actAll v actions).handlings.countP Handling.isActive ≤ 1
  busy : ((start world).actAll v actions).mailbox.busy = true ↔
    ∃ h ∈ ((start world).actAll v actions).handlings, h.isActive
  once : (((start world).actAll v actions).handlings.map (·.ticket) ++
      ((start world).actAll v actions).mailbox.dropped ++
      ((start world).actAll v actions).mailbox.queue.map (·.1)).Perm
    (List.range ((start world).actAll v actions).mailbox.posted)
  settled : ∀ t < ((start world).actAll v actions).mailbox.posted,
    ∀ schedule, TakesOn schedule → ∃ n,
      let later := ((start world).actAll v actions).along v schedule n
      (∃ h ∈ later.handlings, h.ticket = t) ∨ t ∈ later.mailbox.dropped
  empty : ∀ t ∈ ((start world).actAll v actions).mailbox.dropped,
    ¬ ((start world).actAll v actions).isOpen t ∧ ((start world).actAll v actions).sent t = []
  dropped : ∀ t ∈ ((start world).actAll v actions).mailbox.dropped,
    ∃ before after, actions = before ++ .take :: after ∧
      ((start world).actAll v before).next? = some t ∧
      ∃ h ∈ ((start world).actAll v before).handlings, h.isActive
  closed : ∀ t, ((start world).actAll v actions).HandledToEnd t →
    ∃ before after, actions = before ++ after ∧
      ((start world).actAll v before).mailbox.busy = false ∧
      ((start world).actAll v before).isOpen t ∧
      ∃ h ∈ ((start world).actAll v before).handlings, h.ticket = t ∧ h.phase = .freed
  /-- Who posts after the stream of `t` has closed is dropped only if another request was taken
  since the worker let go of `t`. It is another client's, unless the client itself had already
  posted it and did not wait for its end. -/
  taken : ∀ before client request after t, actions = before ++ .post client request :: after →
    let posting := (start world).actAll v before
    posting.HandledToEnd t →
    posting.mailbox.posted ∈ ((start world).actAll v actions).mailbox.dropped →
    ∃ first rest other, actions = first ++ .take :: rest ∧
      let taking := (start world).actAll v first
      taking.next? = some other ∧ taking.mailbox.busy = false ∧
      (∃ h ∈ taking.handlings, h.ticket = t) ∧
      posting.mailbox.posted ∉ taking.mailbox.dropped ∧
      posting.isOpen other ∧
      ((∀ own, posting.posters[own]? = some client → ¬ posting.isOpen own) →
        ∃ another, another ≠ client ∧ posting.posters[other]? = some another)

/-- Whoever posts to a worker and however the tasks take turns, it is reliable. -/
theorem requests_handled_once_or_dropped (v : Service α ρ ω κ τ) (world : τ)
    (actions : List (Action α κ τ)) : Reliable v world actions := by
  have ho : ((start world).actAll v actions).Orderly :=
    orderly_actAll (orderly_start world) v actions
  constructor
  case active =>
    rw [ho.busy]
    exact Bool.toNat_le _
  case busy => exact ho.busy_iff
  case once => exact ho.once
  case settled => exact fun t ht schedule hschedule => exists_settled hschedule ho ht v
  case empty => exact fun t => ho.empty_of_dropped
  case dropped =>
    intro t hd
    obtain ⟨before, after, hsplit, hnext, hb⟩ := exists_dropped List.not_mem_nil hd
    exact ⟨before, after, hsplit, hnext,
      (orderly_actAll (orderly_start world) v before).busy_iff.mp hb⟩
  case closed =>
    intro t ht
    obtain ⟨i, h, hi, rfl, hc⟩ := ho.closed_handling ht
    obtain ⟨before, after, hsplit, hb, b, hm, hticket, hp⟩ :=
      exists_freed world ⟨h, List.mem_of_getElem? hi, rfl, Handling.inactive_of_closed hc⟩
    refine ⟨before, after, hsplit, hb, isOpen_iff.mpr (.inr ⟨b, hm, hticket, ?_⟩), b, hm,
      hticket, hp⟩
    simp [Handling.isClosed, hp]
  case taken =>
    rintro before client request after t rfl posting ht hd
    obtain ⟨first, rest, other, hsplit, hnext, hfree, hpast, hnot, hopen⟩ := exists_other ht hd
    refine ⟨first, rest, other, hsplit, hnext, hfree, hpast, hnot, hopen, fun hown => ?_⟩
    have hposting : posting.Orderly := orderly_actAll (orderly_start world) v before
    obtain ⟨another, hanother⟩ : ∃ another, posting.posters[other]? = some another :=
      ⟨_, List.getElem?_eq_getElem (hposting.posters ▸ hposting.lt_of_open hopen)⟩
    refine ⟨another, fun heq => hown other ?_ hopen, hanother⟩
    rw [hanother, heq]

end Station

def Service.echo : Service Nat Nat (Option Nat) Unit Unit where
  start := some
  go _ work world := (none, (work.elim [] fun request => [.send request, .drop]), world)
  returned := Option.isNone

namespace Station

def echoing : List (Action Nat Unit Unit) :=
  [.post 0 10, .take, .go 0 (), .leave 0, .leave 0, .post 1 20]

theorem requests_handled_once_or_dropped_echo :
    ((start ()).actAll .echo echoing).HandledToEnd 0 ∧
    ((start ()).actAll .echo echoing).sent 0 = [10] ∧
    2 ∈ ((start ()).actAll .echo (echoing ++ .post 0 30 :: [.take, .take])).mailbox.dropped ∧
    ∃ first rest other, echoing ++ .post 0 30 :: [.take, .take] = first ++ .take :: rest ∧
      ((start ()).actAll .echo first).next? = some other ∧
      ∃ another, another ≠ 0 ∧
        ((start ()).actAll .echo echoing).posters[other]? = some another := by
  have hend : ((start ()).actAll .echo echoing).HandledToEnd 0 :=
    ⟨by decide, by decide, by decide⟩
  have hd : 2 ∈
      ((start ()).actAll .echo (echoing ++ .post 0 30 :: [.take, .take])).mailbox.dropped := by
    decide
  have hown (own : Ticket)
      (h : ((start ()).actAll .echo echoing).posters[own]? = some 0) :
      ¬ ((start ()).actAll .echo echoing).isOpen own := by
    change ([0, 1] : List Nat)[own]? = some 0 at h
    match own with
    | 0 => decide
    | 1 => cases h
    | own + 2 => cases h
  obtain ⟨first, rest, other, hsplit, hnext, -, -, -, -, hanother⟩ :=
    (requests_handled_once_or_dropped .echo () _).taken echoing 0 30 [.take, .take] 0 rfl hend hd
  exact ⟨hend, by decide, hd, first, rest, other, hsplit, hnext, hanother hown⟩

end Station

end Buildbox
