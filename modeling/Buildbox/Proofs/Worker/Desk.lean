import Buildbox.Worker.Handler

/-! One worker with its handlers and its sandbox. A worker that is asked one request at a time
is at rest, or it serves the last request it was asked; each step of its tasks leads from one
such state to another. -/

namespace Buildbox

/-- A worker as its tasks see it. -/
structure Desk (step : Step) where
  mailbox : Mailbox step.Request
  handlers : List (Handler step)
  runner : Runner

namespace Stages

variable {σ β α γ : Type} {w : Workshop σ β}

def Aside (x : EStateM Failure (Stages σ β) α) : Prop :=
  ∀ s, (∀ a s', x s = .ok a s' → s'.runner = s.runner) ∧
    ∀ f s', x s = .error f s' → s'.runner = s.runner

theorem Aside.pure (a : α) : Aside (pure a : EStateM Failure (Stages σ β) α) := by
  intro s
  refine ⟨fun b s' h => ?_, fun f s' h => ?_⟩ <;> cases h
  rfl

theorem Aside.throw (f : Failure) : Aside (throw f : EStateM Failure (Stages σ β) α) := by
  intro s
  refine ⟨fun b s' h => ?_, fun f s' h => ?_⟩ <;> cases h
  rfl

theorem Aside.bind {x : EStateM Failure (Stages σ β) α} {k : α → EStateM Failure (Stages σ β) γ}
    (hx : Aside x) (hk : ∀ a, Aside (k a)) : Aside (x >>= k) := by
  intro s
  have hbind : (x >>= k) s = EStateM.bind x k s := rfl
  rw [hbind, EStateM.bind]
  cases h : x s with
  | ok a s₁ =>
    rw [← (hx s).1 a s₁ h]
    exact hk a s₁
  | error f s₁ =>
    refine ⟨fun b s' he => ?_, fun g s' he => ?_⟩ <;> cases he
    exact (hx s).2 f s₁ h

theorem aside_inToolchain (act : EStateM Failure (Toolchain σ) α) :
    Aside (inToolchain act : EStateM Failure (Stages σ β) α) := by
  intro s
  unfold inToolchain
  cases act s.toolchain with
  | ok a t =>
    refine ⟨fun b s' h => ?_, fun f s' h => ?_⟩ <;> cases h
    rfl
  | error f t =>
    refine ⟨fun b s' h => ?_, fun f s' h => ?_⟩ <;> cases h
    rfl

theorem aside_prepareTranspile (filename content : String) :
    Aside (prepareTranspile w filename content) := by
  unfold prepareTranspile
  refine (aside_inToolchain _).bind fun _ => (aside_inToolchain _).bind fun support => ?_
  split
  · exact .pure _
  · exact .throw _

theorem aside_prepareCompile (files : NameMap String) : Aside (prepareCompile w files) := by
  unfold prepareCompile
  refine (aside_inToolchain _).bind fun _ => (aside_inToolchain _).bind fun (library, support) => ?_
  dsimp only
  split
  · exact .pure _
  · exact .throw _

theorem aside_prepare (step : Step) (r : step.Request) : Aside (prepare w step r) := by
  cases step with
  | transpile =>
    dsimp only [prepare]
    split
    · exact .throw _
    · exact aside_prepareTranspile _ _
  | compile => exact aside_prepareCompile _
  | execute => exact .pure _

theorem runner_acquire (s : Stages σ β) (step other : Step) :
    (s.acquire step).2.runner other =
      if other = step then (s.runner step).acquire.2 else s.runner other :=
  runner_withRunner ..

theorem runner_carryOut (s : Stages σ β) (step other : Step) (i : Invocation) :
    (s.carryOut w step i (.ok ())).2.runner other =
      if other = step then (s.runner step).release else s.runner other := by
  have hsandbox (sandbox : β) (other : Step) :
      ({ s with sandbox } : Stages σ β).runner other = s.runner other := by cases other <;> rfl
  simp only [carryOut, runner_withRunner, hsandbox]

end Stages

namespace Phase

variable {step : Step}

def Working : Phase step → Prop
  | taken _ | prepared _ _ | replying _ => True
  | asked _ _ answer => answer = .ok ()
  | freed | ended => False

def sandbox : Phase step → StageState
  | asked .. => .running
  | _ => .idle

end Phase

namespace Desk

variable {σ β : Type} {step : Step} {d : Desk step} {hs before : List (Handler step)}
  {h : Handler step} {n t u : Nat}

def Past (hs : List (Handler step)) (n : Nat) : Prop :=
  hs.map (·.ticket) = List.range n ∧ ∀ h ∈ hs, h.phase = .ended

structure Rest (d : Desk step) (n : Nat) : Prop where
  mailbox : d.mailbox = { posted := n, closed := List.range n }
  past : Past d.handlers n
  idle : d.runner.state = .idle
  accepted : d.runner.rejectedCount = 0

inductive Serving (d : Desk step) (t : Ticket) : Prop where
  | queued {request : step.Request}
    (hm : d.mailbox =
      { posted := t + 1, queue := [(t, request)], closed := List.range t })
    (hp : Past d.handlers t) (hi : d.runner.state = .idle) (ha : d.runner.rejectedCount = 0)
  | handled {before : List (Handler step)} {h : Handler step}
    (hm : d.mailbox =
      { posted := t + 1, busy := true, handling := [t], closed := List.range t })
    (hh : d.handlers = before ++ [h]) (ht : h.ticket = t) (hp : Past before t)
    (hw : h.phase.Working) (hi : d.runner.state = h.phase.sandbox)
    (ha : d.runner.rejectedCount = 0)
  | freed {before : List (Handler step)} {h : Handler step}
    (hm : d.mailbox = { posted := t + 1, closing := [t], closed := List.range t })
    (hh : d.handlers = before ++ [h]) (ht : h.ticket = t) (hp : Past before t)
    (hf : h.phase = .freed) (hi : d.runner.state = .idle) (ha : d.runner.rejectedCount = 0)
  | answered (hr : Rest d (t + 1))

theorem Past.ticket_ne (hp : Past before t) : ∀ b ∈ before, b.ticket ≠ t := by
  intro b hb heq
  have hmem : b.ticket ∈ List.range t := hp.1 ▸ List.mem_map_of_mem hb
  exact Nat.ne_of_lt (List.mem_range.mp hmem) heq

theorem Past.find? (hp : Past before t) (ht : h.ticket = t) :
    (before ++ [h]).find? (·.ticket = t) = some h := by
  have hearlier : before.find? (·.ticket = t) = none :=
    List.find?_eq_none.mpr fun b hb => by simpa using hp.ticket_ne b hb
  rw [List.find?_append, hearlier]
  simp [ht]

theorem Past.snoc (hp : Past before t) (ht : h.ticket = t) (ho : h.phase = .ended) :
    Past (before ++ [h]) (t + 1) := by
  constructor
  · rw [List.map_append, hp.1, List.range_succ, List.map_singleton, ht]
  · intro b hb
    rcases List.mem_append.mp hb with hb | hb
    · exact hp.2 b hb
    · rw [List.mem_singleton.mp hb, ho]

theorem Rest.post (hr : Rest d n) (request : step.Request) :
    (d.mailbox.post request).1 = n ∧
      Serving { d with mailbox := (d.mailbox.post request).2 } n := by
  rw [hr.mailbox]
  exact ⟨rfl, .queued rfl hr.past hr.idle hr.accepted⟩

section Works

variable {w : Workshop σ β} {m : Mailbox step.Request} {s : Stages σ β}

theorem workAt_ended (ho : ∀ h ∈ hs, h.phase = .ended) :
    Handler.workAt w u hs m s = (hs, m, s) := by
  induction hs with
  | nil => rfl
  | cons h rest ih =>
    rw [Handler.workAt, ih fun b hb => ho b (List.mem_cons_of_mem _ hb)]
    split
    · rw [Handler.work, ho h List.mem_cons_self]
    · rfl

theorem workAt_last (hp : Past before t) (ht : h.ticket = t) :
    Handler.workAt w t (before ++ [h]) m s =
      (before ++ [(h.work w m s).1], (h.work w m s).2) := by
  have hbefore := hp.ticket_ne
  clear hp
  induction before with
  | nil =>
    rw [List.nil_append, Handler.workAt, if_pos ht]
    rfl
  | cons b rest ih =>
    rw [List.cons_append, Handler.workAt, if_neg (hbefore b List.mem_cons_self),
      ih fun c hc => hbefore c (List.mem_cons_of_mem _ hc)]
    rfl

theorem workAt_other (hp : Past before t) (ht : h.ticket = t) (hu : u ≠ t) :
    Handler.workAt w u (before ++ [h]) m s = (before ++ [h], m, s) := by
  have hover := hp.2
  clear hp
  induction before with
  | nil =>
    rw [List.nil_append, Handler.workAt, if_neg fun heq => hu (heq.symm.trans ht)]
    rfl
  | cons b rest ih =>
    rw [List.cons_append, Handler.workAt, ih fun c hc => hover c (List.mem_cons_of_mem _ hc)]
    split
    · rw [Handler.work, hover b List.mem_cons_self]
    · rfl

theorem Serving.handler {before : List (Handler step)} {h : Handler step}
    (hm : m = { posted := t + 1, busy := true, handling := [t], closed := List.range t })
    (ht : h.ticket = t) (hp : Past before t) (hw : h.phase.Working)
    (hi : (s.runner step).state = h.phase.sandbox) (ha : (s.runner step).rejectedCount = 0) :
    Serving ⟨(h.work w m s).2.1, before ++ [(h.work w m s).1], (h.work w m s).2.2.runner step⟩ t ∧
      ∀ other, other ≠ step → (h.work w m s).2.2.runner other = s.runner other := by
  obtain ⟨ticket, phase, sent⟩ := h
  cases phase with
  | taken r =>
    obtain ⟨hok, herr⟩ := Stages.aside_prepare (w := w) step r s
    cases hprep : s.prepare w step r with
    | ok i s₁ =>
      have hs := hok i s₁ hprep
      simp only [Handler.work, hprep, hs]
      exact ⟨.handled hm rfl ht hp trivial hi ha, fun _ _ => trivial⟩
    | error f s₁ =>
      have hs := herr f s₁ hprep
      simp only [Handler.work, hprep, hs]
      exact ⟨.handled hm rfl ht hp trivial hi ha, fun _ _ => trivial⟩
  | prepared r i =>
    -- The sandbox is idle, so it lets the request in.
    have hadmit : (s.runner step).acquire = (.ok (), { s.runner step with
        state := .running, runCount := (s.runner step).runCount + 1 }) := by
      have hidle : (s.runner step).state = .idle := hi
      rw [Runner.acquire, hidle]
    have hanswer : (s.acquire step).1 = .ok () := by
      rw [Stages.acquire, hadmit]
    simp only [Handler.work, Stages.runner_acquire, if_true, hadmit]
    refine ⟨.handled hm rfl ht hp hanswer rfl ha, fun other hne => if_neg hne⟩
  | asked r i answer =>
    -- The run ends and lets the sandbox go before there is anything to reply.
    obtain rfl : answer = .ok () := hw
    simp only [Handler.work, Stages.runner_carryOut, if_true]
    exact ⟨.handled hm rfl ht hp trivial rfl ha, fun other hne => if_neg hne⟩
  | replying replies =>
    cases replies with
    | cons reply rest => exact ⟨.handled hm rfl ht hp trivial hi ha, fun _ _ => rfl⟩
    | nil =>
      -- The worker is free from here on; only the stream is still to be closed.
      have hfree : m.release ticket =
          { posted := t + 1, closing := [t], closed := List.range t } := by
        rw [hm, show ticket = t from ht]
        simp [Mailbox.release]
      exact ⟨.freed hfree rfl ht hp rfl hi ha, fun _ _ => rfl⟩
  | freed => exact hw.elim
  | ended => exact hw.elim

def work (w : Workshop σ β) (u : Ticket) (s : Stages σ β) (d : Desk step) : Desk step :=
  let r := Handler.workAt w u d.handlers d.mailbox s
  ⟨r.2.1, r.1, r.2.2.runner step⟩

theorem Rest.work (hr : Rest d n) (hs : d.runner = s.runner step) : d.work w u s = d := by
  unfold Desk.work
  rw [workAt_ended hr.past.2]
  exact congrArg (Desk.mk d.mailbox d.handlers) hs.symm

theorem Serving.work (hserve : Serving d t) (w : Workshop σ β) (u : Ticket)
    (hs : d.runner = s.runner step) :
    Serving (d.work w u s) t ∧ ∀ other, other ≠ step →
      (Handler.workAt w u d.handlers d.mailbox s).2.2.runner other = s.runner other := by
  obtain ⟨m, hs', r⟩ := d
  obtain rfl : r = s.runner step := hs
  unfold Desk.work
  cases hserve with
  | queued hm hp hi ha =>
    rw [workAt_ended hp.2]
    exact ⟨.queued hm hp hi ha, fun _ _ => rfl⟩
  | answered hr =>
    rw [workAt_ended hr.past.2]
    exact ⟨.answered hr, fun _ _ => rfl⟩
  | @handled before h hm hh ht hp hw hi ha =>
    obtain rfl : hs' = before ++ [h] := hh
    by_cases hu : u = t
    · subst hu
      rw [workAt_last hp ht]
      exact Serving.handler hm ht hp hw hi ha
    · rw [workAt_other hp ht hu]
      exact ⟨.handled hm rfl ht hp hw hi ha, fun _ _ => rfl⟩
  | @freed before h hm hh ht hp hf hi ha =>
    obtain rfl : hs' = before ++ [h] := hh
    by_cases hu : u = t
    · subst hu
      rw [workAt_last hp ht, Handler.work, hf]
      have hclose : m.close h.ticket = { posted := u + 1, closed := List.range (u + 1) } := by
        rw [show m = _ from hm, ht, List.range_succ]
        simp [Mailbox.close]
      have hpast : Past (before ++ [{ h with phase := .ended }]) (u + 1) := hp.snoc ht rfl
      exact ⟨.answered ⟨hclose, hpast, hi, ha⟩, fun _ _ => rfl⟩
    · rw [workAt_other hp ht hu]
      exact ⟨.freed hm rfl ht hp hf hi ha, fun _ _ => rfl⟩

end Works

theorem Serving.rest (hserve : Serving d t)
    (hc : t ∈ d.mailbox.dropped ∨ t ∈ d.mailbox.closed) : Rest d (t + 1) := by
  have hopen {m : Mailbox step.Request} (hm : d.mailbox = m) (hd : m.dropped = [])
      (hcl : m.closed = List.range t) : False := by
    rw [hm, hd, hcl] at hc
    rcases hc with hc | hc
    · exact List.not_mem_nil hc
    · exact List.not_mem_range_self hc
  cases hserve with
  | queued hm => exact (hopen hm rfl rfl).elim
  | handled hm => exact (hopen hm rfl rfl).elim
  | freed hm => exact (hopen hm rfl rfl).elim
  | answered hr => exact hr

theorem Serving.posted (hserve : Serving d t) : d.mailbox.posted = t + 1 := by
  cases hserve with
  | queued hm | handled hm | freed hm => rw [hm]
  | answered hr => rw [hr.mailbox]

theorem Serving.rest_of_rest (hserve : Serving d t) (hr : Rest d n) : Rest d (t + 1) := by
  have hn : d.mailbox.posted = n := by rw [hr.mailbox]
  rwa [← hserve.posted, hn]

def take (d : Desk step) : Desk step :=
  match d.mailbox.take with
  | (some (ticket, some request), mailbox) =>
    { d with mailbox, handlers := d.handlers ++ [{ ticket, phase := .taken request }] }
  | (_, mailbox) => { d with mailbox }

theorem mailbox_take (d : Desk step) : d.take.mailbox = d.mailbox.take.2 := by
  unfold take
  rcases d.mailbox.take with ⟨_ | ⟨ticket, _ | request⟩, m⟩ <;> rfl

theorem Rest.take (hr : Rest d n) : d.take = d := by
  obtain ⟨m, hs, r⟩ := d
  obtain rfl : m = _ := hr.mailbox
  rfl

theorem Serving.take (hserve : Serving d t) : Serving d.take t := by
  obtain ⟨m, hs, r⟩ := d
  cases hserve with
  | @queued request hm hp hi ha =>
    obtain rfl : m = _ := hm
    exact .handled rfl rfl rfl hp trivial hi ha
  | handled hm hh ht hp hw hi ha =>
    obtain rfl : m = _ := hm
    exact .handled rfl hh ht hp hw hi ha
  | freed hm hh ht hp hf hi ha =>
    obtain rfl : m = _ := hm
    exact .freed rfl hh ht hp hf hi ha
  | answered hr => exact .answered (by rwa [hr.take])

/-- Each request that was posted waits, or has one handler; nobody was sent away. -/
structure Once (d : Desk step) : Prop where
  tickets : d.handlers.map (·.ticket) ++ d.mailbox.queue.map (·.1) = List.range d.mailbox.posted
  dropped : d.mailbox.dropped = []
  accepted : d.runner.rejectedCount = 0
  admitted : ∀ h ∈ d.handlers, ∀ r i answer, h.phase = .asked r i answer → answer = .ok ()

theorem Past.admitted (hp : Past hs n) :
    ∀ h ∈ hs, ∀ r i answer, h.phase = .asked r i answer → answer = .ok () := by
  intro h hmem r i answer hphase
  rw [hp.2 h hmem] at hphase
  cases hphase

theorem Rest.once (hr : Rest d n) : d.Once := by
  have htickets : d.handlers.map (·.ticket) ++ [] = List.range n := by
    rw [List.append_nil, hr.past.1]
  constructor
  · rw [hr.mailbox]
    exact htickets
  · rw [hr.mailbox]
  · exact hr.accepted
  · exact hr.past.admitted

theorem Serving.once (hserve : Serving d t) : d.Once := by
  have hlast {before : List (Handler step)} {h : Handler step} (hq : d.mailbox.queue = [])
      (hposted : d.mailbox.posted = t + 1) (hd : d.mailbox.dropped = [])
      (hh : d.handlers = before ++ [h]) (ht : h.ticket = t) (hp : Past before t)
      (hphase : ∀ r i answer, h.phase = .asked r i answer → answer = .ok ())
      (ha : d.runner.rejectedCount = 0) : d.Once := by
    refine ⟨?_, hd, ha, fun b hb => ?_⟩
    · rw [hh, hq, hposted, List.map_append, hp.1, List.range_succ, List.map_singleton, ht]
      exact List.append_nil _
    · rw [hh] at hb
      rcases List.mem_append.mp hb with hb | hb
      · exact hp.admitted b hb
      · rwa [List.mem_singleton.mp hb]
  cases hserve with
  | queued hm hp hi ha =>
    refine ⟨?_, by rw [hm], ha, hp.admitted⟩
    rw [hm, hp.1]
    exact List.range_succ.symm
  | handled hm hh ht hp hw hi ha =>
    refine hlast (by rw [hm]) (by rw [hm]) (by rw [hm]) hh ht hp (fun r i answer hphase => ?_) ha
    rw [hphase] at hw
    exact hw
  | freed hm hh ht hp hf hi ha =>
    refine hlast (by rw [hm]) (by rw [hm]) (by rw [hm]) hh ht hp (fun r i answer hphase => ?_) ha
    rw [hf] at hphase
    cases hphase
  | answered hr => exact hr.once

/-- The worker takes the next request, and the sandbox lets it in. -/
structure Free (d : Desk step) : Prop where
  busy : d.mailbox.busy = false
  idle : d.runner.state = .idle

theorem Rest.free (hr : Rest d n) : d.Free :=
  ⟨by rw [hr.mailbox], hr.idle⟩

theorem Serving.free_of_closing (hserve : Serving d t) (hc : u ∈ d.mailbox.closing) : d.Free := by
  have hnone {m : Mailbox step.Request} (hm : d.mailbox = m) (hempty : m.closing = []) :
      u ∉ d.mailbox.closing := by
    rw [hm, hempty]
    exact List.not_mem_nil
  cases hserve with
  | queued hm => exact absurd hc (hnone hm rfl)
  | handled hm => exact absurd hc (hnone hm rfl)
  | freed hm hh ht hp hf hi ha => exact ⟨by rw [hm], hi⟩
  | answered hr => exact hr.free

end Desk

end Buildbox
