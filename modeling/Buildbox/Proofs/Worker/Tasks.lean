import Buildbox.Proofs.Worker.Relays
import Buildbox.Proofs.Worker.Services

/-! The tasks that answer a request. However they take turns, what was replied is what the run has
printed as far as the relays have got, and then what is said of its result; and there is always one
that can go on, until the handling has returned and nobody can reply any more. -/

namespace Buildbox

variable {σ β : Type} {step : Step}

namespace SandboxRun

def source (step : Step) : SandboxRun → Outbox OutputChunk
  | none | refused _ => ⟨[], 0⟩
  | ready _ | queued _ => ⟨[], StageWork.sinks step⟩
  | printing _ x n => ⟨x.chunks.take n, StageWork.sinks step⟩
  | finished _ x | released _ x => ⟨x.chunks, 0⟩

def execution? : SandboxRun → Option Execution
  | refused f => some ⟨.error f, []⟩
  | printing _ x _ | finished _ x | released _ x => some x
  | none | ready _ | queued _ => .none

def ended? : SandboxRun → Option Execution
  | refused f => some ⟨.error f, []⟩
  | released _ x => some x
  | none | ready _ | queued _ | printing _ _ _ | finished _ _ => .none

def isAsked : SandboxRun → Bool
  | none | ready _ => false
  | refused _ | queued _ | printing _ _ _ | finished _ _ | released _ _ => true

def Prepared (w : Workshop σ β) (request : step.Request) (i : Invocation) : Prop :=
  ∃ s s' : Stages σ β, s.prepare w step request = .ok i s'

inductive Outcome (w : Workshop σ β) (request : step.Request) : Execution → Prop
  | unprepared {s s' : Stages σ β} {f : Failure} (h : s.prepare w step request = .error f s') :
    Outcome w request ⟨.error f, []⟩
  | busy {r : Runner} (h : r.state = .running) : Outcome w request ⟨.error (.busy r.name), []⟩
  | ran {i : Invocation} (h : Prepared w request i) (b : β) :
    Outcome w request (w.backend step i b).1

theorem Outcome.of_acquire {w : Workshop σ β} {request : step.Request} {r : Runner} {f : Failure}
    (h : r.acquire.1 = .error f) : Outcome w request ⟨.error f, []⟩ := by
  cases hstate : r.state with
  | idle => simp [Runner.acquire, hstate] at h
  | running =>
    obtain rfl : Failure.busy r.name = f := by simpa [Runner.acquire, hstate] using h
    exact .busy hstate

inductive Origin (w : Workshop σ β) (request : step.Request) : SandboxRun → Prop
  | none : Origin w request none
  | refused {f : Failure} (h : Outcome w request ⟨.error f, []⟩) : Origin w request (refused f)
  | ready {i : Invocation} (h : Prepared w request i) : Origin w request (ready i)
  | queued {i : Invocation} (h : Prepared w request i) : Origin w request (queued i)
  | printing {i : Invocation} {x : Execution} (h : Outcome w request x) (n : Nat) :
    Origin w request (printing i x n)
  | finished {i : Invocation} {x : Execution} (h : Outcome w request x) :
    Origin w request (finished i x)
  | released {i : Invocation} {x : Execution} (h : Outcome w request x) :
    Origin w request (released i x)

def left : SandboxRun → Nat
  | none | ready _ => 4
  | queued _ => 3
  | printing _ _ _ => 2
  | finished _ _ => 1
  | refused _ | released _ _ => 0

def unprinted : SandboxRun → Nat
  | printing _ x n => x.chunks.length - n
  | _ => 0

variable {run : SandboxRun} {x : Execution}

theorem execution_of_ended (step : Step) (hx : run.ended? = some x) :
    run.execution? = some x ∧ run.source step = ⟨x.chunks, 0⟩ := by
  cases run with
  | refused | released =>
    obtain rfl := Option.some.inj hx
    exact ⟨rfl, rfl⟩
  | none | ready | queued | printing | finished => cases hx

end SandboxRun

namespace StageWork

def relayCount : Step → Nat
  | .transpile => 0
  | .compile => 2
  | .execute => 1

def Point.own : Point step → Nat
  | .fresh | .taken | .prepared | .running | .collecting _ | .judged _ => 1
  | .forwarding _ | .replying _ | .returned => 0

def Point.reply : Point step → Nat
  | .returned => 0
  | _ => 1

/-- How far the handler has come, where `said` is what it replied itself, and `ends` the sending
ends that the relays have to the stream. -/
def Reached (w : Workshop σ β) (k : StageWork step) (said : List step.Response) (ends : Nat) :
    Prop :=
  match k.point with
  | .fresh => k.run = .none ∧ k.relays = [] ∧ said = []
  | .taken => k.run = .none ∧ k.relays = forwarders step ∧ said = []
  | .prepared => (∃ i, k.run = .ready i) ∧ k.relays.length = relayCount step ∧ said = []
  | .running => k.run.isAsked ∧ k.relays.length = relayCount step ∧ said = []
  | .collecting result =>
    (∃ x, k.run.ended? = some x ∧ x.result = result) ∧ k.relays.length = relayCount step ∧
      said = []
  | .judged replies | .forwarding replies =>
    (∃ x, k.run.ended? = some x ∧
      replies = Stages.verdict w step k.request x.result x.chunks) ∧ said = []
  | .replying rest =>
    (∃ x, k.run.ended? = some x ∧
      Stages.verdict w step k.request x.result x.chunks = said ++ rest) ∧ ends = 0
  | .returned =>
    (∃ x, k.run.ended? = some x ∧
      Stages.verdict w step k.request x.result x.chunks = said) ∧ ends = 0

def stream (step : Step) (out : Outbox OutputChunk) (said : List step.Response) (own : Nat) :
    Outbox step.Response :=
  ⟨out.sent.flatMap (Stages.forwarded step) ++ said, out.senders + own⟩

structure Sound (w : Workshop σ β) (k : StageWork step) (o : Outbox step.Response) : Prop where
  origin : k.run.Origin w k.request
  flow : ∃ out said, Relay.Flow k.point.own (k.run.source step) k.relays out ∧
    o = stream step out said k.point.reply ∧ k.Reached w said out.senders

variable {w : Workshop σ β} {k : StageWork step} {o : Outbox step.Response}
  {relays : List Relay} {own : Nat} {out : Outbox OutputChunk} {sent : List OutputChunk}
  {said : List step.Response}

section Channels

theorem ne_nil_of_length (hlength : relays.length = relayCount step) (hstep : step ≠ .transpile) :
    relays ≠ [] := by
  rintro rfl
  cases step with
  | transpile => exact hstep rfl
  | compile | execute => cases hlength

theorem flow_forwarders (step : Step) :
    Relay.Flow 1 ⟨[], 0⟩ (forwarders step) ⟨[], (forwarders step).length⟩ := by
  cases step with
  | transpile => rfl
  | compile | execute => exact ⟨rfl, ⟨Nat.le_refl 0, nofun⟩, rfl⟩

theorem flow_connect (step : Step) :
    Relay.Flow 1 ⟨[], sinks step⟩ (connect step (forwarders step))
      ⟨[], (forwarders step).length⟩ := by
  cases step with
  | transpile => rfl
  | compile => exact ⟨rfl, ⟨Nat.le_refl 0, nofun⟩, rfl, ⟨Nat.le_refl 0, nofun⟩, rfl⟩
  | execute => exact ⟨rfl, ⟨Nat.le_refl 0, nofun⟩, rfl⟩

theorem length_connect (step : Step) :
    (connect step (forwarders step)).length = relayCount step := by
  cases step <;> rfl

theorem flow_dropSinks (hf : Relay.Flow own ⟨sent, sinks step⟩ relays out)
    (hlength : relays.length = relayCount step) :
    Relay.Flow own ⟨sent, 0⟩ (dropSinks step relays) out := by
  cases step with
  | transpile => rwa [dropSinks, sinks, List.replicate_zero, Relay.feed_nil]
  | compile | execute =>
    exact hf.feed [.drop, .drop] (ne_nil_of_length hlength (by decide)) (Nat.le_refl 2)

theorem flow_print (hf : Relay.Flow own ⟨sent, sinks step⟩ relays out)
    (hlength : relays.length = relayCount step) (chunk : OutputChunk) :
    ∃ out', Relay.Flow own ⟨sent ++ [chunk], sinks step⟩ (Relay.feed [.send chunk] relays) out' ∧
      ∀ said reply, stream step out' said reply = stream step out said reply := by
  cases step with
  | transpile =>
    obtain rfl := List.eq_nil_of_length_eq_zero hlength
    obtain rfl : out = _ := hf
    exact ⟨_, rfl, fun said reply => by simp [stream, Stages.forwarded]⟩
  | compile | execute =>
    exact ⟨out, hf.feed [.send chunk] (ne_nil_of_length hlength (by decide)) (Nat.le_succ 1),
      fun _ _ => rfl⟩

theorem stream_act (hs : out.senders ≠ 0) (d : Dispatch OutputChunk) (own : Nat) :
    (stream step out [] own).actAll (forward step d) = stream step (out.act d) [] own := by
  have hsenders : (stream step out [] own).senders ≠ 0 := by simp [stream, hs]
  cases d with
  | send chunk =>
    rw [forward, Outbox.actAll_send hsenders, Outbox.act_send hs]
    simp [stream]
  | clone =>
    change (stream step out [] own).act .clone = _
    unfold Outbox.act
    rw [if_neg hsenders, if_neg hs]
    simp [stream, Nat.add_right_comm]
  | drop =>
    change (stream step out [] own).act .drop = _
    rw [Outbox.act_drop, Outbox.act_drop]
    simp only [stream, Outbox.mk.injEq, true_and]
    omega

theorem stream_actAll {ds : List (Dispatch OutputChunk)} (hs : ds.length ≤ out.senders)
    (own : Nat) : (stream step out [] own).actAll (ds.flatMap (forward step)) =
      stream step (out.actAll ds) [] own := by
  induction ds generalizing out with
  | nil => rfl
  | cons d rest ih =>
    rw [List.length_cons] at hs
    rw [List.flatMap_cons, Outbox.actAll_append, stream_act (by omega) d own]
    refine ih ?_
    have hless := Outbox.senders_act out d
    omega

end Channels

section Steps

theorem Reached.said_cases {ends : Nat} (hr : k.Reached w said ends) : said = [] ∨
    ∃ x rest, k.run.ended? = some x ∧
      Stages.verdict w step k.request x.result x.chunks = said ++ rest ∧ ends = 0 := by
  unfold Reached at hr
  split at hr
  · exact .inl hr.2.2
  · exact .inl hr.2.2
  · exact .inl hr.2.2
  · exact .inl hr.2.2
  · exact .inl hr.2.2
  · exact .inl hr.2
  · exact .inl hr.2
  · next rest _ =>
    obtain ⟨⟨x, hx, hverdict⟩, hends⟩ := hr
    exact .inr ⟨x, rest, hx, hverdict, hends⟩
  · obtain ⟨⟨x, hx, hverdict⟩, hends⟩ := hr
    exact .inr ⟨x, [], hx, hverdict.trans (List.append_nil _).symm, hends⟩

theorem Reached.silent {ends : Nat} (hr : k.Reached w said ends) (hends : ends ≠ 0) :
    said = [] :=
  hr.said_cases.resolve_right fun ⟨_, _, _, _, hnone⟩ => hends hnone

theorem Reached.running {ends : Nat} (hr : k.Reached w said ends) (hasked : k.run.isAsked)
    (hgoes : k.run.ended? = none) :
    k.point = .running ∧ k.relays.length = relayCount step ∧ said = [] := by
  unfold Reached at hr
  cases hp : k.point with
  | running =>
    rw [hp] at hr
    exact ⟨rfl, hr.2⟩
  | fresh | taken =>
    rw [hp] at hr
    rw [hr.1] at hasked
    cases hasked
  | prepared =>
    rw [hp] at hr
    obtain ⟨i, hi⟩ := hr.1
    rw [hi] at hasked
    cases hasked
  | collecting | judged | forwarding | replying | returned =>
    rw [hp] at hr
    obtain ⟨x, hx, -⟩ := hr.1
    rw [hgoes] at hx
    cases hx

theorem Reached.advance {ends : Nat} (hr : k.Reached w said ends) (hends : ends ≠ 0)
    (n ends' : Nat) :
    Reached w { k with relays := (Relay.advance n k.relays).1 } said ends' := by
  have hlength := Relay.length_advance n k.relays
  unfold Reached at hr ⊢
  dsimp only
  cases hp : k.point with
  | fresh =>
    rw [hp] at hr
    obtain ⟨hrun, hrelays, hsaid⟩ := hr
    refine ⟨hrun, ?_, hsaid⟩
    rw [hrelays]
    cases n <;> rfl
  | taken =>
    rw [hp] at hr
    obtain ⟨hrun, hrelays, hsaid⟩ := hr
    refine ⟨hrun, ?_, hsaid⟩
    rw [hrelays]
    cases step <;> rcases n with _ | n <;> try rfl
    all_goals cases n <;> rfl
  | prepared | running | collecting =>
    rw [hp] at hr
    obtain ⟨hrun, hcount, hsaid⟩ := hr
    exact ⟨hrun, hlength.trans hcount, hsaid⟩
  | judged | forwarding =>
    rw [hp] at hr
    exact hr
  | replying | returned =>
    rw [hp] at hr
    exact absurd hr.2 hends

theorem sound_relay (hk : k.Sound w o) (n : Nat) :
    Sound w { k with relays := (Relay.advance n k.relays).1 }
      (o.actAll ((Relay.advance n k.relays).2.flatMap (forward step))) := by
  obtain ⟨horigin, out, said, hf, rfl, hr⟩ := hk
  by_cases hends : out.senders = 0
  · rw [hf.still hends n]
    exact ⟨horigin, out, said, hf, rfl, hr⟩
  · -- The handler replies only when the relays have let go of the stream.
    obtain rfl := hr.silent hends
    rw [stream_actAll (hf.outgoing n)]
    exact ⟨horigin, _, [], hf.advance n, rfl, hr.advance hends n _⟩

theorem sound_print (hk : k.Sound w o) (s : Stages σ β) : (k.print w s).1.Sound w o := by
  obtain ⟨horigin, out, said, hf, rfl, hr⟩ := hk
  -- A run that goes on leaves the handler where it is, and what has come out of the relays.
  have hrunning (hasked : k.run.isAsked) (hgoes : k.run.ended? = none) {run : SandboxRun}
      {relays : List Relay} (horigin' : run.Origin w k.request)
      (hf' : k.relays.length = relayCount step →
        ∃ out', Relay.Flow k.point.own (run.source step) relays out' ∧
          ∀ said reply, stream step out' said reply = stream step out said reply)
      (hlength : relays.length = k.relays.length) (hasked' : run.isAsked) :
      Sound w { k with run, relays } (stream step out said k.point.reply) := by
    obtain ⟨hp, hcount, rfl⟩ := hr.running hasked hgoes
    obtain ⟨out', hout', hsame⟩ := hf' hcount
    refine ⟨horigin', out', [], hout', (hsame _ _).symm, ?_⟩
    unfold Reached
    rw [hp]
    exact ⟨hasked', hlength.trans hcount, rfl⟩
  unfold print
  cases hrun : k.run with
  | queued i =>
    rw [hrun] at horigin hf hrunning
    cases horigin with
    | queued h =>
      exact hrunning rfl rfl (.printing (.ran h s.sandbox) 0) (fun _ => ⟨out, hf, fun _ _ => rfl⟩)
        rfl rfl
  | printing i x n =>
    rw [hrun] at horigin hf hrunning
    cases horigin with
    | printing h =>
      dsimp only
      split
      · next chunk hnext =>
        refine hrunning rfl rfl (.printing h (n + 1)) (fun hcount => ?_)
          (Relay.length_feed _ _) rfl
        obtain ⟨out', hout', hsame⟩ := flow_print hf hcount chunk
        refine ⟨out', ?_, hsame⟩
        rw [SandboxRun.source, List.take_add_one, hnext]
        exact hout'
      · next hnone =>
        refine hrunning rfl rfl (.finished h) (fun hcount => ⟨out, ?_, fun _ _ => rfl⟩)
          (Relay.length_feed _ _) rfl
        rw [SandboxRun.source, List.take_of_length_le (List.getElem?_eq_none_iff.mp hnone)] at hf
        exact flow_dropSinks hf hcount
  | finished i x =>
    rw [hrun] at horigin hf hrunning
    cases horigin with
    | finished h =>
      exact hrunning rfl rfl (.released h) (fun _ => ⟨out, hf, fun _ _ => rfl⟩) rfl rfl
  | none | refused | ready | released => exact ⟨horigin, out, said, hf, rfl, hr⟩

theorem verdict_collected {x : Execution}
    (hf : Relay.Flow own ⟨x.chunks, 0⟩ relays out) (hlength : relays.length = relayCount step)
    (hended : relays.dropLast.all (·.ended)) (w : Workshop σ β) (request : step.Request) :
    Stages.verdict w step request x.result (collected relays) =
      Stages.verdict w step request x.result x.chunks := by
  cases step with
  | transpile | execute => rfl
  | compile =>
    match relays, hlength, hf, hended with
    | [collector, forwarder], _, ⟨hchannel, hcollector, _⟩, hended =>
      have hall := (hcollector.all (by simpa using hended)).1
      have hsame : collected [collector, forwarder] = x.chunks := by
        change collector.output.sent = x.chunks
        rw [hall, hchannel]
        rfl
      rw [hsame]

theorem sound_handle_taken (hk : k.Sound w o) (hp : k.point = .taken) (s : Stages σ β) :
    Sound w (k.handle w s).1 (o.actAll (k.handle w s).2.1) := by
  obtain ⟨-, out, said, hf, rfl, hr⟩ := hk
  rw [Reached, hp] at hr
  rw [hp] at hf ⊢
  obtain ⟨hrun, hrelays, rfl⟩ := hr
  rw [hrun, hrelays] at hf
  obtain rfl := hf.unique (flow_forwarders step)
  rw [handle, hp]
  dsimp only
  split
  · next i s' h =>
    rw [hrelays]
    exact ⟨.ready ⟨s, s', h⟩, _, [], flow_connect step, rfl, ⟨i, rfl⟩, length_connect step, rfl⟩
  · next f s' h =>
    exact ⟨.refused (.unprepared h), _, [], hrelays ▸ flow_forwarders step, rfl, ⟨_, rfl, rfl⟩,
      rfl⟩

theorem sound_handle_prepared (hk : k.Sound w o) (hp : k.point = .prepared) (s : Stages σ β) :
    Sound w (k.handle w s).1 (o.actAll (k.handle w s).2.1) := by
  obtain ⟨horigin, out, said, hf, rfl, hr⟩ := hk
  rw [Reached, hp] at hr
  rw [hp] at hf ⊢
  obtain ⟨⟨i, hi⟩, hcount, rfl⟩ := hr
  rw [hi] at hf horigin
  rw [handle, hp, hi]
  dsimp only
  cases horigin with
  | ready h =>
    split
    · exact ⟨.queued h, out, [], hf, rfl, rfl, hcount, rfl⟩
    · next f s' hacquire =>
      exact ⟨.refused (.of_acquire (congrArg Prod.fst hacquire)), out, [],
        flow_dropSinks hf hcount, rfl, rfl, (Relay.length_feed _ _).trans hcount, rfl⟩

theorem sound_handle_running (hk : k.Sound w o) (hp : k.point = .running) (s : Stages σ β) :
    Sound w (k.handle w s).1 (o.actAll (k.handle w s).2.1) := by
  have hsame : Sound w k (o.actAll []) := hk
  obtain ⟨horigin, out, said, hf, rfl, hr⟩ := hk
  rw [Reached, hp] at hr
  rw [hp] at hf
  obtain ⟨hasked, hcount, rfl⟩ := hr
  have hheard {x : Execution} (hx : k.run.ended? = some x) :
      Sound w { k with point := .collecting x.result } (stream step out [] k.point.reply) := by
    rw [hp]
    exact ⟨horigin, out, [], hf, rfl, ⟨x, hx, rfl⟩, hcount, rfl⟩
  rw [handle, hp]
  dsimp only
  split
  · next f hrun => exact hp ▸ hheard (x := ⟨.error f, []⟩) (by rw [hrun]; rfl)
  · next x hrun => exact hp ▸ hheard (x := x) (by rw [hrun]; rfl)
  · exact hp ▸ hsame

theorem sound_handle_collecting {result : Except Failure RunReport} (hk : k.Sound w o)
    (hp : k.point = .collecting result) (s : Stages σ β) :
    Sound w (k.handle w s).1 (o.actAll (k.handle w s).2.1) := by
  have hsame : Sound w k (o.actAll []) := hk
  obtain ⟨horigin, out, said, hf, rfl, hr⟩ := hk
  rw [Reached, hp] at hr
  rw [hp] at hf
  obtain ⟨⟨x, hx, rfl⟩, hcount, rfl⟩ := hr
  have hsource := (SandboxRun.execution_of_ended step hx).2
  rw [handle, hp]
  dsimp only
  split
  · next hended =>
    rw [hsource] at hf
    refine ⟨horigin, out, [], ?_, rfl, ⟨x, hx, ?_⟩, rfl⟩
    · rw [hsource]
      exact hf
    · exact verdict_collected hf hcount hended w k.request
  · exact hp ▸ hsame

theorem sound_handle_forwarding {replies : List step.Response} (hk : k.Sound w o)
    (hp : k.point = .forwarding replies) (s : Stages σ β) :
    Sound w (k.handle w s).1 (o.actAll (k.handle w s).2.1) := by
  have hsame : Sound w k (o.actAll []) := hk
  obtain ⟨horigin, out, said, hf, rfl, hr⟩ := hk
  rw [Reached, hp] at hr
  rw [hp] at hf
  obtain ⟨⟨x, hx, hreplies⟩, rfl⟩ := hr
  rw [handle, hp]
  dsimp only
  split
  · next hended =>
    have hnone : out.senders = 0 := hf.finished hended fun _ => by
      rw [(SandboxRun.execution_of_ended step hx).2]
    exact ⟨horigin, out, [], hf, rfl, ⟨x, hx, hreplies.symm⟩, hnone⟩
  · exact hp ▸ hsame

theorem sound_handle_replying {replies : List step.Response} (hk : k.Sound w o)
    (hp : k.point = .replying replies) (s : Stages σ β) :
    Sound w (k.handle w s).1 (o.actAll (k.handle w s).2.1) := by
  obtain ⟨horigin, out, said, hf, rfl, hr⟩ := hk
  rw [Reached, hp] at hr
  rw [hp] at hf
  obtain ⟨⟨x, hx, hreplies⟩, hnone⟩ := hr
  rw [handle, hp]
  cases replies with
  | nil =>
    rw [List.append_nil] at hreplies
    refine ⟨horigin, out, said, hf, ?_, ⟨x, hx, hreplies⟩, hnone⟩
    simp [stream, Point.reply, Outbox.actAll, Outbox.act]
  | cons reply rest =>
    rw [List.append_cons] at hreplies
    refine ⟨horigin, out, said ++ [reply], hf, ?_, ⟨x, hx, hreplies⟩, hnone⟩
    simp [stream, Point.reply, Outbox.actAll, Outbox.act]

theorem sound_handle (hk : k.Sound w o) (s : Stages σ β) :
    Sound w (k.handle w s).1 (o.actAll (k.handle w s).2.1) := by
  cases hp : k.point with
  | fresh =>
    obtain ⟨horigin, out, said, hf, rfl, hr⟩ := hk
    rw [Reached, hp] at hr
    obtain ⟨hrun, hrelays, rfl⟩ := hr
    rw [hrun, hrelays] at hf
    obtain rfl : out = ⟨[], 0⟩ := hf
    rw [handle, hp]
    refine ⟨horigin, ⟨[], (forwarders step).length⟩, [], ?_, ?_, hrun, rfl, rfl⟩
    · dsimp only
      rw [hrun]
      exact flow_forwarders step
    · cases step <;> rfl
  | taken => exact sound_handle_taken hk hp s
  | prepared => exact sound_handle_prepared hk hp s
  | running => exact sound_handle_running hk hp s
  | collecting result => exact sound_handle_collecting hk hp s
  | judged replies =>
    obtain ⟨horigin, out, said, hf, rfl, hr⟩ := hk
    rw [Reached, hp] at hr
    rw [hp] at hf
    obtain ⟨hverdict, rfl⟩ := hr
    rw [handle, hp]
    exact ⟨horigin, out, [], hf.hangUp, rfl, hverdict, rfl⟩
  | forwarding replies => exact sound_handle_forwarding hk hp s
  | replying replies => exact sound_handle_replying hk hp s
  | returned =>
    rw [handle, hp]
    exact hk

end Steps

section Progress

def Point.left : Point step → Nat
  | .fresh => 8
  | .taken => 7
  | .prepared => 6
  | .running => 5
  | .collecting _ => 4
  | .judged _ => 3
  | .forwarding _ => 2
  | .replying _ => 1
  | .returned => 0

def Point.unsaid : Point step → Nat
  | .replying replies => replies.length
  | _ => 0

def left (k : StageWork step) : Amount :=
  (10 * k.point.left + k.run.left + (Relay.left k.relays).1,
    k.run.unprinted * (k.relays.length + 1) + (Relay.left k.relays).2 + k.point.unsaid)

def waits (k : StageWork step) : Bool :=
  match k.point with
  | .prepared => !(k.run matches .ready _)
  | .running => k.run.ended?.isNone
  | .collecting _ => !k.relays.dropLast.all (·.ended)
  | .forwarding _ => !k.relays.getLast?.all (·.ended)
  | .returned => true
  | _ => false

theorem SandboxRun.left_le (run : SandboxRun) : run.left ≤ 4 := by
  cases run <;> simp [SandboxRun.left]

theorem less_of_point {k' : StageWork step} (hpoint : k'.point.left < k.point.left)
    (hrelays : (Relay.left k'.relays).1 ≤ (Relay.left k.relays).1 + 1) :
    Amount.Less k'.left k.left := by
  refine .left _ _ ?_
  have hrun := SandboxRun.left_le k'.run
  omega

theorem running_connect (step : Step) (relays : List Relay) :
    (Relay.left (connect step relays)).1 ≤ (Relay.left relays).1 + 1 := by
  cases step <;> simp [connect, Relay.left, Relay.countP_feed]

theorem handle_cases (w : Workshop σ β) (k : StageWork step) (s : Stages σ β) :
    k.waits = true ∧ k.handle w s = (k, [], s) ∨
      k.waits = false ∧ Amount.Less (k.handle w s).1.left k.left := by
  unfold waits handle
  cases hp : k.point with
  | fresh =>
    refine .inr ⟨rfl, less_of_point (by simp [hp, Point.left]) ?_⟩
    cases step <;> simp [forwarders, Relay.left]
  | taken =>
    refine .inr ⟨rfl, ?_⟩
    dsimp only
    split
    · exact less_of_point (by simp [hp, Point.left]) (running_connect step k.relays)
    · refine less_of_point (by simp [hp, Point.left]) (Nat.le_succ _)
  | prepared =>
    dsimp only
    cases k.run with
    | ready i =>
      refine .inr ⟨rfl, ?_⟩
      dsimp only
      split
      · exact less_of_point (by simp [hp, Point.left]) (Nat.le_succ _)
      · refine less_of_point (by simp [hp, Point.left]) ?_
        simp [dropSinks, Relay.left, Relay.countP_feed]
    | none | refused | queued | printing | finished | released => exact .inl ⟨rfl, rfl⟩
  | running =>
    dsimp only
    cases hrun : k.run with
    | refused | released =>
      exact .inr ⟨rfl, less_of_point (by simp [hp, Point.left]) (Nat.le_succ _)⟩
    | none | ready | queued | printing | finished => exact .inl ⟨rfl, rfl⟩
  | collecting result =>
    dsimp only
    cases hended : k.relays.dropLast.all (·.ended) with
    | true => exact .inr ⟨rfl, less_of_point (by simp [hp, Point.left]) (Nat.le_succ _)⟩
    | false => exact .inl ⟨rfl, rfl⟩
  | judged replies =>
    refine .inr ⟨rfl, less_of_point (by simp [hp, Point.left]) ?_⟩
    simp [Relay.left, Relay.countP_hangUp]
  | forwarding replies =>
    dsimp only
    cases hended : k.relays.getLast?.all (·.ended) with
    | true => exact .inr ⟨rfl, less_of_point (by simp [hp, Point.left]) (Nat.le_succ _)⟩
    | false => exact .inl ⟨rfl, rfl⟩
  | replying replies =>
    refine .inr ⟨rfl, ?_⟩
    cases replies with
    | nil => exact less_of_point (by simp [hp, Point.left]) (Nat.le_succ _)
    | cons reply rest =>
      rw [Amount.less_iff]
      simp [left, hp, Point.left, Point.unsaid]
  | returned => exact .inl ⟨rfl, rfl⟩

theorem print_cases (w : Workshop σ β) (k : StageWork step) (s : Stages σ β) :
    (k.run.isAsked = false ∨ k.run.ended?.isSome) ∧ k.print w s = (k, s) ∨
      Amount.Less (k.print w s).1.left k.left := by
  unfold print
  cases hrun : k.run with
  | none | ready => exact .inl ⟨.inl rfl, rfl⟩
  | refused | released => exact .inl ⟨.inr rfl, rfl⟩
  | queued i =>
    refine .inr (.left _ _ ?_)
    simp [hrun, SandboxRun.left]
  | finished i x =>
    refine .inr (.left _ _ ?_)
    simp [hrun, SandboxRun.left]
  | printing i x n =>
    dsimp only
    split
    · next chunk hnext =>
      right
      have hlt := (List.getElem?_eq_some_iff.mp hnext).1
      have hone : x.chunks.length - n = x.chunks.length - (n + 1) + 1 := by omega
      have hload := Relay.load_send chunk k.relays
      rw [Amount.less_iff]
      right
      simp only [left, hrun, Relay.left, SandboxRun.left, Relay.countP_feed,
        SandboxRun.unprinted, Relay.length_feed, true_and]
      rw [hone, Nat.add_mul, Nat.one_mul]
      omega
    · refine .inr (.left _ _ ?_)
      simp [hrun, SandboxRun.left, dropSinks, Relay.left, Relay.countP_feed]

theorem sound_start (w : Workshop σ β) (request : step.Request) :
    Sound w ({ request } : StageWork step) {} :=
  ⟨.none, ⟨[], 0⟩, [], rfl, rfl, rfl, rfl, rfl⟩

theorem sound_go (hk : k.Sound w o) (task : Task) (s : Stages σ β) :
    (go w task k s).1.Sound w (o.actAll (go w task k s).2.1) := by
  cases task with
  | handler => exact sound_handle hk s
  | sandbox => exact sound_print hk s
  | relay n => exact sound_relay hk n

theorem less_relay {n : Nat}
    (hless : Amount.Less (Relay.left (Relay.advance n k.relays).1) (Relay.left k.relays))
    (w : Workshop σ β) (s : Stages σ β) : Amount.Less (go w (.relay n) k s).1.left k.left := by
  have hlength := Relay.length_advance n k.relays
  rw [Amount.less_iff] at hless ⊢
  simp only [left, go, hlength]
  omega

theorem less_go (w : Workshop σ β) (task : Task) (k : StageWork step) (s : Stages σ β) :
    (go w task k s).1 = k ∧ (go w task k s).2.1 = [] ∨
      Amount.Less (go w task k s).1.left k.left := by
  cases task with
  | handler =>
    rcases handle_cases w k s with ⟨-, hsame⟩ | ⟨-, hless⟩
    · left
      change (k.handle w s).1 = k ∧ (k.handle w s).2.1 = []
      rw [hsame]
      exact ⟨rfl, rfl⟩
    · exact .inr hless
  | sandbox =>
    rcases print_cases w k s with ⟨-, hsame⟩ | hless
    · exact .inl ⟨congrArg Prod.fst hsame, rfl⟩
    · exact .inr hless
  | relay n =>
    rcases Relay.left_advance n k.relays with hsame | hless
    · left
      simp only [go, hsame]
      exact ⟨trivial, rfl⟩
    · exact .inr (less_relay hless w s)

theorem still_of_returned (hk : k.Sound w o) (hreturned : k.point = .returned) (task : Task)
    (s : Stages σ β) : (go w task k s).1 = k ∧ (go w task k s).2.1 = [] := by
  obtain ⟨-, out, said, hf, -, hr⟩ := hk
  rw [Reached, hreturned] at hr
  obtain ⟨⟨x, hx, -⟩, hnone⟩ := hr
  cases task with
  | handler =>
    change (k.handle w s).1 = k ∧ (k.handle w s).2.1 = []
    rw [handle, hreturned]
    exact ⟨rfl, rfl⟩
  | sandbox =>
    refine ⟨?_, rfl⟩
    change (k.print w s).1 = k
    unfold print
    cases hrun : k.run with
    | refused | released => rfl
    | none | ready | queued | printing | finished => simp [hrun, SandboxRun.ended?] at hx
  | relay n =>
    simp only [go, hf.still hnone n]
    exact ⟨trivial, rfl⟩

def CanGo (w : Workshop σ β) (k : StageWork step) : Prop :=
  ∃ task, ∀ s : Stages σ β, Amount.Less (go w task k s).1.left k.left

theorem canGo_handler (hgoes : k.waits = false) (w : Workshop σ β) : k.CanGo w := by
  refine ⟨.handler, fun s => ?_⟩
  rcases handle_cases w k s with ⟨hwaits, -⟩ | ⟨-, hless⟩
  · rw [hgoes] at hwaits
    cases hwaits
  · exact hless

theorem canGo_sandbox (hasked : k.run.isAsked) (hx : k.run.ended? = none) (w : Workshop σ β) :
    k.CanGo w := by
  refine ⟨.sandbox, fun s => ?_⟩
  rcases print_cases w k s with ⟨hidle | hidle, -⟩ | hless
  · rw [hasked] at hidle
    cases hidle
  · rw [hx] at hidle
    cases hidle
  · exact hless

theorem canGo_relay {x : Execution} (hx : k.run.ended? = some x)
    (hf : Relay.Flow k.point.own (k.run.source step) k.relays out)
    (hopen : k.relays.dropLast.all (·.ended) = false ∨
      k.point.own = 0 ∧ k.relays.getLast?.all (·.ended) = false) (w : Workshop σ β) :
    k.CanGo w := by
  have hsource : (k.run.source step).senders = 0 := by
    rw [(SandboxRun.execution_of_ended step hx).2]
  obtain ⟨n, hless⟩ := hf.due hsource hopen
  exact ⟨.relay n, less_relay hless w⟩

theorem due (hk : k.Sound w o) : (k.point = .returned ∧ o.senders = 0) ∨ k.CanGo w := by
  obtain ⟨-, out, said, hf, rfl, hr⟩ := hk
  unfold Reached at hr
  cases hp : k.point with
  | fresh | taken | judged | replying => exact .inr (canGo_handler (by simp [waits, hp]) w)
  | prepared =>
    rw [hp] at hr
    obtain ⟨⟨i, hi⟩, -⟩ := hr
    exact .inr (canGo_handler (by simp [waits, hp, hi]) w)
  | running =>
    rw [hp] at hr
    cases hx : k.run.ended? with
    | some x => exact .inr (canGo_handler (by simp [waits, hp, hx]) w)
    | none => exact .inr (canGo_sandbox hr.1 hx w)
  | collecting result =>
    rw [hp] at hr
    obtain ⟨⟨x, hx, -⟩, -⟩ := hr
    cases hended : k.relays.dropLast.all (·.ended) with
    | true => exact .inr (canGo_handler (by simp only [waits, hp, hended, Bool.not_true]) w)
    | false => exact .inr (canGo_relay hx hf (.inl hended) w)
  | forwarding replies =>
    rw [hp] at hr
    obtain ⟨⟨x, hx, -⟩, -⟩ := hr
    cases hended : k.relays.getLast?.all (·.ended) with
    | true => exact .inr (canGo_handler (by simp only [waits, hp, hended, Bool.not_true]) w)
    | false => exact .inr (canGo_relay hx hf (.inr ⟨by rw [hp]; rfl, hended⟩) w)
  | returned =>
    rw [hp] at hr
    refine .inl ⟨rfl, ?_⟩
    simp [stream, Point.reply, hr.2]

end Progress

end StageWork

theorem Stages.returned_iff {w : Workshop σ β} {k : StageWork step} :
    (service w step).returned k = true ↔ k.point = .returned := by
  cases hp : k.point <;> simp [service, hp]

theorem Stages.service_ends (w : Workshop σ β) (step : Step) :
    (Stages.service w step).Ends (StageWork.Sound w) StageWork.left where
  start := StageWork.sound_start w
  go task _ _ s hk := StageWork.sound_go hk task s
  still task _ _ s hk hreturned :=
    StageWork.still_of_returned hk (Stages.returned_iff.mp hreturned) task s
  less task k _ s _ := StageWork.less_go w task k s
  due hk := (StageWork.due hk).imp_left fun ⟨hp, hsenders⟩ =>
    ⟨Stages.returned_iff.mpr hp, hsenders⟩

end Buildbox
