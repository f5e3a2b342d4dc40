import Buildbox.Proofs.Lists
import Buildbox.Proofs.Pipeline.Closing
import Buildbox.Proofs.Pipeline.Reporting

/-! Who is let in. A run is in its span from when it was let in until its driver lets the next
one in, and the events that end it are said after that. -/

namespace Buildbox

namespace Course

open Dialogue (Runs)

theorem not_ends_of_run {ext : String} {files : NameMap String} {xs : List Exchange}
    {es last : List PipelineEvent} (h : (run ext files).Runs xs es last) :
    ∀ e ∈ es, ends e = false := by
  obtain ⟨xs₁, es₁, derived, _, _, htranspile, h, rfl, rfl⟩ := h.bind
  have ht := (transpileAll_phase htranspile).not_ends
  cases derived with
  | none =>
    obtain ⟨-, rfl, -⟩ := h.pure
    rwa [List.append_nil]
  | some files' =>
    obtain ⟨xs₂, es₂, build, _, _, hcompile, h, rfl, rfl⟩ := h.bind
    obtain ⟨answer, -, hphase⟩ := compile_phase hcompile
    have hc := hphase.not_ends
    rcases build with _ | bytes | _
    · obtain ⟨-, rfl, -⟩ := h.pure
      simpa only [List.append_nil, List.forall_mem_append] using ⟨ht, hc⟩
    · obtain ⟨_, _, _, _, _, hexecute, hend, rfl, rfl⟩ := h.bind
      obtain ⟨answer', -, hran⟩ := execute_phase hexecute
      obtain ⟨-, rfl, -⟩ := hend.pure
      simpa only [List.append_nil, List.forall_mem_append] using ⟨ht, hc, hran.not_ends⟩
    · obtain ⟨-, rfl, -⟩ := h.pure
      simpa only [List.append_nil, List.forall_mem_append] using ⟨ht, hc⟩

end Course

theorem Dialogue.exists_runs {α : Type} (d : Dialogue α) : ∃ xs es a, d.Runs xs es a :=
  let silent : Crew Unit :=
    { transpile := fun _ s => (.ok [], s)
      compile := fun _ s => (.ok [], s)
      execute := fun _ s => (.ok [], s) }
  ⟨_, _, _, runs_hold silent d ()⟩

theorem Driver.Follows.not_ends {d : Driver} {ext : String} {files : NameMap String}
    (h : d.Follows (Course.run ext files)) (hd : ¬ d.turn.Left) :
    ∀ e ∈ d.said, Course.ends e = false := by
  obtain ⟨said, turn⟩ := d
  cases turn with
  | speaking rest =>
    obtain ⟨xs, es, last, hruns⟩ := rest.exists_runs
    obtain ⟨ys, hys⟩ := h xs es last hruns
    exact fun e he => Course.not_ends_of_run hys e (List.mem_append_left _ he)
  | waiting step t next =>
    obtain ⟨xs, es, last, hruns⟩ := (next (.ok [])).exists_runs
    obtain ⟨ys, hys⟩ := h _ xs es last hruns
    exact fun e he => Course.not_ends_of_run hys e (List.mem_append_left _ he)
  | parting rest => exact absurd trivial hd
  | gone => exact absurd trivial hd

theorem Driver.Tracks.said_le {σ β : Type} {w : Workshop σ β} {f : Floor σ β}
    {c : Dialogue (List PipelineEvent)} {s₀ : Stages σ β} {log : List Letter} {d : Driver}
    (ht : d.Tracks w c s₀ f log) :
    d.said <+: (c.hold (Stages.crew w) s₀).1.1 ++ (c.hold (Stages.crew w) s₀).1.2 := by
  obtain ⟨said, turn⟩ := d
  cases turn with
  | speaking e =>
    rw [← Reached.events ht, List.append_assoc]
    exact List.prefix_append ..
  | waiting step t next =>
    obtain ⟨letters, replies, s, -, hr⟩ := ht
    rw [← hr.events, List.append_assoc]
    exact List.prefix_append ..
  | parting rest => exact ⟨rest, ht.2⟩
  | gone => exact ht.2 ▸ List.prefix_rfl

namespace Floor

variable {σ β : Type} {w : Workshop σ β} {f : Floor σ β} {d : Driver} {run other : Nat}
  {files : NameMap String}

/-- The run was let in, and has not let the next one in. -/
def InSpan (f : Floor σ β) (run : Nat) : Prop :=
  ∃ d, f.drivers[run]? = some d ∧ ¬ d.turn.Left

/-- The run was let in, and has let the next one in. -/
def PastSpan (f : Floor σ β) (run : Nat) : Prop :=
  ∃ d, f.drivers[run]? = some d ∧ d.turn.Left

def SaysEnd (f : Floor σ β) (run : Nat) : Prop :=
  ∃ d, f.drivers[run]? = some d ∧ ∃ e ∈ d.said, Course.ends e

theorem saysEnd_iff :
    f.SaysEnd run ↔ f.drivers[run]?.any (·.said.any Course.ends) = true := by
  unfold SaysEnd
  cases f.drivers[run]? <;> simp

section Spans

theorem Orderly.inFlight_iff (ho : f.Orderly) :
    f.pipeline.inFlight = true ↔ ∃ run, f.InSpan run := by
  constructor
  · intro hflight
    cases ho with
    | free hf => exact absurd (hf.symm.trans hflight) Bool.false_ne_true
    | speaking _ hd => exact ⟨_, _, getElem?_last hd, not_false⟩
    | waiting _ hd => exact ⟨_, _, getElem?_last hd, not_false⟩
  · rintro ⟨run, d, hrun, hd⟩
    rw [← Bool.not_eq_false]
    exact fun hfree => hd (ho.left_of_free hfree hrun)

theorem Orderly.span_unique (ho : f.Orderly) (hrun : f.InSpan run) (hother : f.InSpan other) :
    run = other := by
  obtain ⟨d, hd, hleft⟩ := hrun
  obtain ⟨b, hb, hleft'⟩ := hother
  exact Classical.byContradiction fun hne => hleft' (ho.left_of_ne hb hd hne hleft)

theorem Orderly.le_of_span (ho : f.Orderly) (hspan : f.InSpan run)
    (hother : other < f.drivers.length) : other ≤ run := by
  obtain ⟨d, hrun, hleft⟩ := hspan
  have hlast {before : List Driver} {e : Driver} (hd : f.drivers = before ++ [e])
      (hb : ∀ b ∈ before, b.turn.Left) : other ≤ run := by
    rw [hd] at hrun hother
    obtain ⟨rfl, -⟩ := last_of_not_left hb hrun hleft
    rw [List.length_append] at hother
    exact Nat.le_of_lt_succ hother
  cases ho with
  | free _ hd => exact absurd (hd d (List.mem_of_getElem? hrun)) hleft
  | speaking _ hd hb => exact hlast hd hb
  | waiting _ hd hb => exact hlast hd hb

theorem not_span_of_past (h : f.PastSpan run) : ¬ f.InSpan run := by
  rintro ⟨b, hb, hspan⟩
  obtain ⟨d, hd, hleft⟩ := h
  obtain rfl := Option.some.inj (hd.symm.trans hb)
  exact hspan hleft

theorem Orderly.past_of_free (ho : f.Orderly) (hfree : f.pipeline.inFlight = false)
    (hrun : run < f.drivers.length) : f.PastSpan run :=
  have hd := List.getElem?_eq_getElem hrun
  ⟨_, hd, ho.left_of_free hfree hd⟩

theorem admits_iff (f : Floor σ β) :
    f.pipeline.admitRun.1 = false ↔ f.pipeline.inFlight = true := by
  unfold Pipeline.admitRun
  cases f.pipeline.inFlight <;> simp

theorem ask_of_free (hfree : f.pipeline.inFlight = false) (w : Workshop σ β)
    (files : NameMap String) :
    f.ask w files = { f with
      pipeline := f.pipeline.admitRun.2
      drivers := f.drivers ++
        [⟨[], .speaking (Course.run w.config.transpile.sourceExt files)⟩] } := by
  unfold ask Pipeline.admitRun
  rw [hfree]
  rfl

theorem span_ask (hfree : f.pipeline.inFlight = false) (w : Workshop σ β)
    (files : NameMap String) : (f.ask w files).InSpan f.drivers.length := by
  rw [ask_of_free hfree]
  exact ⟨_, getElem?_last rfl, not_false⟩

end Spans

section Leaving

variable {turn : Turn}

theorem left_go (hrun : f.drivers[run]? = some d) (hd : d.turn.Left) :
    ∃ d', (f.go run d).drivers[run]? = some d' ∧ d'.turn.Left ∧
      (d.turn = .gone → d' = d) := by
  obtain ⟨said, turn⟩ := d
  cases turn with
  | speaking e => exact hd.elim
  | waiting step t next => exact hd.elim
  | parting last =>
    cases last with
    | nil => exact ⟨_, get_withDriver hrun _, trivial, fun heq => by cases heq⟩
    | cons event rest => exact ⟨_, get_withDriver hrun _, trivial, fun heq => by cases heq⟩
  | gone => exact ⟨_, hrun, trivial, fun _ => rfl⟩

theorem left_act (hrun : f.drivers[run]? = some d) (hd : d.turn.Left) (w : Workshop σ β)
    (action : Action) :
    ∃ d', (f.act w action).drivers[run]? = some d' ∧ d'.turn.Left ∧
      (d.turn = .gone → d' = d) := by
  by_cases hturn : action = .advance run
  · subst hturn
    change ∃ d', (f.advance run).drivers[run]? = some d' ∧ _
    rw [advance_of_get hrun]
    exact left_go hrun hd
  · exact ⟨d, get_act_of_ne hrun hturn w, hd, fun _ => rfl⟩

theorem left_actAll (hrun : f.drivers[run]? = some d) (hd : d.turn.Left) (w : Workshop σ β)
    (actions : List Action) :
    ∃ d', (f.actAll w actions).drivers[run]? = some d' ∧ d'.turn.Left ∧
      (d.turn = .gone → d' = d) := by
  induction actions generalizing f d with
  | nil => exact ⟨d, hrun, hd, fun _ => rfl⟩
  | cons action rest ih =>
    obtain ⟨b, hb, hleft, hsame⟩ := left_act hrun hd w action
    obtain ⟨d', hd', hleft', hsame'⟩ := ih hb hleft
    refine ⟨d', hd', hleft', fun hgone => ?_⟩
    obtain rfl := hsame hgone
    exact hsame' hgone

end Leaving

section Entering

theorem length_go (f : Floor σ β) (run : Nat) (d : Driver) :
    (f.go run d).drivers.length = f.drivers.length := by
  have hset (g : Floor σ β) (d' : Driver) :
      (g.withDriver run d').drivers.length = g.drivers.length := List.length_set
  obtain ⟨said, turn⟩ := d
  cases turn with
  | speaking e =>
    cases e with
    | done last => exact hset _ _
    | report event next => exact hset _ _
    | transpile r next => exact hset _ _
    | compile r next => exact hset _ _
    | execute r next => exact hset _ _
  | waiting step t next =>
    unfold go
    dsimp only
    cases f.replies? step t with
    | none => rfl
    | some replies => exact hset _ _
  | parting last => cases last <;> exact hset _ _
  | gone => rfl

theorem length_act (f : Floor σ β) (w : Workshop σ β) (action : Action) :
    (f.act w action).drivers.length = f.drivers.length ∨
      ∃ files, action = .ask files ∧ f.pipeline.inFlight = false ∧
        (f.act w action).drivers.length = f.drivers.length + 1 := by
  cases action with
  | ask files =>
    change (f.ask w files).drivers.length = _ ∨ ∃ files', _ ∧ _ ∧ (f.ask w files).drivers.length = _
    cases hflight : f.pipeline.inFlight with
    | true => exact .inl (by rw [ask_of_inFlight hflight])
    | false => exact .inr ⟨files, rfl, rfl, by simp [ask_of_free hflight]⟩
  | advance run =>
    refine .inl ?_
    change (f.advance run).drivers.length = _
    cases hrun : f.drivers[run]? with
    | none => rw [advance_of_none hrun]
    | some d => rw [advance_of_get hrun, length_go]
  | take step => exact .inl (congrArg _ (drivers_take f step))
  | work step ticket => exact .inl (congrArg _ (drivers_work w ticket f step))

theorem exists_ask {actions : List Action} (hlater : f.drivers.length ≤ run)
    (hrun : run < (f.actAll w actions).drivers.length) :
    ∃ before files after, actions = before ++ .ask files :: after ∧
      (f.actAll w before).pipeline.inFlight = false ∧
      (f.actAll w before).drivers.length = run := by
  obtain ⟨before, action, after, rfl, hno, hyes⟩ :=
    exists_turn (p := fun g : Floor σ β => run < g.drivers.length) (Nat.not_lt.mpr hlater) hrun
  change ¬ run < (f.actAll w before).drivers.length at hno
  change run < ((f.actAll w before).act w action).drivers.length at hyes
  rcases (f.actAll w before).length_act w action with hsame | ⟨files, rfl, hfree, hmore⟩
  · omega
  · exact ⟨before, files, after, rfl, hfree, by omega⟩

end Entering

section Streams

theorem past_of_saysEnd {toolchain : Toolchain σ} {sandbox : β} {actions : List Action}
    (h : ((start toolchain sandbox).actAll w actions).SaysEnd run) :
    ((start toolchain sandbox).actAll w actions).PastSpan run := by
  obtain ⟨d, hd, e, he, hend⟩ := h
  have hstart : AllFollow w (start toolchain sandbox) [] := fun _ hd => absurd hd List.not_mem_nil
  obtain ⟨files, -, hfollows⟩ := allFollow_actAll hstart actions d (List.mem_of_getElem? hd)
  refine ⟨d, hd, Classical.byContradiction fun hleft => ?_⟩
  rw [hfollows.not_ends hleft e he] at hend
  cases hend

theorem said_of_ask {toolchain : Toolchain σ} {sandbox : β} {before : List Action}
    (hf : f = (start toolchain sandbox).actAll w before) (hfree : f.pipeline.inFlight = false)
    (files : NameMap String) (after : List Action) :
    let out := f.pipeline.admitRun.2.drive w files
    ∃ d, ((f.ask w files).actAll w after).drivers[f.drivers.length]? = some d ∧
      d.said <+: out.1 ∧ (d.turn = .gone → d.said = out.1) := by
  intro out
  have ho : f.Orderly := hf ▸ orderly_actAll (orderly_start toolchain sandbox) w before
  let c := Course.run w.config.transpile.sourceExt files
  let whole := (c.hold (Stages.crew w) f.pipeline.stages).1
  -- Driven alone, the run says the same whole.
  have hwhole : whole.1 ++ whole.2 = out.1 := by
    subst hf
    obtain ⟨more, -, hdrivers⟩ := exists_actAll_eq_drive w toolchain sandbox before files hfree
    obtain ⟨b, hb, htracks⟩ := tracks_run ho hfree w files more
    have hb' : b = ⟨out.1, .gone⟩ := by
      have hlast := getElem?_last hdrivers
      exact Option.some.inj (hb.symm.trans hlast)
    subst hb'
    exact (htracks.said_of_gone rfl).symm
  obtain ⟨d, hd, htracks⟩ := tracks_run ho hfree w files after
  refine ⟨d, hd, ?_, fun hgone => (htracks.said_of_gone hgone).trans hwhole⟩
  rw [← hwhole]
  exact htracks.said_le

end Streams

/-- Whoever asks for runs, and however the tasks go on: a run is refused exactly while another one
is in its span, and then nothing is started; no two runs are in their spans together. What ends a
run is said after its span, so whoever has heard of it is let in, unless another run was let in
since the span. A run says what it would say alone, and if no task is passed over for ever, its
stream closes. -/
theorem runs_let_in_one_by_one (w : Workshop σ β) (toolchain : Toolchain σ) (sandbox : β)
    (actions : List Action) :
    let s := start toolchain sandbox
    let f := s.actAll w actions
    (f.pipeline.inFlight = true ↔ ∃ run, f.InSpan run) ∧
    (∀ run other, f.InSpan run → f.InSpan other → run = other) ∧
    (∀ files, (f.pipeline.admitRun.1 = false ↔ ∃ run, f.InSpan run) ∧
      (f.pipeline.admitRun.1 = false → f.ask w files = f)) ∧
    (∀ run, f.SaysEnd run → f.PastSpan run) ∧
    (∀ run more, f.SaysEnd run → (f.actAll w more).pipeline.admitRun.1 = false →
      ∃ before files after, actions ++ more = before ++ .ask files :: after ∧
        let moment := s.actAll w before
        moment.pipeline.admitRun.1 = true ∧ moment.PastSpan run) ∧
    ∀ files after, f.pipeline.admitRun.1 = true →
      let run := f.drivers.length
      let out := f.pipeline.admitRun.2.drive w files
      let g := (f.ask w files).actAll w after
      (f.ask w files).InSpan run ∧
      (∃ d, g.drivers[run]? = some d ∧ d.said <+: out.1 ∧
        (d.turn = .gone → d.said = out.1 ∧
          ∀ more, (g.actAll w more).drivers[run]? = some d)) ∧
      ∀ schedule, FairToAll schedule → ∃ n d,
        (g.along w schedule n).drivers[run]? = some d ∧ d.turn = .gone ∧ d.said = out.1 := by
  intro s f
  have ho (actions : List Action) : (s.actAll w actions).Orderly :=
    orderly_actAll (orderly_start toolchain sandbox) w actions
  have hrefused (actions : List Action) : (s.actAll w actions).pipeline.admitRun.1 = false ↔
      ∃ run, (s.actAll w actions).InSpan run :=
    (admits_iff _).trans (ho actions).inFlight_iff
  have hadmitted {f : Floor σ β} : f.pipeline.admitRun.1 = true ↔ f.pipeline.inFlight = false := by
    rw [← Bool.not_eq_false, admits_iff, Bool.not_eq_true]
  refine ⟨(ho actions).inFlight_iff, fun run other => (ho actions).span_unique,
    fun files => ⟨hrefused actions, fun h => ask_of_inFlight ((admits_iff f).mp h) w files⟩,
    fun run => past_of_saysEnd, ?since, ?stream⟩
  case since =>
    intro run more hend hno
    obtain ⟨d, hd, hleft⟩ : f.PastSpan run := past_of_saysEnd hend
    obtain ⟨d', hd', hleft', -⟩ := left_actAll hd hleft w more
    rw [← actAll_append, hrefused] at hno
    rw [← actAll_append] at hd'
    -- Who is in its span now was let in later than `run`.
    obtain ⟨now, hspan⟩ := hno
    have hlt : run < now := by
      have hle := (ho _).le_of_span hspan (List.getElem?_eq_some_iff.mp hd').1
      refine Nat.lt_of_le_of_ne hle fun heq => ?_
      exact not_span_of_past ⟨d', hd', hleft'⟩ (heq ▸ hspan)
    obtain ⟨b, hb, -⟩ := hspan
    obtain ⟨before, files, after, hsplit, hfree, hlength⟩ :=
      exists_ask (f := s) (Nat.zero_le _) (List.getElem?_eq_some_iff.mp hb).1
    exact ⟨before, files, after, hsplit, hadmitted.mpr hfree,
      (ho before).past_of_free hfree (hlength.symm ▸ hlt)⟩
  case stream =>
    intro files after hin run out g
    have hfree : f.pipeline.inFlight = false := hadmitted.mp hin
    have hsaid (after : List Action) := said_of_ask (w := w) (f := f) rfl hfree files after
    obtain ⟨d, hd, hle, hall⟩ := hsaid after
    refine ⟨span_ask hfree w files, ⟨d, hd, hle, fun hgone => ⟨hall hgone, fun more => ?_⟩⟩,
      fun schedule hfair => ?_⟩
    · obtain ⟨d', hd', -, hsame⟩ := left_actAll hd (hgone ▸ trivial) w more
      rwa [hsame hgone] at hd'
    · have hg : g.Orderly := orderly_actAll (orderly_ask (ho actions) w files) w after
      obtain ⟨n, e, he, hgone⟩ := hfair.gone hg w (List.getElem?_eq_some_iff.mp hd).1
      refine ⟨n, e, he, hgone, ?_⟩
      obtain ⟨e', he', -, hall'⟩ := hsaid (after ++ (List.range n).map schedule)
      rw [actAll_append] at he'
      obtain rfl := Option.some.inj (he.symm.trans he')
      exact hall' hgone

end Floor

def Workshop.cutOff : Workshop Unit Unit where
  config := {}
  fetch := fun url => throw (.fetch url .notFound)
  backend := fun _ _ s => (⟨.error (.instantiate ""), []⟩, s)

namespace Floor

def failing : List Action :=
  [.ask .empty, .advance 0, .advance 0, .advance 0, .take .compile] ++
    List.replicate 6 (.work .compile 0) ++ List.replicate 6 (.advance 0)

def failed : Floor Unit Unit :=
  (start { archives := { source := () } } ()).actAll .cutOff failing

theorem runs_let_in_one_by_one_failed :
    failed.SaysEnd 0 ∧ failed.PastSpan 0 ∧ failed.pipeline.admitRun.1 = true ∧
    (failed.actAll .cutOff [.ask .empty]).pipeline.admitRun.1 = false ∧
    (∃ before files after, failing ++ [.ask .empty] = before ++ .ask files :: after ∧
      let moment := (start { archives := { source := () } } ()).actAll .cutOff before
      moment.pipeline.admitRun.1 = true ∧ moment.PastSpan 0) ∧
    FairToAll allInTurn ∧
    ∃ n d, ((failed.ask .cutOff .empty).along .cutOff allInTurn n).drivers[1]? = some d ∧
      d.turn = .gone ∧ d.said = (failed.pipeline.admitRun.2.drive .cutOff .empty).1 := by
  obtain ⟨-, -, -, hpast, hsince, hstream⟩ :=
    runs_let_in_one_by_one .cutOff { archives := { source := () } } () failing
  have hend : failed.SaysEnd 0 := saysEnd_iff.mpr (by decide +kernel)
  have hin : failed.pipeline.admitRun.1 = true := by decide +kernel
  have hno : (failed.actAll .cutOff [.ask .empty]).pipeline.admitRun.1 = false := by
    decide +kernel
  have hlength : failed.drivers.length = 1 := by decide +kernel
  have hgone := (hstream .empty [] hin).2.2 allInTurn fairToAll_allInTurn
  change ∃ n d, ((failed.ask .cutOff .empty).along .cutOff allInTurn n).drivers[
    failed.drivers.length]? = some d ∧ _ at hgone
  rw [hlength] at hgone
  exact ⟨hend, hpast 0 hend, hin, hno, hsince 0 _ hend hno, fairToAll_allInTurn, hgone⟩

end Floor

end Buildbox
