import Buildbox.Proofs.Pipeline.Due

/-! In whatever order the tasks go on, a run passes the letters and reports the events that it
would if the stages answered its requests one after the other. What has passed and what is still
to come make up the whole, and every action moves a letter or an event from there to here. -/

namespace Buildbox

inductive Dialogue.Asks {α : Type} : Dialogue α → (step : Step) → step.Request →
    (Answer step.Response → Dialogue α) → Prop where
  | transpile {r next} : Asks (.transpile r next) .transpile r next
  | compile {r next} : Asks (.compile r next) .compile r next
  | execute {r next} : Asks (.execute r next) .execute r next

/-- Of the dialogue `c`, asked of the stages `s₀`, the letters `log` have passed and the events
`said` were reported; the dialogue `e`, asked of the stages `s`, is what is left of it. -/
structure Reached {σ β : Type} (w : Workshop σ β) (c : Dialogue (List PipelineEvent))
    (s₀ : Stages σ β) (log : List Letter) (said : List PipelineEvent)
    (e : Dialogue (List PipelineEvent)) (s : Stages σ β) : Prop where
  letters : log ++ (Stages.visits w e s).flatMap Visit.letters =
    (Stages.visits w c s₀).flatMap Visit.letters
  events : said ++ (e.hold (Stages.crew w) s).1.1 = (c.hold (Stages.crew w) s₀).1.1
  last : (e.hold (Stages.crew w) s).1.2 = (c.hold (Stages.crew w) s₀).1.2

section Reached

variable {σ β : Type} {w : Workshop σ β} {c e : Dialogue (List PipelineEvent)}
  {s₀ s : Stages σ β} {log : List Letter} {said : List PipelineEvent}

theorem Reached.report {event : PipelineEvent} {next : Dialogue (List PipelineEvent)}
    (h : Reached w c s₀ log said (.report event next) s) :
    Reached w c s₀ log (said ++ [event]) next s := by
  refine ⟨h.letters, ?_, h.last⟩
  rw [← h.events, List.append_assoc]
  rfl

theorem Reached.ask {step : Step} {r : step.Request}
    {next : Answer step.Response → Dialogue (List PipelineEvent)}
    (h : Reached w c s₀ log said e s) (ha : e.Asks step r next) :
    Reached w c s₀ (log ++ (Stages.visit w step r s).letters) said
      (next (.ok (Stages.answer w step r s).1)) (Stages.answer w step r s).2 := by
  have hletters : (Stages.visits w e s).flatMap Visit.letters =
      (Stages.visit w step r s).letters ++ (Stages.visits w
        (next (.ok (Stages.answer w step r s).1))
        (Stages.answer w step r s).2).flatMap Visit.letters := by
    cases ha <;> rfl
  have hhold : e.hold (Stages.crew w) s = (next (.ok (Stages.answer w step r s).1)).hold
      (Stages.crew w) (Stages.answer w step r s).2 := by
    cases ha <;> rfl
  refine ⟨?_, hhold ▸ h.events, hhold ▸ h.last⟩
  rw [List.append_assoc, ← hletters]
  exact h.letters

end Reached

def Driver.Tracks {σ β : Type} (w : Workshop σ β) (c : Dialogue (List PipelineEvent))
    (s₀ : Stages σ β) (f : Floor σ β) (log : List Letter) (d : Driver) : Prop :=
  let whole := (c.hold (Stages.crew w) s₀).1
  match d.turn with
  | .speaking e => Reached w c s₀ log d.said e f.pipeline.stages
  | .waiting step t next => ∃ letters replies s, f.Due w step t letters replies s ∧
      Reached w c s₀ (log ++ letters ++ [.answered step replies]) d.said (next (.ok replies)) s
  | .parting rest => log = (Stages.visits w c s₀).flatMap Visit.letters ∧
      d.said ++ rest = whole.1 ++ whole.2
  | .gone => log = (Stages.visits w c s₀).flatMap Visit.letters ∧ d.said = whole.1 ++ whole.2

namespace Floor

variable {σ β : Type} {w : Workshop σ β} {f g : Floor σ β} {c : Dialogue (List PipelineEvent)}
  {s₀ : Stages σ β} {log : List Letter} {d : Driver} {run : Nat} {step : Step} {t : Ticket}

section Frame

theorem get_withDriver (hrun : f.drivers[run]? = some d) (d' : Driver) :
    (f.withDriver run d').drivers[run]? = some d' := by
  have hlt : run < f.drivers.length := (List.getElem?_eq_some_iff.mp hrun).1
  rw [withDriver, List.getElem?_set_self hlt]

theorem tracks_of_left (hd : d.turn.Left) (ht : d.Tracks w c s₀ f log) :
    d.Tracks w c s₀ g log := by
  obtain ⟨said, turn⟩ := d
  cases turn with
  | speaking e => exact hd.elim
  | waiting step t next => exact hd.elim
  | parting rest => exact ht
  | gone => exact ht

theorem tracks_withDriver {other : Nat} {b : Driver} (ht : d.Tracks w c s₀ f log) :
    d.Tracks w c s₀ (f.withDriver other b) log := by
  obtain ⟨said, turn⟩ := d
  cases turn with
  | waiting step t next =>
    obtain ⟨letters, replies, s, hd, hr⟩ := ht
    refine ⟨letters, replies, s, ?_, hr⟩
    have hm : (f.withDriver other b).mailbox step = f.mailbox step := by cases step <;> rfl
    have hh : (f.withDriver other b).handlers step = f.handlers step := by cases step <;> rfl
    cases hd with
    | queued hq hp hl ha => exact .queued (hm ▸ hq) (hh ▸ hp) hl ha
    | handled hh' hp ht hd => exact .handled (hh.trans hh') hp ht (hm ▸ hd)
  | _ => exact ht

end Frame

section Own

variable {said : List PipelineEvent} {e : Dialogue (List PipelineEvent)} {r : step.Request}
  {next : Answer step.Response → Dialogue (List PipelineEvent)}

theorem tracks_post {n : Nat} (hn : (f.desk step).Rest n) (hrun : f.drivers[run]? = some d)
    (ha : e.Asks step r next) (hr : Reached w c s₀ log said e f.pipeline.stages) :
    ∃ d', (f.post run said step r next).drivers[run]? = some d' ∧
      d'.Tracks w c s₀ (f.post run said step r next) (log ++ [.asked step r]) := by
  have hp : Desk.Past (f.handlers step) n := hn.past
  rw [post_of_rest hn]
  refine ⟨_, (congrArg (·[run]?) drivers_withDesk).trans (get_withDriver hrun _), ?_⟩
  refine ⟨Visit.runLetters step (f.pipeline.stages.sandboxRun? w step r),
    (Stages.answer w step r f.pipeline.stages).1, (Stages.answer w step r f.pipeline.stages).2,
    ?_, ?_⟩
  · exact .queued (by rw [mailbox_withDesk]) (handlers_withDesk.symm ▸ hp)
      (by rw [stages_withDesk]) (by rw [stages_withDesk])
  · have hasked := hr.ask ha
    simpa [Visit.letters, Stages.visit] using hasked

theorem tracks_go (ho : f.Orderly) (hrun : f.drivers[run]? = some d)
    (ht : d.Tracks w c s₀ f log) :
    ∃ d', (f.go run d).drivers[run]? = some d' ∧
      d'.Tracks w c s₀ (f.go run d) (log ++ f.lettersOf d) := by
  obtain ⟨said, turn⟩ := d
  cases turn with
  | speaking e =>
    have hrest := ho.at_rest hrun rfl
    cases e with
    | done last =>
      -- All letters have passed; what ends the run is still to be said.
      refine ⟨⟨said, .parting last⟩, get_withDriver (f := { f with pipeline := _ }) hrun _, ?_⟩
      have hlog : log ++ [] = _ := ht.letters
      have hsaid : said ++ [] = _ := ht.events
      have hlast : last = _ := ht.last
      refine ⟨hlog, ?_⟩
      rw [← hsaid, ← hlast, List.append_nil]
    | report event next =>
      refine ⟨_, get_withDriver hrun _, ?_⟩
      rw [show f.lettersOf _ = [] from rfl, List.append_nil]
      exact Reached.report ht
    | transpile request next =>
      obtain ⟨n, hn⟩ := hrest .transpile
      exact tracks_post hn hrun .transpile ht
    | compile request next =>
      obtain ⟨n, hn⟩ := hrest .compile
      exact tracks_post hn hrun .compile ht
    | execute request next =>
      obtain ⟨n, hn⟩ := hrest .execute
      exact tracks_post hn hrun .execute ht
  | waiting step t next =>
    obtain ⟨letters, replies, s, hd, hr⟩ := ht
    unfold go lettersOf
    dsimp only
    cases hreplies : f.replies? step t with
    | none =>
      refine ⟨_, hrun, letters, replies, s, hd, ?_⟩
      simpa using hr
    | some heard =>
      obtain ⟨rfl, rfl, rfl⟩ := hd.closed (ho.serving hrun rfl).1 hreplies
      refine ⟨_, get_withDriver hrun _, ?_⟩
      have hreached : Reached w c s₀ (log ++ [.answered step heard]) said (next (.ok heard))
          f.pipeline.stages := by simpa using hr
      exact hreached
  | parting rest =>
    obtain ⟨hlog, hsaid⟩ := ht
    rw [show f.lettersOf _ = [] from rfl, List.append_nil]
    cases rest with
    | nil => exact ⟨_, get_withDriver hrun _, hlog, by rw [← hsaid, List.append_nil]⟩
    | cons event rest =>
      refine ⟨_, get_withDriver hrun _, hlog, ?_⟩
      rw [List.append_assoc]
      exact hsaid
  | gone =>
    rw [show f.lettersOf _ = [] from rfl, List.append_nil]
    exact ⟨_, hrun, ht⟩

end Own

section Others

variable {other : Nat} {b : Driver}

theorem get_withDriver_of_ne (hne : other ≠ run) (b : Driver) :
    (f.withDriver other b).drivers[run]? = f.drivers[run]? :=
  List.getElem?_set_ne hne

theorem get_post_of_ne (hne : other ≠ run) (said : List PipelineEvent) (r : step.Request)
    (next : Answer step.Response → Dialogue (List PipelineEvent)) :
    (f.post other said step r next).drivers[run]? = f.drivers[run]? := by
  unfold post
  dsimp only
  rw [get_withDriver_of_ne hne, drivers_withMailbox]

theorem get_go_of_ne (hne : other ≠ run) (b : Driver) :
    (f.go other b).drivers[run]? = f.drivers[run]? := by
  obtain ⟨said, turn⟩ := b
  cases turn with
  | speaking e =>
    cases e with
    | done last => exact get_withDriver_of_ne (f := { f with pipeline := _ }) hne _
    | report event next => exact get_withDriver_of_ne hne _
    | transpile r next => exact get_post_of_ne hne ..
    | compile r next => exact get_post_of_ne hne ..
    | execute r next => exact get_post_of_ne hne ..
  | waiting step t next =>
    unfold go
    dsimp only
    cases f.replies? step t with
    | none => rfl
    | some replies => exact get_withDriver_of_ne hne _
  | parting rest => cases rest <;> exact get_withDriver_of_ne hne _
  | gone => rfl

theorem tracks_go_left (hb : b.turn.Left) (ht : d.Tracks w c s₀ f log) :
    d.Tracks w c s₀ (f.go other b) log := by
  obtain ⟨said, turn⟩ := b
  cases turn with
  | speaking e => exact hb.elim
  | waiting step t next => exact hb.elim
  | parting rest => cases rest <;> exact tracks_withDriver ht
  | gone => exact ht

theorem tracks_ask (ho : f.Orderly) (hrun : f.drivers[run]? = some d)
    (ht : d.Tracks w c s₀ f log) (files : NameMap String) :
    (f.ask w files).drivers[run]? = some d ∧ d.Tracks w c s₀ (f.ask w files) log := by
  cases hflight : f.pipeline.inFlight with
  | true =>
    rw [ask_of_inFlight hflight]
    exact ⟨hrun, ht⟩
  | false =>
    refine ⟨?_, tracks_of_left (ho.left_of_free hflight hrun) ht⟩
    unfold ask Pipeline.admitRun
    rw [hflight]
    have hlt : run < f.drivers.length := (List.getElem?_eq_some_iff.mp hrun).1
    exact (List.getElem?_append_left hlt).trans hrun

theorem tracks_advance (ho : f.Orderly) (hrun : f.drivers[run]? = some d)
    (ht : d.Tracks w c s₀ f log) (hne : other ≠ run) :
    (f.advance other).drivers[run]? = some d ∧ d.Tracks w c s₀ (f.advance other) log := by
  cases hother : f.drivers[other]? with
  | none =>
    rw [advance_of_none hother]
    exact ⟨hrun, ht⟩
  | some b =>
    rw [advance_of_get hother]
    refine ⟨(get_go_of_ne hne b).trans hrun, ?_⟩
    by_cases hb : b.turn.Left
    · exact tracks_go_left hb ht
    · exact tracks_of_left (ho.left_of_ne hrun hother hne hb) ht

theorem tracks_take (ho : f.Orderly) (hrun : f.drivers[run]? = some d)
    (ht : d.Tracks w c s₀ f log) (step : Step) : d.Tracks w c s₀ (f.take step) log := by
  obtain ⟨said, turn⟩ := d
  cases turn with
  | speaking e =>
    obtain ⟨n, hn⟩ := ho.at_rest hrun rfl step
    rw [take_of_rest hn]
    exact ht
  | waiting at' t next =>
    obtain ⟨hs, hrest⟩ := ho.serving hrun rfl
    by_cases hsame : step = at'
    · subst hsame
      obtain ⟨letters, replies, s, hd, hr⟩ := ht
      exact ⟨letters, replies, s, hd.take hs, hr⟩
    · obtain ⟨n, hn⟩ := hrest step hsame
      rw [take_of_rest hn]
      exact ht
  | parting rest => exact ht
  | gone => exact ht

theorem tracks_work (ho : f.Orderly) (hrun : f.drivers[run]? = some d)
    (ht : d.Tracks w c s₀ f log) (step : Step) (u : Ticket) :
    d.Tracks w c s₀ (f.work w step u) (log ++ f.lettersFor w d step u) := by
  obtain ⟨said, turn⟩ := d
  cases turn with
  | speaking e =>
    obtain ⟨n, hn⟩ := ho.at_rest hrun rfl step
    rw [work_of_rest hn, show f.lettersFor w _ step u = [] from rfl, List.append_nil]
    exact ht
  | waiting at' t next =>
    obtain ⟨hs, hrest⟩ := ho.serving hrun rfl
    by_cases hsame : step = at'
    · subst hsame
      obtain ⟨letters, replies, s, hd, hr⟩ := ht
      obtain ⟨later, hl, hd'⟩ := hd.work u
      have hpassed : f.lettersFor w ⟨said, .waiting step t next⟩ step u =
          if u = t then f.runOf w step u else [] := by
        simp [lettersFor]
      rw [hpassed]
      refine ⟨later, replies, s, hd', ?_⟩
      rwa [List.append_assoc log, ← hl]
    · obtain ⟨n, hn⟩ := hrest step hsame
      have hpassed : f.lettersFor w ⟨said, .waiting at' t next⟩ step u = [] := by
        simp [lettersFor, hsame]
      rw [work_of_rest hn, hpassed, List.append_nil]
      exact ht
  | parting rest =>
    rw [show f.lettersFor w _ step u = [] from rfl, List.append_nil]
    exact ht
  | gone =>
    rw [show f.lettersFor w _ step u = [] from rfl, List.append_nil]
    exact ht

end Others

section All

theorem tracks_act (ho : f.Orderly) (hrun : f.drivers[run]? = some d)
    (ht : d.Tracks w c s₀ f log) (action : Action) :
    ∃ d', (f.act w action).drivers[run]? = some d' ∧
      d'.Tracks w c s₀ (f.act w action) (log ++ f.letters w run action) := by
  unfold letters
  rw [hrun]
  cases action with
  | ask files =>
    dsimp only
    rw [List.append_nil]
    exact ⟨d, tracks_ask ho hrun ht files⟩
  | advance other =>
    dsimp only [act]
    by_cases hne : other = run
    · subst hne
      rw [if_pos rfl, advance_of_get hrun]
      exact tracks_go ho hrun ht
    · rw [if_neg hne, List.append_nil]
      exact ⟨d, tracks_advance ho hrun ht hne⟩
  | take step =>
    dsimp only [act]
    rw [List.append_nil]
    exact ⟨d, (drivers_take f step).symm ▸ hrun, tracks_take ho hrun ht step⟩
  | work step u =>
    exact ⟨d, (drivers_work w u f step).symm ▸ hrun, tracks_work ho hrun ht step u⟩

theorem tracks_actAll (ho : f.Orderly) (hrun : f.drivers[run]? = some d)
    (ht : d.Tracks w c s₀ f log) (actions : List Action) :
    ∃ d', (f.actAll w actions).drivers[run]? = some d' ∧
      d'.Tracks w c s₀ (f.actAll w actions) (log ++ f.log w run actions) := by
  induction actions generalizing f d log with
  | nil =>
    rw [Floor.log, List.append_nil]
    exact ⟨d, hrun, ht⟩
  | cons action rest ih =>
    obtain ⟨d', hrun', ht'⟩ := tracks_act ho hrun ht action
    obtain ⟨d'', hrun'', ht''⟩ := ih (orderly_act ho w action) hrun' ht'
    rw [List.append_assoc] at ht''
    exact ⟨d'', hrun'', ht''⟩

theorem tracks_run (ho : f.Orderly) (hf : f.pipeline.inFlight = false) (w : Workshop σ β)
    (files : NameMap String) (actions : List Action) :
    let c := Course.run w.config.transpile.sourceExt files
    let g := f.ask w files
    ∃ d, (g.actAll w actions).drivers[f.drivers.length]? = some d ∧
      d.Tracks w c f.pipeline.stages (g.actAll w actions) (g.log w f.drivers.length actions) := by
  intro c g
  have hrun : g.drivers[f.drivers.length]? = some ⟨[], .speaking c⟩ := by
    simp [g, c, ask, Pipeline.admitRun, hf]
  have hstages : g.pipeline.stages = f.pipeline.stages := by
    simp [g, ask, Pipeline.admitRun, hf]
  have hstart : Driver.Tracks w c f.pipeline.stages g [] ⟨[], .speaking c⟩ := by
    have hreached : Reached w c f.pipeline.stages [] [] c g.pipeline.stages := by
      rw [hstages]
      exact ⟨rfl, rfl, rfl⟩
    exact hreached
  have hall := tracks_actAll (orderly_ask ho w files) hrun hstart actions
  rwa [List.nil_append] at hall

end All

section Posting

theorem Orderly.posted_take (ho : f.Orderly) (step other : Step) :
    ((f.take step).mailbox other).posted = (f.mailbox other).posted := by
  change ((f.take step).desk other).mailbox.posted = (f.desk other).mailbox.posted
  by_cases hsame : other = step
  · subst hsame
    rw [desk_take]
    rcases ho.rest_or_serving other with ⟨n, hn⟩ | ⟨t, ht⟩
    · rw [hn.take]
    · rw [ht.take.posted, ht.posted]
  · rw [desk_take_of_ne _ hsame]

theorem Orderly.posted_work (ho : f.Orderly) (w : Workshop σ β) (step : Step) (u : Ticket)
    (other : Step) :
    ((f.work w step u).mailbox other).posted = (f.mailbox other).posted := by
  change ((f.work w step u).desk other).mailbox.posted = (f.desk other).mailbox.posted
  by_cases hsame : other = step
  · subst hsame
    rw [desk_work]
    rcases ho.rest_or_serving other with ⟨n, hn⟩ | ⟨t, ht⟩
    · rw [hn.work rfl]
    · rw [(ht.work w u rfl).1.posted, ht.posted]
  · rw [ho.desk_work_of_ne w u hsame]

theorem Orderly.closed_of_posted (ho : f.Orderly) {action : Action} {step : Step}
    (hp : ((f.act w action).mailbox step).posted ≠ (f.mailbox step).posted) (other : Step) :
    (f.mailbox other).closed = List.range (f.mailbox other).posted := by
  have hsame (hd : (f.act w action).desk step = f.desk step) : False :=
    hp (congrArg (fun d : Desk step => d.mailbox.posted) hd)
  cases action with
  | ask files => exact (hsame (desk_ask ..)).elim
  | take at' => exact absurd (ho.posted_take at' step) hp
  | work at' u => exact absurd (ho.posted_work w at' u step) hp
  | advance run =>
    change (f.advance run).desk step = f.desk step → False at hsame
    cases hrun : f.drivers[run]? with
    | none => exact (hsame (by rw [advance_of_none hrun])).elim
    | some d =>
      rw [advance_of_get hrun] at hsame
      by_cases hd : ∃ e, d.turn = .speaking e
      · obtain ⟨e, he⟩ := hd
        obtain ⟨n, hn⟩ := ho.at_rest hrun he other
        have hm : f.mailbox other = { posted := n, closed := List.range n } := hn.mailbox
        rw [hm]
      · have hsilent (e : Dialogue (List PipelineEvent)) : d.turn ≠ .speaking e :=
          fun he => hd ⟨e, he⟩
        exact (hsame (desk_go_of_not_speaking hsilent run step)).elim

end Posting

end Floor

namespace Driver.Tracks

variable {σ β : Type} {w : Workshop σ β} {f : Floor σ β} {c : Dialogue (List PipelineEvent)}
  {s₀ : Stages σ β} {log : List Letter} {d : Driver}

theorem log_of_left (ht : d.Tracks w c s₀ f log) (hd : d.turn.Left) :
    log = (Stages.visits w c s₀).flatMap Visit.letters := by
  obtain ⟨said, turn⟩ := d
  cases turn with
  | speaking e => exact hd.elim
  | waiting step t next => exact hd.elim
  | parting rest => exact ht.1
  | gone => exact ht.1

theorem log_le (ht : d.Tracks w c s₀ f log) :
    log <+: (Stages.visits w c s₀).flatMap Visit.letters := by
  obtain ⟨said, turn⟩ := d
  cases turn with
  | speaking e => exact ⟨_, Reached.letters ht⟩
  | waiting step t next =>
    obtain ⟨letters, replies, s, -, hr⟩ := ht
    rw [← hr.letters, List.append_assoc, List.append_assoc]
    exact ⟨_, rfl⟩
  | parting rest => exact ht.1 ▸ List.prefix_rfl
  | gone => exact ht.1 ▸ List.prefix_rfl

theorem said_of_gone (ht : d.Tracks w c s₀ f log) (hd : d.turn = .gone) :
    d.said = (c.hold (Stages.crew w) s₀).1.1 ++ (c.hold (Stages.crew w) s₀).1.2 := by
  obtain ⟨said, turn⟩ := d
  cases turn with
  | gone => exact ht.2
  | _ => cases hd

end Driver.Tracks

end Buildbox
