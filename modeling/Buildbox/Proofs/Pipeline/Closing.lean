import Buildbox.Proofs.Pipeline.Handling
import Buildbox.Proofs.Pipeline.Serial

/-! In a schedule that passes over no task for ever, every run that was let in comes to its end,
and its stream of events closes. -/

namespace Buildbox

namespace Floor

variable {σ β : Type} {w : Workshop σ β} {f : Floor σ β} {step : Step} {ticket t : Ticket}
  {d : Driver} {run n : Nat} {said : List PipelineEvent}

section Standing

theorem get_act_of_ne (hrun : f.drivers[run]? = some d) {action : Action}
    (hne : action ≠ .advance run) (w : Workshop σ β) :
    (f.act w action).drivers[run]? = some d := by
  cases action with
  | ask files =>
    cases hflight : f.pipeline.inFlight with
    | true =>
      change (f.ask w files).drivers[run]? = some d
      rwa [ask_of_inFlight hflight]
    | false =>
      have hlt : run < f.drivers.length := (List.getElem?_eq_some_iff.mp hrun).1
      simp only [act, ask, Pipeline.admitRun, hflight]
      exact (List.getElem?_append_left hlt).trans hrun
  | advance other =>
    have hother : other ≠ run := fun heq => hne (heq ▸ rfl)
    change (f.advance other).drivers[run]? = some d
    cases hb : f.drivers[other]? with
    | none => rwa [advance_of_none hb]
    | some b => rwa [advance_of_get hb, get_go_of_ne hother]
  | take step =>
    change (f.take step).drivers[run]? = some d
    rwa [drivers_take]
  | work step ticket =>
    change (f.work w step ticket).drivers[run]? = some d
    rwa [drivers_work]

theorem closed_mailbox_act {m : Mailbox step.Request} (hc : ticket ∈ m.closed)
    (action : Mailbox.Action step.Request) : ticket ∈ (m.act action).closed := by
  cases action with
  | post request => exact hc
  | take =>
    change ticket ∈ m.take.2.closed
    unfold Mailbox.take
    split
    · exact hc
    · split <;> exact hc
  | release u =>
    change ticket ∈ (m.release u).closed
    unfold Mailbox.release
    split <;> exact hc
  | close u =>
    change ticket ∈ (m.close u).closed
    unfold Mailbox.close
    split
    · exact List.mem_append_left _ hc
    · exact hc

theorem closed_act (hc : ticket ∈ (f.mailbox step).closed) (w : Workshop σ β) (action : Action) :
    ticket ∈ ((f.act w action).mailbox step).closed := by
  rcases f.mailbox_act w action step with hm | ⟨b, hm⟩
  · rwa [hm]
  · rw [hm]
    exact closed_mailbox_act hc b

theorem isSome_replies?_of_rest (hr : (f.desk step).Rest n) (ht : t < n) :
    ∃ replies, f.replies? step t = some replies := by
  obtain ⟨hclosed, h, hh, hticket, -⟩ := answered_of_rest hr ht
  have hm : f.mailbox step = _ := hr.mailbox
  have hfind : ((f.handlers step).find? (·.ticket = t)).isSome :=
    List.find?_isSome.mpr ⟨h, hh, by simpa using hticket⟩
  obtain ⟨b, hb⟩ := Option.isSome_iff_exists.mp hfind
  refine ⟨b.sent, ?_⟩
  unfold replies?
  rw [hm] at hclosed ⊢
  rw [if_neg List.not_mem_nil, if_pos hclosed, hb]
  rfl

end Standing

/-- A schedule in which the drivers get their turn again and again, too. -/
structure FairToAll (schedule : Nat → Action) : Prop extends Fair schedule where
  advance : ∀ run n, ∃ m, n ≤ m ∧ schedule m = .advance run

section Schedules

variable {schedule : Nat → Action}

theorem FairToAll.turn (hfair : FairToAll schedule) (w : Workshop σ β)
    (hrun : (f.along w schedule n).drivers[run]? = some d) :
    ∃ m, n ≤ m ∧ (f.along w schedule m).drivers[run]? = some d ∧
      f.along w schedule (m + 1) = (f.along w schedule m).go run d := by
  obtain ⟨m, hm, hturn⟩ := hfair.advance run n
  obtain ⟨k, rfl⟩ := Nat.exists_eq_add_of_le hm
  clear hm
  -- The first turn that comes is the one in question.
  induction k generalizing n with
  | zero =>
    rw [Nat.add_zero] at hturn
    refine ⟨n, Nat.le_refl n, hrun, ?_⟩
    rw [along_succ, hturn]
    exact advance_of_get hrun
  | succ k ih =>
    by_cases hnow : schedule n = .advance run
    · refine ⟨n, Nat.le_refl n, hrun, ?_⟩
      rw [along_succ, hnow]
      exact advance_of_get hrun
    · have hnext : (f.along w schedule (n + 1)).drivers[run]? = some d := by
        rw [along_succ]
        exact get_act_of_ne hrun hnow w
      obtain ⟨m, hm, hthere⟩ := ih hnext (by rwa [Nat.add_right_comm])
      exact ⟨m, Nat.le_of_succ_le hm, hthere⟩

theorem closed_along {m : Nat} (hm : n ≤ m)
    (hc : ticket ∈ ((f.along w schedule n).mailbox step).closed) :
    ticket ∈ ((f.along w schedule m).mailbox step).closed := by
  induction m, hm using Nat.le_induction with
  | base => exact hc
  | succ m _ ih =>
    rw [along_succ]
    exact closed_act ih w _

section Waiting

variable {next : Answer step.Response → Dialogue (List PipelineEvent)}

theorem waits_or_hears (w : Workshop σ β)
    (hrun : (f.along w schedule n).drivers[run]? = some ⟨said, .waiting step t next⟩) (k : Nat) :
    (f.along w schedule (n + k)).drivers[run]? = some ⟨said, .waiting step t next⟩ ∨
      ∃ m replies, n ≤ m ∧ (f.along w schedule m).drivers[run]? =
        some ⟨said, .speaking (next (.ok replies))⟩ := by
  induction k with
  | zero => exact .inl hrun
  | succ k ih =>
    rcases ih with hwaits | hhears
    · rw [← Nat.add_assoc, along_succ]
      by_cases hturn : schedule (n + k) = .advance run
      · have hgo : (f.along w schedule (n + k)).act w (schedule (n + k)) =
            (f.along w schedule (n + k)).go run ⟨said, .waiting step t next⟩ := by
          rw [hturn]
          exact advance_of_get hwaits
        rw [hgo]
        unfold go
        dsimp only
        cases hreplies : (f.along w schedule (n + k)).replies? step t with
        | none => exact .inl hwaits
        | some replies =>
          refine .inr ⟨n + k + 1, replies, by omega, ?_⟩
          rw [along_succ, hgo]
          unfold go
          dsimp only
          rw [hreplies]
          exact get_withDriver hwaits _
      · exact .inl (get_act_of_ne hwaits hturn w)
    · exact .inr hhears

theorem FairToAll.hears (hfair : FairToAll schedule) (ho : f.Orderly) (w : Workshop σ β)
    (hrun : (f.along w schedule n).drivers[run]? = some ⟨said, .waiting step t next⟩) :
    ∃ m replies, n ≤ m ∧ (f.along w schedule m).drivers[run]? =
      some ⟨said, .speaking (next (.ok replies))⟩ := by
  have hserve := ((orderly_along ho w schedule n).serving hrun rfl).1
  obtain ⟨m, hm, hrest⟩ := hfair.rest ho w hserve
  have hclosed : t ∈ ((f.along w schedule m).mailbox step).closed :=
    (answered_of_rest hrest (Nat.lt_succ_self t)).closed
  obtain ⟨k, rfl⟩ := Nat.exists_eq_add_of_le hm
  rcases waits_or_hears w hrun k with hwaits | hhears
  · -- The stream has closed, and the next turn finds it so.
    obtain ⟨l, hl, hthere, hgo⟩ := hfair.turn w hwaits
    have hserve' := ((orderly_along ho w schedule l).serving hthere rfl).1
    have hrest' := hserve'.rest (.inr (closed_along hl hclosed))
    obtain ⟨replies, hreplies⟩ := isSome_replies?_of_rest hrest' (Nat.lt_succ_self t)
    refine ⟨l + 1, replies, by omega, ?_⟩
    rw [hgo]
    unfold go
    dsimp only
    rw [hreplies]
    exact get_withDriver hthere _
  · exact hhears

end Waiting

theorem get_post (hrun : f.drivers[run]? = some d) (said : List PipelineEvent)
    (request : step.Request) (next : Answer step.Response → Dialogue (List PipelineEvent)) :
    ∃ ticket, (f.post run said step request next).drivers[run]? =
      some ⟨said, .waiting step ticket next⟩ :=
  ⟨((f.mailbox step).post request).1,
    get_withDriver ((drivers_withMailbox f step _).symm ▸ hrun) _⟩

theorem FairToAll.answers (hfair : FairToAll schedule) (ho : f.Orderly) (w : Workshop σ β)
    (step : Step) {e : Dialogue (List PipelineEvent)} {request : step.Request}
    {next : Answer step.Response → Dialogue (List PipelineEvent)}
    (hrun : (f.along w schedule n).drivers[run]? = some ⟨said, .speaking e⟩)
    (hgo : ∀ g : Floor σ β, g.go run ⟨said, .speaking e⟩ = g.post run said step request next) :
    ∃ m answer, n ≤ m ∧
      (f.along w schedule m).drivers[run]? = some ⟨said, .speaking (next answer)⟩ := by
  obtain ⟨m, hm, hthere, hturn⟩ := hfair.turn w hrun
  obtain ⟨ticket, hwaits⟩ := get_post hthere said request next
  rw [← hgo, ← hturn] at hwaits
  obtain ⟨l, replies, hl, hspeaks⟩ := hfair.hears ho w hwaits
  exact ⟨l, .ok replies, by omega, hspeaks⟩

theorem FairToAll.parts (hfair : FairToAll schedule) (ho : f.Orderly) (w : Workshop σ β)
    {e : Dialogue (List PipelineEvent)}
    (hrun : (f.along w schedule n).drivers[run]? = some ⟨said, .speaking e⟩) :
    ∃ m said last, n ≤ m ∧
      (f.along w schedule m).drivers[run]? = some ⟨said, .parting last⟩ := by
  -- By induction on what the run has still to say before it lets the next one in.
  induction e generalizing n said with
  | done last =>
    obtain ⟨m, hm, hthere, hgo⟩ := hfair.turn w hrun
    refine ⟨m + 1, said, last, Nat.le_succ_of_le hm, ?_⟩
    rw [hgo]
    exact get_withDriver (f := { f.along w schedule m with pipeline := _ }) hthere _
  | report event next ih =>
    obtain ⟨m, hm, hthere, hgo⟩ := hfair.turn w hrun
    have hspeaks : (f.along w schedule (m + 1)).drivers[run]? =
        some ⟨said ++ [event], .speaking next⟩ := by
      rw [hgo]
      exact get_withDriver hthere _
    obtain ⟨l, said', last, hl, hparts⟩ := ih hspeaks
    exact ⟨l, said', last, by omega, hparts⟩
  | transpile request next ih =>
    obtain ⟨m, answer, hm, hspeaks⟩ :=
      hfair.answers ho w .transpile hrun fun _ => rfl
    obtain ⟨l, said', last, hl, hparts⟩ := ih answer hspeaks
    exact ⟨l, said', last, Nat.le_trans hm hl, hparts⟩
  | compile request next ih =>
    obtain ⟨m, answer, hm, hspeaks⟩ := hfair.answers ho w .compile hrun fun _ => rfl
    obtain ⟨l, said', last, hl, hparts⟩ := ih answer hspeaks
    exact ⟨l, said', last, Nat.le_trans hm hl, hparts⟩
  | execute request next ih =>
    obtain ⟨m, answer, hm, hspeaks⟩ := hfair.answers ho w .execute hrun fun _ => rfl
    obtain ⟨l, said', last, hl, hparts⟩ := ih answer hspeaks
    exact ⟨l, said', last, Nat.le_trans hm hl, hparts⟩

theorem FairToAll.gone_of_parting (hfair : FairToAll schedule) (w : Workshop σ β)
    {last : List PipelineEvent}
    (hrun : (f.along w schedule n).drivers[run]? = some ⟨said, .parting last⟩) :
    ∃ m d, (f.along w schedule m).drivers[run]? = some d ∧ d.turn = .gone := by
  induction last generalizing n said with
  | nil =>
    obtain ⟨m, -, hthere, hgo⟩ := hfair.turn w hrun
    refine ⟨m + 1, ⟨said, .gone⟩, ?_, rfl⟩
    rw [hgo]
    exact get_withDriver hthere _
  | cons event rest ih =>
    obtain ⟨m, -, hthere, hgo⟩ := hfair.turn w hrun
    have hnext : (f.along w schedule (m + 1)).drivers[run]? =
        some ⟨said ++ [event], .parting rest⟩ := by
      rw [hgo]
      exact get_withDriver hthere _
    exact ih hnext

theorem FairToAll.gone (hfair : FairToAll schedule) (ho : f.Orderly) (w : Workshop σ β)
    (hlt : run < f.drivers.length) :
    ∃ n d, (f.along w schedule n).drivers[run]? = some d ∧ d.turn = .gone := by
  have hspeaking {n : Nat} {said : List PipelineEvent} {e : Dialogue (List PipelineEvent)}
      (hrun : (f.along w schedule n).drivers[run]? = some ⟨said, .speaking e⟩) :
      ∃ n d, (f.along w schedule n).drivers[run]? = some d ∧ d.turn = .gone := by
    obtain ⟨m, said', last, -, hparts⟩ := hfair.parts ho w hrun
    exact hfair.gone_of_parting w hparts
  have hstart : (f.along w schedule 0).drivers[run]? = some f.drivers[run] :=
    List.getElem?_eq_getElem hlt
  generalize f.drivers[run] = d at hstart
  obtain ⟨said, turn⟩ := d
  cases turn with
  | speaking e => exact hspeaking hstart
  | waiting step t next =>
    obtain ⟨m, replies, -, hspeaks⟩ := hfair.hears ho w hstart
    exact hspeaking hspeaks
  | parting last => exact hfair.gone_of_parting w hstart
  | gone => exact ⟨0, _, hstart, rfl⟩

end Schedules

def allInTurn (n : Nat) : Action :=
  if n % 2 = 0 then inTurn (n / 2) else .advance (n / 2).unpair.1

theorem fairToAll_allInTurn : FairToAll allInTurn := by
  have heven {n : Nat} {action : Action} (h : ∃ m, n ≤ m ∧ inTurn m = action) :
      ∃ m, n ≤ m ∧ allInTurn m = action := by
    obtain ⟨m, hm, haction⟩ := h
    refine ⟨2 * m, by omega, ?_⟩
    rw [allInTurn, if_pos (Nat.mul_mod_right 2 m), Nat.mul_div_cancel_left m Nat.two_pos, haction]
  refine ⟨⟨fun step n => heven (fair_inTurn.take step n),
    fun step ticket n => heven (fair_inTurn.work step ticket n)⟩, fun run n => ?_⟩
  refine ⟨2 * Nat.pair run n + 1, ?_, ?_⟩
  · have hle := Nat.right_le_pair run n
    omega
  · have hhalf : (2 * Nat.pair run n + 1) / 2 = Nat.pair run n := by omega
    rw [allInTurn, if_neg (by omega), hhalf, Nat.unpair_pair]

end Floor

end Buildbox
