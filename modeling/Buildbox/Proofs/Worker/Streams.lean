import Buildbox.Proofs.Stage.Leftovers
import Buildbox.Proofs.Worker.Completion
import Buildbox.Proofs.Worker.Tasks
import Mathlib.Data.Nat.Pairing

/-! What a client hears of its request: all that was printed, in order, and then how it went. The
tasks that a stage has for it forward the one and say the other, and their streams close. -/

namespace Buildbox

variable {σ β : Type} {step : Step}

namespace SandboxRun

variable {run : SandboxRun} {x : Execution} {w : Workshop σ β} {request : step.Request}

theorem Origin.outcome (ho : run.Origin w request) (hx : run.execution? = some x) :
    Outcome w request x := by
  cases ho with
  | none | ready | queued => cases hx
  | refused h | printing h | finished h | released h => exact Option.some.inj hx ▸ h

theorem source_le (hx : run.execution? = some x) : (run.source step).sent <+: x.chunks := by
  cases run with
  | none | ready | queued => cases hx
  | printing i y n =>
    obtain rfl := Option.some.inj hx
    exact List.take_prefix ..
  | refused | finished | released =>
    obtain rfl := Option.some.inj hx
    exact List.prefix_rfl

theorem source_of_none (step : Step) (hx : run.execution? = .none) :
    (run.source step).sent = [] := by
  cases run with
  | none | ready | queued => rfl
  | refused | printing | finished | released => cases hx

end SandboxRun

namespace StageWork

variable {w : Workshop σ β} {k : StageWork step} {o : Outbox step.Response} {x : Execution}

section Replies

theorem Sound.nothing (hk : k.Sound w o) (hx : k.run.execution? = none) : o.sent = [] := by
  obtain ⟨-, out, said, hf, rfl, hr⟩ := hk
  have hout : out.sent = [] :=
    List.prefix_nil.mp (SandboxRun.source_of_none step hx ▸ hf.sent_le)
  rcases hr.said_cases with rfl | ⟨x, rest, hended, -⟩
  · simp [stream, hout]
  · rw [(SandboxRun.execution_of_ended step hended).1] at hx
    cases hx

theorem Sound.beginning (hk : k.Sound w o) (hx : k.run.execution? = some x) :
    o.sent <+: Stages.replies w step k.request x := by
  obtain ⟨-, out, said, hf, rfl, hr⟩ := hk
  rw [Stages.replies_eq]
  have hout : out.sent <+: x.chunks := hf.sent_le.trans (SandboxRun.source_le hx)
  rcases hr.said_cases with rfl | ⟨y, rest, hended, hverdict, hnone⟩
  · obtain ⟨more, hmore⟩ := hout
    rw [← hmore, List.flatMap_append, List.append_assoc]
    simp [stream]
  · obtain ⟨hy, hsource⟩ := SandboxRun.execution_of_ended step hended
    obtain rfl := Option.some.inj (hx.symm.trans hy)
    have hall : out.sent = x.chunks := (hf.drained hnone).2.trans (congrArg Outbox.sent hsource)
    rw [hverdict, ← hall, ← List.append_assoc]
    exact List.prefix_append ..

theorem Sound.whole (hk : k.Sound w o) (hreturned : k.point = .returned) :
    ∃ x, k.run.ended? = some x ∧ o.sent = Stages.replies w step k.request x := by
  obtain ⟨-, out, said, hf, rfl, hr⟩ := hk
  rw [Reached, hreturned] at hr
  obtain ⟨⟨x, hx, rfl⟩, hnone⟩ := hr
  have hall : out.sent = x.chunks :=
    (hf.drained hnone).2.trans (congrArg Outbox.sent (SandboxRun.execution_of_ended step hx).2)
  refine ⟨x, hx, ?_⟩
  rw [Stages.replies_eq, ← hall]
  rfl

end Replies

end StageWork

def Streamed.isBusy (x : Execution) : Bool :=
  match x.result with
  | .error f => f.isBusy
  | .ok _ => false

namespace Stages

/-- What the compiler put out, and at most one verdict. -/
def CompilerStream (x : Execution) (sent : List CompileResponse) : Prop :=
  ∃ verdict, sent = x.chunks.map (fun chunk => .stderr chunk.text) ++ verdict ∧
    (verdict = [] ∨ (∃ bytes, verdict = [.compiled bytes]) ∨
      ∃ stderr, verdict = [.failed stderr])

/-- What the program put out, each piece by its channel, at most one trap, and the end. -/
def ProgramStream (x : Execution) (sent : List ExecuteResponse) : Prop :=
  ∃ trap, sent = x.chunks.map .ofChunk ++ trap ++ [.done] ∧
    (trap = [] ∨ ∃ message, trap = [.trapped message])

section Shapes

variable {w : Workshop σ β}

theorem compilerStream_replies (w : Workshop σ β) (request : CompileRequest) (x : Execution) :
    CompilerStream x (replies w .compile request x) := by
  refine ⟨_, rfl, ?_⟩
  dsimp only
  generalize x.result.bind (Artifact.judge w.config.compile · x.chunks) = result
  cases result with
  | ok build =>
    cases build with
    | artifact bytes => exact .inr (.inl ⟨bytes, rfl⟩)
    | nothing => exact .inl rfl
  | error f =>
    have hverdict : CompileResponse.verdict (.error f) = [] ∨
        ∃ stderr, CompileResponse.verdict (.error f) = [.failed stderr] := by
      unfold CompileResponse.verdict
      split
      · next h => cases h
      · next h => cases h
      · exact .inr ⟨_, rfl⟩
      · split
        · exact .inl rfl
        · exact .inr ⟨_, rfl⟩
    exact hverdict.imp_right .inr

theorem programStream_replies (w : Workshop σ β) (request : ExecuteRequest) {x : Execution}
    (hfree : x.isBusy = false) : ProgramStream x (replies w .execute request x) := by
  have hending : ∃ trap, ExecuteResponse.ending (x.result.bind (.ok ·.status)) = trap ++ [.done] ∧
      (trap = [] ∨ ∃ message, trap = [.trapped message]) := by
    cases hresult : x.result with
    | ok report =>
      change ∃ trap, ExecuteResponse.ending (.ok report.status) = _ ∧ _
      unfold ExecuteResponse.ending
      dsimp only
      cases report.status.trapMessage? with
      | some message => exact ⟨[.trapped message], rfl, .inr ⟨message, rfl⟩⟩
      | none => exact ⟨[], rfl, .inl rfl⟩
    | error f =>
      have hf : f.isBusy = false := by simpa [Streamed.isBusy, hresult] using hfree
      change ∃ trap, ExecuteResponse.ending (.error f) = _ ∧ _
      rw [ExecuteResponse.ending, hf]
      exact ⟨[.trapped f.message], rfl, .inr ⟨_, rfl⟩⟩
  obtain ⟨trap, htrap, hshape⟩ := hending
  refine ⟨trap, ?_, hshape⟩
  rw [List.append_assoc, ← htrap]
  rfl

theorem redirects_compile {request : Step.compile.Request} {i : Invocation}
    (hi : SandboxRun.Prepared w request i) :
    i.stdout = .forward .diagnostic ∧ i.stderr = .forward .diagnostic := by
  obtain ⟨s, s', h⟩ := hi
  obtain ⟨_, _, _, _, -, -, -, hinvocation⟩ := prepareCompile_eq_ok.mp h
  rw [hinvocation]
  exact ⟨rfl, rfl⟩

theorem redirects_execute {request : Step.execute.Request} {i : Invocation}
    (hi : SandboxRun.Prepared w request i) :
    i.stdout = .forward .preview ∧ i.stderr = .forward .diagnostic := by
  obtain ⟨s, s', h⟩ := hi
  cases h
  exact ⟨rfl, rfl⟩

end Shapes

def worker (w : Workshop σ β) (step : Step) (world : Stages σ β)
    (actions : List (Station.Action step.Request StageWork.Task (Stages σ β))) :
    Station step.Request step.Response (StageWork step) (Stages σ β) :=
  (Station.start world).actAll (service w step) actions

/-- What the clients of a stage's worker can rely on, whoever posts to it, whatever happens to the
stages meanwhile, and however the tasks take turns. -/
structure Streaming (w : Workshop σ β) (step : Step) (stdout stderr : Redirect)
    (Whole : Execution → List step.Response → Prop) (world : Stages σ β) : Prop where
  redirects : ∀ (request : step.Request) i, SandboxRun.Prepared w request i →
    i.stdout = stdout ∧ i.stderr = stderr
  early : ∀ actions, ∀ h ∈ (worker w step world actions).handlings,
    h.work.run.execution? = none → h.outbox.sent = []
  /-- Whatever was replied so far is the beginning of the whole stream. -/
  meanwhile : ∀ actions, ∀ h ∈ (worker w step world actions).handlings,
    ∀ x, h.work.run.execution? = some x → SandboxRun.Outcome w h.work.request x ∧
      h.outbox.sent <+: replies w step h.work.request x ∧
      Whole x (replies w step h.work.request x)
  closed : ∀ actions, ∀ h ∈ (worker w step world actions).handlings, h.isClosed →
    ∃ x, h.work.run.execution? = some x ∧ SandboxRun.Outcome w h.work.request x ∧
      h.outbox.sent = replies w step h.work.request x ∧ Whole x h.outbox.sent
  closes : ∀ actions t, t < (worker w step world actions).mailbox.posted →
    ∀ schedule, Station.Fair schedule → ∃ n,
      let later := (worker w step world actions).along (service w step) schedule n
      (∃ h ∈ later.handlings, h.ticket = t ∧ h.isClosed) ∨ t ∈ later.mailbox.dropped

theorem streaming (w : Workshop σ β) (world : Stages σ β) {stdout stderr : Redirect}
    {Whole : Execution → List step.Response → Prop}
    (hredirects : ∀ (request : step.Request) i, SandboxRun.Prepared w request i →
      i.stdout = stdout ∧ i.stderr = stderr)
    (hwhole : ∀ (request : step.Request) x, SandboxRun.Outcome w request x →
      Whole x (replies w step request x)) :
    Streaming w step stdout stderr Whole world := by
  have hv := service_ends w step
  have hkept actions : ∀ h ∈ (worker w step world actions).handlings,
      (service w step).Kept (StageWork.Sound w) h := Station.kept_start hv.toKeeps world actions
  refine ⟨hredirects, fun actions h hm hx => (hkept actions h hm).1.nothing hx,
    fun actions h hm x hx => ?_, fun actions h hm hclosed => ?_,
    fun actions t ht schedule hfair => ?_⟩
  · have hk := (hkept actions h hm).1
    have houtcome := hk.origin.outcome hx
    exact ⟨houtcome, hk.beginning hx, hwhole _ _ houtcome⟩
  · obtain ⟨hk, hreturned⟩ := hkept actions h hm
    have hinactive := Handling.inactive_of_closed hclosed
    obtain ⟨x, hended, hsent⟩ := hk.whole (returned_iff.mp (hreturned hinactive))
    have hx := (SandboxRun.execution_of_ended step hended).1
    have houtcome := hk.origin.outcome hx
    exact ⟨x, hx, houtcome, hsent, hsent ▸ hwhole _ _ houtcome⟩
  · exact hfair.closes_or_drops hv (Station.orderly_actAll (Station.orderly_start world) _ _)
      (hkept actions) ht

/-- The workers of both stages forward all output as it comes, and then tell how the run ended. -/
theorem output_then_verdict (w : Workshop σ β) (world : Stages σ β) :
    Streaming w .compile (.forward .diagnostic) (.forward .diagnostic) CompilerStream world ∧
    Streaming w .execute (.forward .preview) (.forward .diagnostic)
      (fun x sent => x.isBusy = false → ProgramStream x sent) world :=
  ⟨streaming w world (fun _ _ => redirects_compile) fun request x _ =>
      compilerStream_replies w request x,
    streaming w world (fun _ _ => redirects_execute) fun request _ _ hfree =>
      programStream_replies w request hfree⟩

end Stages

namespace StageWork

def inTurn (n : Nat) : Station.Action step.Request Task (Stages σ β) :=
  match n.unpair.1.unpair with
  | (0, _) => .take
  | (1, i) => .leave i
  | (2, i) => .go i .handler
  | (3, i) => .go i .sandbox
  | (m + 4, i) => .go i (.relay m)

theorem fair_inTurn :
    Station.Fair (inTurn : Nat → Station.Action step.Request Task (Stages σ β)) := by
  have hturn (turn i n : Nat) {x : Station.Action step.Request Task (Stages σ β)}
      (hx : inTurn (Nat.pair (Nat.pair turn i) n) = x) : ∃ m, n ≤ m ∧ inTurn m = x :=
    ⟨_, Nat.right_le_pair (Nat.pair turn i) n, hx⟩
  refine ⟨fun n => hturn 0 0 n ?_, fun i task n => ?_, fun i n => hturn 1 i n ?_⟩
  · simp [inTurn]
  · cases task with
    | handler => exact hturn 2 i n (by simp [inTurn])
    | sandbox => exact hturn 3 i n (by simp [inTurn])
    | relay m => exact hturn (m + 4) i n (by simp [inTurn])
  · simp [inTurn]

end StageWork

def Workshop.trapping : Workshop Unit Unit where
  config := {}
  fetch := fun url => throw (.fetch url .notFound)
  backend := fun _ _ s =>
    (⟨.ok ⟨.trapped "stopped", "", "", []⟩, [⟨.preview, "a"⟩, ⟨.diagnostic, "b"⟩]⟩, s)

namespace Stages

def bare : Stages Unit Unit where
  toolchain := { archives := { source := () } }
  sandbox := ()

def trying : List (Station.Action ExecuteRequest StageWork.Task (Stages Unit Unit)) :=
  [.post 0 ⟨[]⟩, .take] ++ List.replicate 3 (.go 0 .handler) ++ [.go 0 .sandbox, .go 0 .sandbox] ++
    .go 0 (.relay 0) :: List.replicate 3 (.go 0 .sandbox) ++ List.replicate 3 (.go 0 .handler) ++
    [.go 0 (.relay 0), .go 0 (.relay 0)] ++ List.replicate 4 (.go 0 .handler) ++
    [.leave 0, .leave 0]

theorem output_then_verdict_trap :
    let s := worker .trapping .execute bare trying
    s.handlings.map (·.outbox.sent) =
      [[.preview "a", .stderr "b", .trapped "stopped", .done]] ∧
    (∀ h ∈ s.handlings, h.isClosed ∧ ∃ x, x.isBusy = false ∧ ProgramStream x h.outbox.sent) ∧
    ∃ n, let later := s.along (service .trapping .execute) StageWork.inTurn n
      (∃ h ∈ later.handlings, h.ticket = 0 ∧ h.isClosed) ∨ 0 ∈ later.mailbox.dropped := by
  intro s
  have hclosed : s.handlings.all fun h =>
      h.isClosed && h.work.run.execution?.all fun x => !x.isBusy := by
    decide +kernel
  obtain ⟨-, hstreaming⟩ := output_then_verdict .trapping bare
  refine ⟨by decide +kernel, fun h hm => ?_,
    hstreaming.closes trying 0 (by decide +kernel) _ StageWork.fair_inTurn⟩
  have hh := List.all_eq_true.mp hclosed h hm
  rw [Bool.and_eq_true] at hh
  obtain ⟨x, hx, -, -, hwhole⟩ := hstreaming.closed trying h hm hh.1
  have hfree : x.isBusy = false := by simpa [hx] using hh.2
  exact ⟨hh.1, x, hfree, hwhole hfree⟩

end Stages

end Buildbox
