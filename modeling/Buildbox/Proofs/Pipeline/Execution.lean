import Buildbox.Proofs.Pipeline.InTurn

/-! When an artifact is executed. How the compiler ended is told by its stage, mapped to replies
by the worker, heard by the driver and judged by the run; what the compiler left gets through all
of them, and nothing else does. -/

namespace Buildbox

/-- The compiler exited with zero, and left these bytes as its artifact, and not none. -/
def Leaves (c : CompileConfig) (x : Execution) (bytes : Bytes) : Prop :=
  ∃ report, x.result = .ok report ∧ report.status = .exited 0 ∧
    (report.mounts.get? ".").bind (·.read? (c.outputName ++ ".wasm")) = some bytes ∧ bytes ≠ []

section Artifact

variable {c : CompileConfig} {x : Execution} {bytes other : Bytes}

theorem Leaves.unique (h : Leaves c x bytes) (ho : Leaves c x other) : bytes = other := by
  obtain ⟨report, hx, -, hread, -⟩ := h
  obtain ⟨report', hx', -, hread', -⟩ := ho
  obtain rfl := Except.ok.inj (hx.symm.trans hx')
  exact Option.some.inj (hread.symm.trans hread')

theorem Artifact.find_eq_artifact {mounts : MountTable} :
    find c mounts = .artifact bytes ↔
      (mounts.get? ".").bind (·.read? (c.outputName ++ ".wasm")) = some bytes ∧ bytes ≠ [] := by
  change find c mounts = .artifact bytes ↔
    (mounts.get? workMount).bind (·.read? c.artifactName) = some bytes ∧ bytes ≠ []
  unfold find
  rcases (mounts.get? workMount).bind (·.read? c.artifactName) with _ | _ | ⟨b, rest⟩
  · simp
  · simp [eq_comm]
  · simp only [Build.artifact.injEq, Option.some.injEq]
    exact ⟨fun h => ⟨h, h ▸ List.cons_ne_nil b rest⟩, fun h => h.1⟩

theorem Artifact.judge_eq_artifact {report : RunReport} {chunks : List OutputChunk} :
    judge c report chunks = .ok (.artifact bytes) ↔ report.status = .exited 0 ∧
      (report.mounts.get? ".").bind (·.read? (c.outputName ++ ".wasm")) = some bytes ∧
        bytes ≠ [] := by
  rw [← find_eq_artifact]
  unfold judge
  cases report.status with
  | exited code =>
    by_cases hcode : code = 0
    · simp [hcode]
    · cases Text.isBlankText (textOf chunks) <;> simp [hcode]
  | trapped message => simp
  | timedOut afterMs => simp

theorem lastArtifact_stderr {chunks : List OutputChunk} {rest : List CompileResponse} :
    Answer.LastArtifact (chunks.map (fun chunk => .stderr chunk.text) ++ rest) bytes ↔
      Answer.LastArtifact rest bytes := by
  induction chunks with
  | nil => rfl
  | cons chunk chunks ih =>
    rw [List.map_cons, List.cons_append, Course.lastArtifact_cons, ih]
    simp

theorem lastArtifact_nil : ¬ Answer.LastArtifact [] bytes := by
  rintro ⟨earlier, later, heq, -⟩
  simp at heq

theorem builds_ofStreamed {out : Streamed Build} :
    Answer.Builds (.ok (CompileResponse.ofStreamed out)) bytes ↔
      out.result = .ok (.artifact bytes) := by
  have hfails : Answer.Fails (.ok (CompileResponse.ofStreamed out)) ↔
      ∃ stderr, .failed stderr ∈ CompileResponse.verdict out.result := by
    simp [Answer.Fails, CompileResponse.ofStreamed]
  have hlast : Answer.LastArtifact (CompileResponse.ofStreamed out) bytes ↔
      Answer.LastArtifact (CompileResponse.verdict out.result) bytes := lastArtifact_stderr
  have hbuilds : Answer.Builds (.ok (CompileResponse.ofStreamed out)) bytes ↔
      (¬ ∃ stderr, .failed stderr ∈ CompileResponse.verdict out.result) ∧
        Answer.LastArtifact (CompileResponse.verdict out.result) bytes := by
    rw [← hlast, ← hfails]
    simp [Answer.Builds]
  rw [hbuilds]
  cases out.result with
  | ok build =>
    cases build with
    | artifact b =>
      simp [CompileResponse.verdict, Course.lastArtifact_cons, lastArtifact_nil]
    | nothing => simp [CompileResponse.verdict, lastArtifact_nil]
  | error f =>
    refine iff_of_false ?_ fun h => by cases h
    rintro ⟨hno, hlast⟩
    cases f with
    | busy stage => exact lastArtifact_nil hlast
    | _ => exact hno ⟨_, List.mem_singleton_self _⟩

theorem builds_replies {σ β : Type} {w : Workshop σ β} {r : CompileRequest} :
    Answer.Builds (.ok (Stages.replies w .compile r x)) bytes ↔
      Leaves w.config.compile x bytes := by
  dsimp only [Stages.replies]
  rw [builds_ofStreamed]
  dsimp only
  cases hx : x.result with
  | error f => simp [Leaves, hx, Except.bind]
  | ok report =>
    change Artifact.judge _ report _ = _ ↔ _
    rw [Artifact.judge_eq_artifact]
    simp [Leaves, hx]

end Artifact

namespace Course

theorem TranspilePhase.only {n : Nat} {ok : Bool} {xs : List Exchange} {es : List PipelineEvent}
    (h : TranspilePhase n ok xs es) : ∀ x ∈ xs, ∃ r answer, x = .transpile r answer := by
  have hprogress {k : Nat} {xs : List Exchange} {es : List PipelineEvent}
      (h : Progress n k xs es) : ∀ x ∈ xs, ∃ r answer, x = .transpile r answer := by
    induction h with
    | start => exact fun _ hx => absurd hx List.not_mem_nil
    | derived h hd ih =>
      intro x hx
      rcases List.mem_append.mp hx with hx | hx
      · exact ih x hx
      · exact ⟨_, _, List.mem_singleton.mp hx⟩
  cases h with
  | skipped hn => exact fun _ hx => absurd hx List.not_mem_nil
  | passed hn h => exact hprogress h
  | failed hk h hd hl =>
    intro x hx
    rcases List.mem_append.mp hx with hx | hx
    · exact hprogress h x hx
    · exact ⟨_, _, List.mem_singleton.mp hx⟩

end Course

namespace Visit

variable {σ β : Type} {w : Workshop σ β} {v : Visit}

theorem step_of_transpile {r : TranspileRequest} {answer : Answer TranspileResponse}
    (h : v.exchange = .transpile r answer) : v.step = .transpile := by
  obtain ⟨step, request, run, replies⟩ := v
  cases step <;> cases h
  rfl

theorem eq_of_compile {r : CompileRequest} {answer : Answer CompileResponse}
    (h : v.exchange = .compile r answer) :
    ∃ run replies, v = ⟨.compile, r, run, replies⟩ ∧ answer = .ok replies := by
  obtain ⟨step, request, run, replies⟩ := v
  cases step <;> cases h
  exact ⟨run, replies, rfl, rfl⟩

theorem eq_of_execute {r : ExecuteRequest} {answer : Answer ExecuteResponse}
    (h : v.exchange = .execute r answer) : ∃ run replies, v = ⟨.execute, r, run, replies⟩ := by
  obtain ⟨step, request, run, replies⟩ := v
  cases step <;> cases h
  exact ⟨run, replies, rfl⟩

inductive Ending (w : Workshop σ β) : List Visit → Prop where
  | stopped : Ending w []
  | refused {r replies} : Ending w [⟨.compile, r, none, replies⟩]
  | unbuilt {r i x replies} (hx : ∀ bytes, ¬ Leaves w.config.compile x bytes) :
    Ending w [⟨.compile, r, some (i, x), replies⟩]
  | executed {r i x bytes replies run replies'} (hx : Leaves w.config.compile x bytes) :
    Ending w [⟨.compile, r, some (i, x), replies⟩, ⟨.execute, ⟨bytes⟩, run, replies'⟩]

theorem ending_unbuilt {r : CompileRequest} {run : Option (Invocation × Execution)}
    {replies : List CompileResponse} (hh : Handled w ⟨.compile, r, run, replies⟩)
    (hb : ∀ bytes, ¬ Answer.Builds (.ok replies) bytes) :
    Ending w [⟨.compile, r, run, replies⟩] := by
  cases hh with
  | ran => exact .unbuilt fun bytes hx => hb bytes (builds_replies.mpr hx)
  | refused => exact .refused

theorem ending_executed {r : CompileRequest} {run run' : Option (Invocation × Execution)}
    {replies : List CompileResponse} {bytes : Bytes} {replies' : List ExecuteResponse}
    (hh : Handled w ⟨.compile, r, run, replies⟩) (hb : Answer.Builds (.ok replies) bytes) :
    Ending w [⟨.compile, r, run, replies⟩, ⟨.execute, ⟨bytes⟩, run', replies'⟩] := by
  cases hh with
  | ran => exact .executed (builds_replies.mp hb)
  | refused =>
    obtain ⟨report, hx, -⟩ := builds_replies.mp hb
    cases hx

end Visit

namespace Stages

variable {σ β : Type}

theorem visits_ending (w : Workshop σ β) (ext : String) (files : NameMap String)
    (s : Stages σ β) :
    ∃ before ending, visits w (Course.run ext files) s = before ++ ending ∧
      (∀ v ∈ before, v.step = .transpile) ∧ Visit.Ending w ending := by
  obtain ⟨es, hword⟩ : ∃ es, Course.Word (Course.sources ext files).length
      ((visits w (Course.run ext files) s).map Visit.exchange) es :=
    ⟨_, Course.run_word (runs_visits _ s)⟩
  have hhandled : ∀ v ∈ visits w (Course.run ext files) s, v.Handled w := handled_visits _ s
  generalize visits w (Course.run ext files) s = vs at hword hhandled
  generalize hxs : vs.map Visit.exchange = xs at hword
  have htranspile {n : Nat} {ok : Bool} {before : List Visit} {es : List PipelineEvent}
      (h : Course.TranspilePhase n ok (before.map Visit.exchange) es) :
      ∀ v ∈ before, v.step = .transpile := by
    intro v hv
    obtain ⟨r, answer, hx⟩ := h.only _ (List.mem_map_of_mem hv)
    exact Visit.step_of_transpile hx
  -- The word of the run says which exchanges there were, and each is that of a visit.
  cases hword with
  | transpileFailed ht =>
    subst hxs
    exact ⟨vs, [], (List.append_nil vs).symm, htranspile ht, .stopped⟩
  | compileFailed ht hc =>
    obtain ⟨before, tail, rfl, rfl, htail⟩ := List.map_eq_append_iff.mp hxs
    obtain ⟨v, rfl, hv⟩ := List.map_eq_singleton_iff.mp htail
    obtain ⟨run, replies, rfl, rfl⟩ := Visit.eq_of_compile hv
    refine ⟨before, _, rfl, htranspile ht, Visit.ending_unbuilt (hhandled _ (by simp)) ?_⟩
    cases hc with
    | failed hf => exact fun bytes hb => hb.1 hf
  | nothingBuilt ht hc =>
    obtain ⟨before, tail, rfl, rfl, htail⟩ := List.map_eq_append_iff.mp hxs
    obtain ⟨v, rfl, hv⟩ := List.map_eq_singleton_iff.mp htail
    obtain ⟨run, replies, rfl, rfl⟩ := Visit.eq_of_compile hv
    refine ⟨before, _, rfl, htranspile ht, Visit.ending_unbuilt (hhandled _ (by simp)) ?_⟩
    cases hc with
    | clean hf hb => exact hb
  | executed ht hc he =>
    obtain ⟨before, tail, rfl, rfl, htail⟩ := List.map_eq_append_iff.mp hxs
    obtain ⟨v, tail, rfl, hv, htail⟩ := List.map_eq_cons_iff.mp htail
    obtain ⟨v', rfl, hv'⟩ := List.map_eq_singleton_iff.mp htail
    obtain ⟨run, replies, rfl, rfl⟩ := Visit.eq_of_compile hv
    obtain ⟨run', replies', rfl⟩ := Visit.eq_of_execute hv'
    refine ⟨before, _, rfl, htranspile ht, Visit.ending_executed (hhandled _ (by simp)) ?_⟩
    cases hc with
    | built hb => exact hb

end Stages

def Letter.step : Letter → Step
  | .asked step _ => step
  | .ran step _ _ => step
  | .answered step _ => step

namespace Visit

variable {σ β : Type} {w : Workshop σ β} {v : Visit} {before ending : List Visit} {l : Letter}

theorem step_of_mem_letters (h : l ∈ v.letters) : l.step = v.step := by
  rcases List.mem_cons.mp h with rfl | h
  · rfl
  · rcases List.mem_append.mp h with h | h
    · obtain ⟨⟨i, x⟩, -, rfl⟩ := List.mem_map.mp h
      rfl
    · rw [List.mem_singleton.mp h]
      rfl

theorem step_of_transpiling (hb : ∀ v ∈ before, v.step = .transpile)
    (h : l ∈ before.flatMap letters) : l.step = .transpile := by
  obtain ⟨v, hv, hl⟩ := List.mem_flatMap.mp h
  exact (step_of_mem_letters hl).trans (hb v hv)

theorem Ending.asked {bytes : Bytes} (h : Ending w ending)
    (ha : .asked .execute ⟨bytes⟩ ∈ ending.flatMap letters) :
    ∃ first later i x, ending.flatMap letters = first ++ later ∧
      .asked .execute ⟨bytes⟩ ∉ first ∧ .ran .compile i x ∈ first ∧
        Leaves w.config.compile x bytes := by
  cases h with
  | stopped => cases ha
  | refused => simp [letters, runLetters] at ha
  | unbuilt hx => simp [letters, runLetters] at ha
  | @executed r i x built replies run replies' hx =>
    obtain rfl : bytes = built := by simpa [letters, runLetters] using ha
    let first : List Letter := [.asked .compile r, .ran .compile i x, .answered .compile replies]
    refine ⟨first, letters ⟨.execute, ⟨bytes⟩, run, replies'⟩, i, x, ?_, ?_, ?_, hx⟩
    · simp [first, letters, runLetters]
    · simp [first]
    · simp [first]

theorem Ending.ran {bytes : Bytes} {i : Invocation} {x : Execution} (h : Ending w ending)
    (hr : .ran .compile i x ∈ ending.flatMap letters) :
    .asked .execute ⟨bytes⟩ ∈ ending.flatMap letters ↔ Leaves w.config.compile x bytes := by
  cases h with
  | stopped => cases hr
  | refused => simp [letters, runLetters] at hr
  | unbuilt hx =>
    obtain ⟨rfl, rfl⟩ := by simpa [letters, runLetters] using hr
    exact iff_of_false (by simp [letters, runLetters]) (hx bytes)
  | @executed r i x built replies run replies' hx =>
    obtain ⟨rfl, rfl⟩ := by simpa [letters, runLetters] using hr
    have hasked : .asked .execute ⟨bytes⟩ ∈ [⟨.compile, r, some (i, x), replies⟩,
        ⟨.execute, ⟨built⟩, run, replies'⟩].flatMap letters ↔ bytes = built := by
      simp [letters, runLetters]
    rw [hasked]
    exact ⟨fun heq => heq ▸ hx, fun hb => hb.unique hx⟩

end Visit

namespace Stages

variable {σ β : Type} {w : Workshop σ β} {ext : String} {files : NameMap String}
  {s : Stages σ β} {bytes : Bytes}

theorem ran_of_asked {log : List Letter}
    (hlog : log <+: (visits w (Course.run ext files) s).flatMap Visit.letters)
    (ha : .asked .execute ⟨bytes⟩ ∈ log) :
    ∃ i x, .ran .compile i x ∈ log ∧ Leaves w.config.compile x bytes := by
  obtain ⟨before, ending, hvs, hb, he⟩ := visits_ending w ext files s
  have hbefore : .asked .execute ⟨bytes⟩ ∉ before.flatMap Visit.letters := fun h => by
    cases Visit.step_of_transpiling hb h
  rw [hvs, List.flatMap_append] at hlog
  have hending := (List.mem_append.mp (hlog.subset ha)).resolve_left hbefore
  obtain ⟨first, later, i, x, hsplit, hfirst, hran, hx⟩ := he.asked hending
  rw [hsplit, ← List.append_assoc] at hlog
  -- What has the request in it is longer than all that comes before the request.
  have hpassed : before.flatMap Visit.letters ++ first <+: log := by
    refine (List.prefix_or_prefix_of_prefix hlog (List.prefix_append _ _)).resolve_left ?_
    intro hshort
    exact (List.mem_append.mp (hshort.subset ha)).elim hbefore hfirst
  exact ⟨i, x, hpassed.subset (List.mem_append_right _ hran), hx⟩

theorem asked_iff_of_ran {i : Invocation} {x : Execution}
    (hr : .ran .compile i x ∈ (visits w (Course.run ext files) s).flatMap Visit.letters) :
    .asked .execute ⟨bytes⟩ ∈ (visits w (Course.run ext files) s).flatMap Visit.letters ↔
      Leaves w.config.compile x bytes := by
  obtain ⟨before, ending, hvs, hb, he⟩ := visits_ending w ext files s
  have hbefore {l : Letter} (hl : l.step ≠ .transpile) : l ∉ before.flatMap Visit.letters :=
    fun h => hl (Visit.step_of_transpiling hb h)
  rw [hvs, List.flatMap_append] at hr ⊢
  have hending := (List.mem_append.mp hr).resolve_left (hbefore nofun)
  have hasked : Letter.asked .execute ⟨bytes⟩ ∉ before.flatMap Visit.letters := hbefore nofun
  rw [List.mem_append, or_iff_right hasked, he.ran hending]

end Stages

namespace Floor

variable {σ β : Type}

/-- Bytes are executed in a run just if the compiler was run, exited with zero and left them, not
none, as its artifact. In whatever order the tasks go on, no execution is asked for before; and
when the run lets the next one in, it was asked for. -/
theorem executed_iff_artifact_left (w : Workshop σ β) (files : NameMap String) :
    let c := w.config.compile
    let course := Course.run w.config.transpile.sourceExt files
    (∀ s bytes,
      let letters := (Stages.visits w course s).flatMap Visit.letters
      .asked .execute ⟨bytes⟩ ∈ letters ↔ ∃ i x, .ran .compile i x ∈ letters ∧ Leaves c x bytes) ∧
    ∀ toolchain sandbox before after,
      let f := (start toolchain sandbox).actAll w before
      f.pipeline.inFlight = false →
      let g := (f.ask w files).actAll w after
      let log := (f.ask w files).log w f.drivers.length after
      (∀ bytes, .asked .execute ⟨bytes⟩ ∈ log →
        ∃ i x, .ran .compile i x ∈ log ∧ Leaves c x bytes) ∧
      ∃ d, g.drivers[f.drivers.length]? = some d ∧ (d.turn.Left →
        ∀ i x, .ran .compile i x ∈ log →
          ∀ bytes, .asked .execute ⟨bytes⟩ ∈ log ↔ Leaves c x bytes) := by
  intro c course
  constructor
  · intro s bytes letters
    constructor
    · exact Stages.ran_of_asked List.prefix_rfl
    · rintro ⟨i, x, hran, hx⟩
      exact (Stages.asked_iff_of_ran hran).mpr hx
  · intro toolchain sandbox before after f hf g log
    have ho : f.Orderly := orderly_actAll (orderly_start toolchain sandbox) w before
    obtain ⟨d, hd, htracks⟩ := tracks_run ho hf w files after
    refine ⟨fun bytes => Stages.ran_of_asked htracks.log_le, d, hd, fun hleft i x hran bytes => ?_⟩
    have hlog : log = (Stages.visits w course f.pipeline.stages).flatMap Visit.letters :=
      htracks.log_of_left hleft
    rw [hlog] at hran ⊢
    exact Stages.asked_iff_of_ran hran

end Floor

def Workshop.building : Workshop Unit Unit where
  config := {}
  fetch := fun url => throw (.fetch url .notFound)
  backend := fun _ _ s =>
    let left := (Directory.empty.insertFile "main.wasm" [1, 2]).2
    (⟨.ok ⟨.exited 0, "", "", [⟨".", left⟩]⟩, []⟩, s)

namespace Floor

def soleBuild (replies later : Nat) : List Action :=
  List.replicate 3 (.advance 0) ++ .take .compile ::
    List.replicate (replies + 5) (.work .compile 0) ++ List.replicate later (.advance 0)

theorem executed_iff_artifact_left_built :
    let w := Workshop.building
    let f := start Toolchain.stocked ()
    let log := (f.ask w .empty).log w 0 (soleBuild 1 6)
    f.pipeline.inFlight = false ∧ .asked .execute ⟨[1, 2]⟩ ∈ log ∧
      ∃ i x, .ran .compile i x ∈ log ∧ Leaves w.config.compile x [1, 2] := by
  obtain ⟨-, hfloor⟩ := executed_iff_artifact_left Workshop.building .empty
  refine ⟨by rfl, ?asked, (hfloor Toolchain.stocked () [] _ rfl).1 [1, 2] ?asked⟩
  exact List.mem_of_getElem? (i := 3) (by rfl)

end Floor

end Buildbox
