import Buildbox.Pipeline.Basic
import Buildbox.Proofs.Pipeline.Exchanges

/-! The events of a run. Whatever the workers answer, they are one word of a fixed language: the
phases that were gone through, each with an end, and one of four endings behind them. -/

namespace Buildbox

namespace Answer

def Derives (answer : Answer TranspileResponse) (name text : String) : Prop :=
  ∃ earlier, answer = .ok (earlier ++ [.transpiled name text])

def Fails (answer : Answer CompileResponse) : Prop :=
  ∀ replies, answer = .ok replies → ∃ stderr, .failed stderr ∈ replies

def LastArtifact (replies : List CompileResponse) (bytes : Bytes) : Prop :=
  ∃ earlier later, replies = earlier ++ .compiled bytes :: later ∧ ∀ other, .compiled other ∉ later

def Builds (answer : Answer CompileResponse) (bytes : Bytes) : Prop :=
  ¬ answer.Fails ∧ ∃ replies, answer = .ok replies ∧ LastArtifact replies bytes

def EndsWell (answer : Answer ExecuteResponse) : Prop :=
  ∃ replies, answer = .ok replies ∧ ∀ message, .trapped message ∉ replies

end Answer

namespace Course

open Dialogue (Runs)

inductive Progress (n : Nat) : Nat → List Exchange → List PipelineEvent → Prop where
  | start :
    Progress n 0 [] [.stepStarted .transpile, .status (.transpiling 0 (UInt64.ofNat n))]
  | derived {k xs es request answer name text} (h : Progress n k xs es)
    (hd : Answer.Derives answer name text) :
    Progress n (k + 1) (xs ++ [.transpile request answer])
      (es ++ [.transpiled name text,
        .status (.transpiling (UInt64.ofNat (k + 1)) (UInt64.ofNat n))])

inductive TranspilePhase (n : Nat) : Bool → List Exchange → List PipelineEvent → Prop where
  | skipped (hn : n = 0) : TranspilePhase n true [] []
  | passed {xs es} (hn : 0 < n) (h : Progress n n xs es) :
    TranspilePhase n true xs (es ++ [finished .transpile true])
  | failed {k xs es request answer} {lines : List String} (hk : k < n) (h : Progress n k xs es)
    (hd : ∀ name text, ¬ Answer.Derives answer name text) (hl : lines ≠ []) :
    TranspilePhase n false (xs ++ [.transpile request answer])
      (es ++ (lines.map .diagnostic ++ [finished .transpile false]))

inductive CompilePhase : Option Build → Answer CompileResponse → List PipelineEvent → Prop where
  | failed {answer} {lines : List String} (hf : Answer.Fails answer) :
    CompilePhase none answer (.status .compiling :: .stepStarted .compile ::
      (lines.map .diagnostic ++ [finished .compile false]))
  | clean {answer} {lines : List String} (hf : ¬ Answer.Fails answer)
    (hb : ∀ bytes, ¬ Answer.Builds answer bytes) :
    CompilePhase (some .nothing) answer (.status .compiling :: .stepStarted .compile ::
      (lines.map .diagnostic ++ [finished .compile false]))
  | built {answer bytes} {lines : List String} (hb : Answer.Builds answer bytes) :
    CompilePhase (some (.artifact bytes)) answer (.status .compiling :: .stepStarted .compile ::
      (lines.map .diagnostic ++
        [.compiled (UInt64.ofNat bytes.length), finished .compile true]))

def ofProgram : PipelineEvent → Bool
  | .log _ | .preview _ | .diagnostic _ => true
  | _ => false

inductive ExecutePhase : Answer ExecuteResponse → List PipelineEvent → Prop where
  | ended {answer said ok} (hs : ∀ e ∈ said, ofProgram e = true)
    (hok : ok = true ↔ answer.EndsWell) :
    ExecutePhase answer (.status .running :: .stepStarted .execute ::
      (said ++ [finished .execute ok]))

/-- The words of the language, for a run over `n` sources with the given exchanges. -/
inductive Word (n : Nat) : List Exchange → List PipelineEvent → Prop where
  | transpileFailed {xs es} (ht : TranspilePhase n false xs es) :
    Word n xs (es ++ [.status .errored, .status .idle])
  | compileFailed {xs es request answer cs} (ht : TranspilePhase n true xs es)
    (hc : CompilePhase none answer cs) :
    Word n (xs ++ [.compile request answer]) (es ++ cs ++ [.status .errored, .status .idle])
  | nothingBuilt {xs es request answer cs} (ht : TranspilePhase n true xs es)
    (hc : CompilePhase (some .nothing) answer cs) :
    Word n (xs ++ [.compile request answer]) (es ++ cs ++ [.status .idle])
  | executed {xs es request answer bytes cs answer' rs} (ht : TranspilePhase n true xs es)
    (hc : CompilePhase (some (.artifact bytes)) answer cs) (he : ExecutePhase answer' rs) :
    Word n (xs ++ [.compile request answer, .execute ⟨bytes⟩ answer'])
      (es ++ cs ++ rs ++ [.status .idle, .done])

section Transpile

theorem derives_of_ok {filename name text : String} {answer : Answer TranspileResponse}
    (h : (answer.mapError Failure.message).bind (derived filename) = .ok (name, text)) :
    answer.Derives name text := by
  cases answer with
  | error f => cases h
  | ok replies =>
    change derived filename replies = _ at h
    rcases replies.eq_nil_or_concat with rfl | ⟨earlier, last, rfl⟩
    · cases h
    · rw [List.concat_eq_append, derived, List.getLast?_append] at h
      cases last with
      | failed stderr => cases h
      | transpiled name' text' =>
        cases h
        exact ⟨earlier, congrArg _ List.concat_eq_append⟩

theorem not_derives_of_error {filename stderr : String} {answer : Answer TranspileResponse}
    (h : (answer.mapError Failure.message).bind (derived filename) = .error stderr)
    (name text : String) : ¬ answer.Derives name text := by
  rintro ⟨earlier, rfl⟩
  change derived filename (earlier ++ [_]) = _ at h
  rw [derived, List.getLast?_append] at h
  cases h

theorem complaints_eq (stderr : String) :
    ∃ lines, lines ≠ [] ∧ complaints stderr = lines.map .diagnostic := by
  unfold complaints diagnostics
  cases hl : diagnosticLines stderr with
  | nil => exact ⟨["Transpile failed"], by simp, rfl⟩
  | cons line lines => exact ⟨line :: lines, by simp, rfl⟩

/-- The induction is on the sources that are left; `xs` and `es` are of those before them. -/
theorem transpileEach_phase {n k : Nat} {names : List String} {files : NameMap String}
    {xs ys : List Exchange} {es fs : List PipelineEvent} {result : Option (NameMap String)}
    (hn : 0 < n) (hk : k + names.length = n) (hp : Progress n k xs es)
    (h : (transpileEach n k names files).Runs ys fs result) :
    TranspilePhase n result.isSome (xs ++ ys) (es ++ fs) := by
  induction names generalizing k files xs ys es fs with
  | nil =>
    obtain ⟨_, hrest, rfl⟩ := h.reportAll_bind
    obtain ⟨rfl, rfl, rfl⟩ := hrest.pure
    obtain rfl : k = n := hk
    rw [List.append_nil]
    exact .passed hn hp
  | cons filename rest ih =>
    cases h with
    | @transpile _ _ answer ys fs _ h =>
      have hlt : k < n := by
        rw [← hk, List.length_cons]
        omega
      dsimp only at h
      cases hd : (answer.mapError Failure.message).bind (derived filename) with
      | error stderr =>
        rw [hd] at h
        obtain ⟨_, hrest, rfl⟩ := h.reportAll_bind
        obtain ⟨rfl, rfl, rfl⟩ := hrest.pure
        obtain ⟨lines, hl, hlines⟩ := complaints_eq stderr
        rw [List.append_nil, hlines]
        exact .failed hlt hp (not_derives_of_error hd) hl
      | ok p =>
        obtain ⟨name, text⟩ := p
        rw [hd] at h
        obtain ⟨_, hrest, rfl⟩ := h.reportAll_bind
        have hderived : Progress n (k + 1)
            (xs ++ [.transpile ⟨filename, (files.get? filename).getD ""⟩ answer]) _ :=
          hp.derived (derives_of_ok hd)
        have hnext := ih (by rw [← hk, List.length_cons]; omega) hderived hrest
        rwa [List.append_assoc, List.append_assoc] at hnext

theorem transpileAll_phase {ext : String} {files : NameMap String} {xs : List Exchange}
    {es : List PipelineEvent} {result : Option (NameMap String)}
    (h : (transpileAll ext files).Runs xs es result) :
    TranspilePhase (sources ext files).length result.isSome xs es := by
  unfold transpileAll at h
  cases hs : sources ext files with
  | nil =>
    rw [hs] at h
    obtain ⟨rfl, rfl, rfl⟩ := h.pure
    exact .skipped rfl
  | cons name names =>
    rw [hs] at h
    obtain ⟨_, hrest, rfl⟩ := h.reportAll_bind
    exact transpileEach_phase (Nat.succ_pos _) (Nat.zero_add _) .start hrest

end Transpile

section Compile

theorem lastArtifact_cons {reply : CompileResponse} {rest : List CompileResponse} {bytes : Bytes} :
    Answer.LastArtifact (reply :: rest) bytes ↔
      Answer.LastArtifact rest bytes ∨
        reply = .compiled bytes ∧ ∀ other, .compiled other ∉ rest := by
  constructor
  · rintro ⟨earlier, later, heq, hlater⟩
    cases earlier with
    | nil =>
      cases heq
      exact .inr ⟨rfl, hlater⟩
    | cons _ earlier =>
      cases heq
      exact .inl ⟨earlier, later, rfl, hlater⟩
  · rintro (⟨earlier, later, rfl, hlater⟩ | ⟨rfl, hlater⟩)
    · exact ⟨reply :: earlier, later, rfl, hlater⟩
    · exact ⟨[], rest, rfl, hlater⟩

theorem hearCompile_lines (h : CompileHearing) (replies : List CompileResponse) :
    ∃ lines : List String, (hearCompile h replies).1 = lines.map .diagnostic := by
  induction replies generalizing h with
  | nil => exact ⟨h.lines.finish.1.toList, rfl⟩
  | cons reply rest ih =>
    cases reply with
    | stderr text =>
      obtain ⟨lines, hlines⟩ := ih { h with lines := (h.lines.push text).2 }
      refine ⟨(h.lines.push text).1 ++ lines, ?_⟩
      rw [List.map_append, ← hlines]
      rfl
    | compiled bytes => exact ih _
    | failed stderr => exact ih _

theorem hearCompile_failure (h : CompileHearing) (replies : List CompileResponse) :
    (hearCompile h replies).2.failure.isSome ↔
      h.failure.isSome ∨ ∃ stderr, .failed stderr ∈ replies := by
  induction replies generalizing h with
  | nil => simp [hearCompile]
  | cons reply rest ih =>
    cases reply with
    | stderr text => simp [hearCompile, ih]
    | compiled bytes => simp [hearCompile, ih]
    | failed stderr => simp [hearCompile, ih]

theorem hearCompile_artifact (h : CompileHearing) (replies : List CompileResponse) (bytes : Bytes) :
    (hearCompile h replies).2.artifact = some bytes ↔
      Answer.LastArtifact replies bytes ∨
        h.artifact = some bytes ∧ ∀ other, .compiled other ∉ replies := by
  induction replies generalizing h with
  | nil => simp [hearCompile, Answer.LastArtifact]
  | cons reply rest ih =>
    cases reply with
    | stderr text => simp [hearCompile, ih, lastArtifact_cons]
    | compiled other =>
      have hcons : ¬ ∀ o, CompileResponse.compiled o ∉ .compiled other :: rest :=
        fun hno => hno other List.mem_cons_self
      simp only [hearCompile, ih, lastArtifact_cons, hcons, and_false, or_false,
        Option.some.injEq, CompileResponse.compiled.injEq]
    | failed stderr => simp [hearCompile, ih, lastArtifact_cons]

theorem fails_ok {replies : List CompileResponse} :
    Answer.Fails (.ok replies) ↔ (hearCompile {} replies).2.failure.isSome := by
  rw [hearCompile_failure, or_iff_right (by simp)]
  exact ⟨fun hf => hf replies rfl, fun hf _ heq => Except.ok.inj heq ▸ hf⟩

theorem builds_ok {replies : List CompileResponse} {bytes : Bytes} :
    Answer.Builds (.ok replies) bytes ↔
      (hearCompile {} replies).2.failure = none ∧
        (hearCompile {} replies).2.artifact = some bytes := by
  rw [hearCompile_artifact, or_iff_left (by simp), Answer.Builds, fails_ok,
    Option.not_isSome_iff_eq_none]
  simp

theorem compile_phase {files : NameMap String} {xs : List Exchange} {es : List PipelineEvent}
    {build : Option Build} (h : (compile files).Runs xs es build) :
    ∃ answer, xs = [.compile ⟨files⟩ answer] ∧ CompilePhase build answer es := by
  obtain ⟨_, hasked, rfl⟩ := h.reportAll_bind
  cases hasked with
  | @compile _ _ answer _ _ _ h =>
    refine ⟨answer, ?_⟩
    cases answer with
    | error f =>
      obtain ⟨_, hrest, rfl⟩ := h.reportAll_bind
      obtain ⟨rfl, rfl, rfl⟩ := hrest.pure
      rw [List.append_nil]
      exact ⟨rfl, .failed fun _ heq => by cases heq⟩
    | ok replies =>
      obtain ⟨lines, hlines⟩ := hearCompile_lines {} replies
      obtain ⟨_, hrest, rfl⟩ := h.reportAll_bind
      obtain ⟨rfl, rfl, rfl⟩ := hrest.pure
      refine ⟨rfl, ?_⟩
      rw [List.append_nil, hlines]
      cases hf : (hearCompile {} replies).2.failure with
      | some stderr =>
        have hfails : Answer.Fails (.ok replies) := fails_ok.mpr (by rw [hf]; rfl)
        let all := lines ++ (diagnosticLines (stderr.getD "") ++ ["Compilation failed."])
        have hphase : CompilePhase none (.ok replies) (.status .compiling ::
            .stepStarted .compile :: (all.map .diagnostic ++ [finished .compile false])) :=
          .failed hfails
        simpa [diagnostics, all] using hphase
      | none =>
        have hclean : ¬ Answer.Fails (.ok replies) := by
          rw [fails_ok, hf]
          exact Bool.false_ne_true
        cases ha : (hearCompile {} replies).2.artifact with
        | some bytes => exact .built (builds_ok.mpr ⟨hf, ha⟩)
        | none =>
          refine .clean hclean fun bytes hb => ?_
          rw [builds_ok, ha] at hb
          cases hb.2

end Compile

section Execute

theorem hearExecute_ofProgram (h : ExecuteHearing) (replies : List ExecuteResponse) :
    ∀ e ∈ (hearExecute h replies).1, ofProgram e := by
  induction replies generalizing h with
  | nil => simp [hearExecute, ofProgram]
  | cons reply rest ih =>
    cases reply with
    | stderr text => simpa [hearExecute, or_imp, forall_and, ofProgram] using ih _
    | preview text => simpa [hearExecute, ofProgram] using ih _
    | trapped message =>
      simpa [hearExecute, diagnostics, or_imp, forall_and, ofProgram] using ih _
    | done => exact ih h

theorem hearExecute_trapped (h : ExecuteHearing) (replies : List ExecuteResponse) :
    (hearExecute h replies).2.trapped ↔ h.trapped ∨ ∃ message, .trapped message ∈ replies := by
  induction replies generalizing h with
  | nil => simp [hearExecute]
  | cons reply rest ih =>
    cases reply with
    | stderr text => simp [hearExecute, ih]
    | preview text => simp [hearExecute, ih]
    | trapped message => simp [hearExecute, ih]
    | done => simp [hearExecute, ih]

theorem execute_phase {artifact : Bytes} {xs : List Exchange} {es : List PipelineEvent} {u : Unit}
    (h : (execute artifact).Runs xs es u) :
    ∃ answer, xs = [.execute ⟨artifact⟩ answer] ∧ ExecutePhase answer es := by
  obtain ⟨_, hasked, rfl⟩ := h.reportAll_bind
  cases hasked with
  | @execute _ _ answer _ _ _ h =>
    refine ⟨answer, ?_⟩
    cases answer with
    | error f =>
      obtain ⟨rfl, rfl⟩ := h.reportAll
      refine ⟨rfl, .ended ?_ (iff_of_false Bool.false_ne_true ?_)⟩
      · simp [diagnostics, ofProgram]
      · rintro ⟨_, heq, -⟩
        cases heq
    | ok replies =>
      obtain ⟨rfl, rfl⟩ := h.reportAll
      refine ⟨rfl, .ended (hearExecute_ofProgram {} replies) ?_⟩
      have htrapped := hearExecute_trapped {} replies
      simp [Answer.EndsWell, ← Bool.not_eq_true, htrapped]

end Execute

theorem run_word {ext : String} {files : NameMap String} {xs : List Exchange}
    {es last : List PipelineEvent} (h : (run ext files).Runs xs es last) :
    Word (sources ext files).length xs (es ++ last) := by
  obtain ⟨xs₁, es₁, derived, _, _, htranspile, h, rfl, rfl⟩ := h.bind
  have ht := transpileAll_phase htranspile
  cases derived with
  | none =>
    obtain ⟨rfl, rfl, rfl⟩ := h.pure
    rw [List.append_nil, List.append_nil]
    exact .transpileFailed ht
  | some files' =>
    obtain ⟨xs₂, es₂, build, _, _, hcompile, h, rfl, rfl⟩ := h.bind
    obtain ⟨answer, rfl, hc⟩ := compile_phase hcompile
    rcases build with _ | bytes | _
    · obtain ⟨rfl, rfl, rfl⟩ := h.pure
      rw [List.append_nil, List.append_nil]
      exact .compileFailed ht hc
    · obtain ⟨_, _, _, _, _, hexecute, hend, rfl, rfl⟩ := h.bind
      obtain ⟨answer', rfl, he⟩ := execute_phase hexecute
      obtain ⟨rfl, rfl, rfl⟩ := hend.pure
      have hword : Word _ (xs₁ ++ [.compile ⟨files'⟩ answer, .execute ⟨bytes⟩ answer']) _ :=
        .executed ht hc he
      simpa using hword
    · obtain ⟨rfl, rfl, rfl⟩ := h.pure
      rw [List.append_nil, List.append_nil]
      exact .nothingBuilt ht hc

end Course

end Buildbox
