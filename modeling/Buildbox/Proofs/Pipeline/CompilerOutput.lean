import Buildbox.Proofs.Pipeline.Execution
import Buildbox.Proofs.Text.LineBuffers

/-! What is reported of a compiler that fails. Its output arrives in pieces, and the run reports
the lines of the whole; the reason that the stage gives is not passed on, since the output has
told it, unless it showed nothing. -/

namespace Buildbox

namespace CompileResponse

def printed : CompileResponse → List Char
  | .stderr text => text.toList
  | _ => []

def failedAfter (chunks : List OutputChunk) : List CompileResponse :=
  chunks.map (fun chunk => .stderr chunk.text) ++ [.failed none]

theorem printed_failedAfter (chunks : List OutputChunk) :
    (failedAfter chunks).flatMap printed = (Artifact.textOf chunks).toList := by
  rw [failedAfter, Artifact.textOf, String.toList_join, List.flatMap_append, List.flatMap_map,
    List.flatMap_map]
  simp [printed]

end CompileResponse

namespace Course

open CompileResponse

theorem hearCompile_eq_lines {h : CompileHearing} (ho : '\n' ∉ h.lines.pending)
    (replies : List CompileResponse) :
    (hearCompile h replies).1 =
      ((Text.lines (h.lines.pending ++ replies.flatMap printed)).map String.ofList).map
        .diagnostic := by
  induction replies generalizing h with
  | nil =>
    rw [List.flatMap_nil, List.append_nil, ← LineBuffer.finish_lines ho]
    rfl
  | cons reply rest ih =>
    cases reply with
    | stderr text =>
      have hlater := ih (h := { h with lines := (h.lines.push text).2 }) (h.lines.push_open text)
      have hpushed := h.lines.push_lines text (rest.flatMap printed)
      rw [List.append_assoc] at hpushed
      rw [List.flatMap_cons, printed, hpushed, List.map_append, ← hlater]
      rfl
    | compiled bytes => exact ih ho
    | failed stderr => exact ih ho

theorem hearCompile_failedAfter (h : CompileHearing) (chunks : List OutputChunk) :
    (hearCompile h (failedAfter chunks)).2.failure = some none := by
  unfold failedAfter
  induction chunks generalizing h with
  | nil => rfl
  | cons chunk chunks ih => exact ih _

def failedReport (output : String) : List PipelineEvent :=
  [.status .compiling, .stepStarted .compile] ++ diagnostics output ++
    [.diagnostic "Compilation failed.", finished .compile false]

theorem compile_failedAfter {files : NameMap String} {chunks : List OutputChunk}
    {r : CompileRequest} {es : List PipelineEvent} {build : Option Build}
    (h : (compile files).Runs [.compile r (.ok (failedAfter chunks))] es build) :
    es = failedReport (Artifact.textOf chunks) ∧ build = none := by
  obtain ⟨_, hasked, rfl⟩ := h.reportAll_bind
  cases hasked with
  | compile h =>
    obtain ⟨_, hrest, rfl⟩ := h.reportAll_bind
    obtain ⟨-, rfl, rfl⟩ := hrest.pure
    have hheard : (hearCompile {} (failedAfter chunks)).1 =
        diagnostics (Artifact.textOf chunks) := by
      rw [hearCompile_eq_lines List.not_mem_nil, printed_failedAfter]
      rfl
    have hnothing : diagnostics (Option.getD none "") = [] := rfl
    rw [hheard, hearCompile_failedAfter]
    dsimp only
    rw [hnothing]
    exact ⟨by simp [failedReport], rfl⟩

theorem run_failedAfter {ext : String} {files : NameMap String} {chunks : List OutputChunk}
    {r : CompileRequest} {xs : List Exchange} {es last : List PipelineEvent}
    (h : (run ext files).Runs xs es last) (hx : .compile r (.ok (failedAfter chunks)) ∈ xs) :
    last = errored ∧ ∃ earlier, es = earlier ++ failedReport (Artifact.textOf chunks) := by
  obtain ⟨xs₁, es₁, derived, _, _, htranspile, h, rfl, rfl⟩ := h.bind
  have hx₁ : .compile r (.ok (failedAfter chunks)) ∉ xs₁ := by
    intro hmem
    obtain ⟨_, _, heq⟩ := (transpileAll_phase htranspile).only _ hmem
    cases heq
  have hx₂ := (List.mem_append.mp hx).resolve_left hx₁
  cases derived with
  | none =>
    obtain ⟨rfl, -, -⟩ := h.pure
    cases hx₂
  | some merged =>
    obtain ⟨xs₂, es₂, build, _, _, hcompile, h, rfl, rfl⟩ := h.bind
    obtain ⟨answer, rfl, -⟩ := compile_phase hcompile
    -- A build that failed is the last thing that was asked for.
    rcases build with _ | bytes | _
    · obtain ⟨rfl, rfl, rfl⟩ := h.pure
      obtain ⟨-, rfl⟩ : r = ⟨merged⟩ ∧ .ok (failedAfter chunks) = answer := by simpa using hx₂
      obtain ⟨rfl, -⟩ := compile_failedAfter hcompile
      exact ⟨rfl, es₁, by rw [List.append_nil]⟩
    · obtain ⟨_, _, _, _, _, hexecute, hend, rfl, rfl⟩ := h.bind
      obtain ⟨answer', rfl, -⟩ := execute_phase hexecute
      obtain ⟨rfl, -, -⟩ := hend.pure
      obtain ⟨-, rfl⟩ : r = ⟨merged⟩ ∧ .ok (failedAfter chunks) = answer := by simpa using hx₂
      cases (compile_failedAfter hcompile).2
    · obtain ⟨rfl, -, -⟩ := h.pure
      obtain ⟨-, rfl⟩ : r = ⟨merged⟩ ∧ .ok (failedAfter chunks) = answer := by simpa using hx₂
      cases (compile_failedAfter hcompile).2

end Course

namespace Artifact

variable {c : CompileConfig} {report : RunReport} {chunks : List OutputChunk} {code : Int32}

def failureText (code : Int32) (output : String) : String :=
  if Text.isBlankText output then "compiler exited with code " ++ toString code.toInt else output

theorem judge_of_exited (hs : report.status = .exited code) (hc : code ≠ 0) :
    judge c report chunks = .error (.compile (failureText code (textOf chunks))) := by
  unfold judge failureText
  rw [hs]
  dsimp only
  rw [if_neg hc]
  cases Text.isBlankText (textOf chunks) <;> rfl

theorem failureText_not_blank (code : Int32) (output : String) :
    Text.isBlankText (failureText code output) = false := by
  unfold failureText
  cases hblank : Text.isBlankText output with
  | true =>
    have hlead : "compiler exited with code ".toList.all Text.isBlank = false := by decide
    rw [if_pos rfl, Text.isBlankText, String.toList_append, List.all_append, hlead]
    rfl
  | false => exact hblank

theorem lines_failureText {output : String} :
    diagnosticLines output = diagnosticLines (failureText code output) ↔
      Text.isBlankText output = false := by
  cases hblank : Text.isBlankText output with
  | true =>
    exact iff_of_false (Text.lines_ne_of_blank hblank (failureText_not_blank code output)) nofun
  | false =>
    have hsame : failureText code output = output := if_neg (by simp [hblank])
    exact iff_of_true (by rw [hsame]) rfl

end Artifact

namespace Visit

variable {σ β : Type} {w : Workshop σ β} {v : Visit} {step : Step} {i : Invocation} {x : Execution}

theorem eq_of_ran (h : .ran step i x ∈ v.letters) :
    ∃ r replies, v = ⟨step, r, some (i, x), replies⟩ := by
  obtain ⟨step', request, run, replies⟩ := v
  cases run with
  | none => simp [letters, runLetters] at h
  | some p =>
    obtain ⟨i', x'⟩ := p
    obtain ⟨rfl, rfl, rfl⟩ : step = step' ∧ i = i' ∧ x = x' := by
      simpa [letters, runLetters] using h
    exact ⟨request, replies, rfl⟩

theorem exchange_of_failed {report : RunReport} {code : Int32} {r : CompileRequest}
    {replies : List CompileResponse} (hh : Handled w ⟨.compile, r, some (i, x), replies⟩)
    (hx : x.result = .ok report) (hs : report.status = .exited code) (hc : code ≠ 0) :
    exchange ⟨.compile, r, some (i, x), replies⟩ =
      .compile r (.ok (CompileResponse.failedAfter x.chunks)) := by
  cases hh
  have hjudged : x.result.bind (Artifact.judge w.config.compile · x.chunks) =
      .error (.compile (Artifact.failureText code (Artifact.textOf x.chunks))) := by
    rw [hx]
    exact Artifact.judge_of_exited hs hc
  dsimp only [exchange, Stages.replies]
  rw [hjudged]
  rfl

end Visit

namespace Floor

variable {σ β : Type}

/-- When the compiler exits with another code than zero, the run is reported by the lines of its
output, whatever pieces that came in. These are the lines of the reason that the stage gives just if
the output shows something. -/
theorem failed_build_reported (w : Workshop σ β) (files : NameMap String) (toolchain : Toolchain σ)
    (sandbox : β) (before after : List Action) :
    let f := (start toolchain sandbox).actAll w before
    f.pipeline.inFlight = false →
    let g := (f.ask w files).actAll w after
    let log := (f.ask w files).log w f.drivers.length after
    ∀ d, g.drivers[f.drivers.length]? = some d → d.turn = .gone →
      ∀ i x report code, .ran .compile i x ∈ log → x.result = .ok report →
        report.status = .exited code → code ≠ 0 →
        let output := Artifact.textOf x.chunks
        ∃ reason earlier,
          Artifact.judge w.config.compile report x.chunks = .error (.compile reason) ∧
          d.said = earlier ++ (.status .compiling :: .stepStarted .compile ::
            ((diagnosticLines output).map .diagnostic ++ [.diagnostic "Compilation failed.",
              Course.finished .compile false, .status .errored, .status .idle])) ∧
          (diagnosticLines output = diagnosticLines reason ↔
            Text.isBlankText output = false) := by
  intro f hf g log d hd hgone i x report code hran hx hs hc output
  have ho : f.Orderly := orderly_actAll (orderly_start toolchain sandbox) w before
  obtain ⟨d', hd', htracks⟩ := tracks_run ho hf w files after
  obtain rfl : d' = d := Option.some.inj (hd'.symm.trans hd)
  -- The run is over, so all its letters have passed, and the one of the compiler is one of them.
  have hleft : d'.turn.Left := by
    rw [hgone]
    trivial
  have hlog : log = _ := htracks.log_of_left hleft
  rw [hlog] at hran
  obtain ⟨v, hv, hletter⟩ := List.mem_flatMap.mp hran
  obtain ⟨r, replies, rfl⟩ := Visit.eq_of_ran hletter
  have hexchange := Visit.exchange_of_failed (Stages.handled_visits _ _ _ hv) hx hs hc
  have hmem := List.mem_map_of_mem (f := Visit.exchange) hv
  rw [hexchange] at hmem
  obtain ⟨hlast, earlier, hearlier⟩ := Course.run_failedAfter (Stages.runs_visits _ _) hmem
  refine ⟨_, earlier, Artifact.judge_of_exited hs hc, ?_, Artifact.lines_failureText⟩
  rw [htracks.said_of_gone hgone, hearlier, hlast]
  simp [Course.failedReport, Course.errored, Course.diagnostics, output]

end Floor

def Workshop.failing (texts : List String) : Workshop Unit Unit where
  config := {}
  fetch := fun url => throw (.fetch url .notFound)
  backend := fun _ _ s => (⟨.ok ⟨.exited 1, "", "", []⟩, texts.map (⟨.diagnostic, ·⟩)⟩, s)

def Workshop.complaining : Workshop Unit Unit :=
  .failing ["a: ", "bad\r\nb"]

namespace Floor

theorem failed_build_reported_in_pieces :
    let w := Workshop.complaining
    let g := ((start Toolchain.stocked ()).ask w .empty).actAll w (soleBuild 3 9)
    ∃ d, g.drivers[0]? = some d ∧ d.turn = .gone ∧ ∃ reason earlier,
      Artifact.judge w.config.compile ⟨.exited 1, "", "", []⟩
        [⟨.diagnostic, "a: "⟩, ⟨.diagnostic, "bad\r\nb"⟩] = .error (.compile reason) ∧
      d.said = earlier ++ [.status .compiling, .stepStarted .compile, .diagnostic "a: bad",
        .diagnostic "b", .diagnostic "Compilation failed.", Course.finished .compile false,
        .status .errored, .status .idle] ∧
      diagnosticLines reason = ["a: bad", "b"] := by
  have hd : (((start Toolchain.stocked ()).ask .complaining .empty).actAll .complaining
      (soleBuild 3 9)).drivers[0]? =
      some ⟨[.status .compiling, .stepStarted .compile, .diagnostic "a: bad",
        .diagnostic "b", .diagnostic "Compilation failed.", Course.finished .compile false,
        .status .errored, .status .idle], .gone⟩ := by rfl
  have hran : .ran .compile
      (Artifact.invocation {} [] (((Artifact.mounts {} .empty .empty .empty).toOption).getD []))
      ⟨.ok ⟨.exited 1, "", "", []⟩, [⟨.diagnostic, "a: "⟩, ⟨.diagnostic, "bad\r\nb"⟩]⟩ ∈
      ((start Toolchain.stocked ()).ask .complaining .empty).log .complaining 0 (soleBuild 3 9) :=
    List.mem_of_getElem? (i := 1) (by rfl)
  obtain ⟨reason, earlier, hreason, hsaid, hlines⟩ := failed_build_reported .complaining .empty
    Toolchain.stocked () [] (soleBuild 3 9) rfl _ hd rfl _ _ _ 1 hran rfl rfl (by decide)
  have hshown : diagnosticLines "a: bad\r\nb" = diagnosticLines reason := hlines.mpr (by rfl)
  exact ⟨_, hd, rfl, reason, earlier, hreason, hsaid, hshown.symm.trans (by rfl)⟩

theorem silent_failure_without_reason :
    let w := Workshop.failing []
    let s : Stages Unit Unit := { toolchain := .stocked, sandbox := () }
    let c := Course.run w.config.transpile.sourceExt .empty
    (s.compileFiles w .empty).1.result = .error (.compile "compiler exited with code 1") ∧
      diagnosticLines "compiler exited with code 1" = ["compiler exited with code 1"] ∧
      (c.hold (Stages.crew w) s).1 = ([.status .compiling, .stepStarted .compile,
        .diagnostic "Compilation failed.", Course.finished .compile false], Course.errored) := by
  refine ⟨by rfl, by rfl, by rfl⟩

end Floor

end Buildbox
