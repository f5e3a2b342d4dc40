import Buildbox.Proofs.Pipeline.Execution
import Buildbox.Proofs.Stage.Mounted
import Buildbox.Proofs.Text.LineBuffers

/-! What stages make of programs that write nothing. They judge a run by what is in its mount when
it has ended; and what was there when it started may be in it still. -/

namespace Buildbox

namespace Stages

variable {σ β α γ : Type} {w : Workshop σ β} {s s' : Stages σ β} {i : Invocation} {x : Execution}
  {report : RunReport} {files : NameMap String} {support : Directory}
  {filename content derived : String} {bytes : Bytes}

section Preparation

theorem bind_eq_ok {act : EStateM Failure (Stages σ β) α}
    {next : α → EStateM Failure (Stages σ β) γ} {c : γ} :
    (act >>= next) s = .ok c s' ↔ ∃ a s₁, act s = .ok a s₁ ∧ next a s₁ = .ok c s' := by
  change EStateM.bind act next s = _ ↔ _
  unfold EStateM.bind
  cases act s with
  | ok a s₁ => simp
  | error f s₁ => simp

/-- In a build of the files the compiler was run: the toolchain gave its module and the sources,
and the sandbox was free. -/
def CompilerRan (w : Workshop σ β) (files : NameMap String) (s : Stages σ β) (support : Directory)
    (i : Invocation) (x : Execution) : Prop :=
  ∃ module s₁ library shared s₂,
    inToolchain (Toolchain.module w.fetch w.config.assets.compiler) s = .ok module s₁ ∧
    inToolchain (Toolchain.roots w.fetch w.config.assets) s₁ = .ok (library, shared) s₂ ∧
    shared.root = support ∧
    Artifact.mounts w.config library.root support files = .ok i.mounts ∧
    i = Artifact.invocation w.config module i.mounts ∧ x = (s₂.run w .compile i).1

/-- In the same way the transpiler was run for a file. -/
def TranspilerRan (w : Workshop σ β) (filename content : String) (s : Stages σ β)
    (support : Directory) (i : Invocation) (x : Execution) : Prop :=
  ∃ module s₁ shared s₂,
    inToolchain (Toolchain.module w.fetch w.config.assets.transpiler) s = .ok module s₁ ∧
    inToolchain (Toolchain.root w.fetch w.config.assets.supportKey) s₁ = .ok shared s₂ ∧
    shared.root = support ∧
    Derivative.mounts w.config support filename content = .ok i.mounts ∧
    i = Derivative.invocation w.config module i.mounts filename ∧ x = (s₂.run w .transpile i).1

theorem prepareCompile_eq_ok : prepareCompile w files s = .ok i s' ↔
    ∃ module s₁ library shared,
      inToolchain (Toolchain.module w.fetch w.config.assets.compiler) s = .ok module s₁ ∧
      inToolchain (Toolchain.roots w.fetch w.config.assets) s₁ = .ok (library, shared) s' ∧
      Artifact.mounts w.config library.root shared.root files = .ok i.mounts ∧
      i = Artifact.invocation w.config module i.mounts := by
  unfold prepareCompile
  simp only [bind_eq_ok]
  constructor
  · rintro ⟨module, s₁, hmodule, ⟨library, shared⟩, s₂, hroots, h⟩
    cases hmounts : Artifact.mounts w.config library.root shared.root files with
    | error e =>
      rw [hmounts] at h
      cases h
    | ok mounts =>
      rw [hmounts] at h
      cases h
      exact ⟨module, s₁, library, shared, hmodule, hroots, hmounts, rfl⟩
  · rintro ⟨module, s₁, library, shared, hmodule, hroots, hmounts, hi⟩
    refine ⟨module, s₁, hmodule, (library, shared), s', hroots, ?_⟩
    rw [hmounts, hi]
    rfl

theorem prepareTranspile_eq_ok : prepareTranspile w filename content s = .ok i s' ↔
    ∃ module s₁ shared,
      inToolchain (Toolchain.module w.fetch w.config.assets.transpiler) s = .ok module s₁ ∧
      inToolchain (Toolchain.root w.fetch w.config.assets.supportKey) s₁ = .ok shared s' ∧
      Derivative.mounts w.config shared.root filename content = .ok i.mounts ∧
      i = Derivative.invocation w.config module i.mounts filename := by
  unfold prepareTranspile
  simp only [bind_eq_ok]
  constructor
  · rintro ⟨module, s₁, hmodule, shared, s₂, hroot, h⟩
    cases hmounts : Derivative.mounts w.config shared.root filename content with
    | error e =>
      rw [hmounts] at h
      cases h
    | ok mounts =>
      rw [hmounts] at h
      cases h
      exact ⟨module, s₁, shared, hmodule, hroot, hmounts, rfl⟩
  · rintro ⟨module, s₁, shared, hmodule, hroot, hmounts, hi⟩
    refine ⟨module, s₁, hmodule, shared, s', hroot, ?_⟩
    rw [hmounts, hi]
    rfl

theorem result_compileFiles (h : CompilerRan w files s support i x) :
    (compileFiles w files s).1.result =
      x.result.bind (Artifact.judge w.config.compile · x.chunks) := by
  obtain ⟨module, s₁, library, shared, s₂, hmodule, hroots, rfl, hmounts, hi, rfl⟩ := h
  have hprepare : prepareCompile w files s = .ok i s₂ :=
    prepareCompile_eq_ok.mpr ⟨module, s₁, library, shared, hmodule, hroots, hmounts, hi⟩
  unfold compileFiles perform
  rw [hprepare]

theorem result_transpileFile (hn : w.config.transpile.derivedName? filename = some derived)
    (h : TranspilerRan w filename content s support i x) :
    (transpileFile w filename content s).1 =
      x.result.bind (Derivative.judge w.config.transpile filename derived) := by
  obtain ⟨module, s₁, shared, s₂, hmodule, hroot, rfl, hmounts, hi, rfl⟩ := h
  have hprepare : prepareTranspile w filename content s = .ok i s₂ :=
    prepareTranspile_eq_ok.mpr ⟨module, s₁, shared, hmodule, hroot, hmounts, hi⟩
  unfold transpileFile perform
  simp only [hn, hprepare]

end Preparation

section Runs

variable {ext : String} {step : Step} {d : Dialogue α} {v : Visit}

theorem exists_visit (hv : v ∈ visits w d s) : ∃ step r t, v = visit w step r t := by
  induction d generalizing s with
  | done a => exact absurd hv List.not_mem_nil
  | report event next ih => exact ih hv
  | transpile request next ih =>
    rcases List.mem_cons.mp hv with rfl | hv
    · exact ⟨.transpile, request, s, rfl⟩
    · exact ih _ hv
  | compile request next ih =>
    rcases List.mem_cons.mp hv with rfl | hv
    · exact ⟨.compile, request, s, rfl⟩
    · exact ih _ hv
  | execute request next ih =>
    rcases List.mem_cons.mp hv with rfl | hv
    · exact ⟨.execute, request, s, rfl⟩
    · exact ih _ hv

theorem prepared_of_sandboxRun? {r : step.Request} (h : s.sandboxRun? w step r = some (i, x)) :
    ∃ s', s.prepare w step r = .ok i s' ∧ x = (s'.run w step i).1 := by
  unfold sandboxRun? at h
  cases hprepare : s.prepare w step r with
  | error f s₁ =>
    rw [hprepare] at h
    cases h
  | ok i₁ s₁ =>
    rw [hprepare] at h
    dsimp only [admittedRun?] at h
    rcases hacquire : s₁.acquire step with ⟨f | _, s₂⟩
    · rw [hacquire] at h
      cases h
    · rw [hacquire] at h
      cases h
      refine ⟨s₁, rfl, ?_⟩
      unfold run
      rw [hacquire]
      rfl

theorem prepared_of_ran (h : .ran step i x ∈ (visits w d s).flatMap Visit.letters) :
    ∃ r t t', .asked step r ∈ (visits w d s).flatMap Visit.letters ∧
      prepare w step r t = .ok i t' ∧ x = (t'.run w step i).1 := by
  obtain ⟨v, hv, hran⟩ := List.mem_flatMap.mp h
  obtain ⟨step', r, t, rfl⟩ := exists_visit hv
  have hrun : t.sandboxRun? w step' r = some (i, x) ∧ step' = step := by
    simpa [Visit.letters, Visit.runLetters, visit] using hran
  obtain ⟨hrun, rfl⟩ := hrun
  obtain ⟨t', hprepare, hx⟩ := prepared_of_sandboxRun? hrun
  exact ⟨r, t, t', List.mem_flatMap.mpr ⟨_, hv, List.mem_cons_self⟩, hprepare, hx⟩

theorem compilerRan_of_ran (h : .ran .compile i x ∈ (visits w d s).flatMap Visit.letters) :
    ∃ files support t, .asked .compile ⟨files⟩ ∈ (visits w d s).flatMap Visit.letters ∧
      CompilerRan w files t support i x := by
  obtain ⟨r, t, t', hasked, hprepare, rfl⟩ := prepared_of_ran h
  obtain ⟨module, s₁, library, shared, hmodule, hroots, hmounts, hi⟩ :=
    prepareCompile_eq_ok.mp hprepare
  exact ⟨r.files, shared.root, t, hasked, module, s₁, library, shared, t', hmodule, hroots, rfl,
    hmounts, hi, rfl⟩

end Runs

section Artifact

theorem find_eq_nothing {c : CompileConfig} {t : MountTable} :
    Artifact.find c t = .nothing ↔ ∀ bytes, t.file? "." c.artifactName = some bytes → bytes = [] := by
  constructor
  · intro hnothing bytes hfile
    by_contra hne
    have hfound : Artifact.find c t = .artifact bytes :=
      Artifact.find_eq_artifact.mpr ⟨hfile, hne⟩
    cases hnothing.symm.trans hfound
  · intro hempty
    cases hfound : Artifact.find c t with
    | nothing => rfl
    | artifact bytes =>
      obtain ⟨hfile, hne⟩ := Artifact.find_eq_artifact.mp hfound
      exact absurd (hempty bytes hfile) hne

theorem judge_of_exited_well {c : CompileConfig} {chunks : List OutputChunk}
    (hexit : report.status = .exited 0) :
    Artifact.judge c report chunks = .ok (Artifact.find c report.mounts) := by
  unfold Artifact.judge
  rw [hexit]
  rfl

theorem left_iff_supplied (hran : CompilerRan w files s support i x)
    (hsame : report.mounts.file? "." w.config.compile.artifactName =
      i.mounts.file? "." w.config.compile.artifactName) :
    report.mounts.file? "." w.config.compile.artifactName = some bytes ↔
      Supplied w.config.assets support files (Path.segments w.config.compile.artifactName)
        bytes := by
  obtain ⟨module, s₁, library, shared, s₂, -, -, rfl, hmounts, -, -⟩ := hran
  rw [hsame]
  exact Artifact.file?_mounts hmounts

theorem leaves_iff (hx : x.result = .ok report) (hexit : report.status = .exited 0) :
    Leaves w.config.compile x bytes ↔
      report.mounts.file? "." w.config.compile.artifactName = some bytes ∧ bytes ≠ [] := by
  constructor
  · rintro ⟨report', hx', -, hfile, hne⟩
    cases hx.symm.trans hx'
    exact ⟨hfile, hne⟩
  · rintro ⟨hfile, hne⟩
    exact ⟨report, hx, hexit, hfile, hne⟩

/-- A compiler exits with zero and nothing is written at the path of the artifact. If nothing is
left there, nothing is built; but if there is what was there before, then this is the artifact,
unless it is empty: a file of the user's, or one of the support sources. In a run it is executed. -/
theorem unwritten_artifact (w : Workshop σ β) :
    let a := w.config.assets
    let name := w.config.compile.artifactName
    (∀ files s support i x report, CompilerRan w files s support i x → x.result = .ok report →
      report.status = .exited 0 →
      let built := (compileFiles w files s).1.result
      (report.mounts.file? "." name = none → built = .ok .nothing) ∧
      (report.mounts.file? "." name = i.mounts.file? "." name →
        (built = .ok .nothing ↔
          ∀ bytes, Supplied a support files (Path.segments name) bytes → bytes = []) ∧
        ∀ bytes, built = .ok (.artifact bytes) ↔
          Supplied a support files (Path.segments name) bytes ∧ bytes ≠ [])) ∧
    ∀ ext files s,
      let letters := (visits w (Course.run ext files) s).flatMap Visit.letters
      ∀ i x report, .ran .compile i x ∈ letters → x.result = .ok report →
        report.status = .exited 0 →
        report.mounts.file? "." name = i.mounts.file? "." name →
        ∃ compiled support t, .asked .compile ⟨compiled⟩ ∈ letters ∧
          CompilerRan w compiled t support i x ∧
          ∀ bytes, .asked .execute ⟨bytes⟩ ∈ letters ↔
            Supplied a support compiled (Path.segments name) bytes ∧ bytes ≠ [] := by
  intro a name
  constructor
  · intro files s support i x report hran hx hexit built
    have hbuilt : built = .ok (Artifact.find w.config.compile report.mounts) := by
      change (compileFiles w files s).1.result = _
      rw [result_compileFiles hran, hx]
      exact judge_of_exited_well hexit
    constructor
    · intro hnone
      have hnothing : Artifact.find w.config.compile report.mounts = .nothing :=
        find_eq_nothing.mpr fun bytes hfile => by cases hnone.symm.trans hfile
      rw [hbuilt, hnothing]
    · intro hsame
      have hleft (bytes : Bytes) : report.mounts.file? "." name = some bytes ↔
          Supplied a support files (Path.segments name) bytes := left_iff_supplied hran hsame
      simp only [hbuilt, Except.ok.injEq, find_eq_nothing, ← hleft]
      exact ⟨Iff.rfl, fun bytes => Artifact.find_eq_artifact⟩
  · intro ext files s letters i x report hletter hx hexit hsame
    obtain ⟨compiled, support, t, hasked, hran⟩ := compilerRan_of_ran hletter
    refine ⟨compiled, support, t, hasked, hran, fun bytes => ?_⟩
    rw [← left_iff_supplied hran hsame, ← leaves_iff hx hexit]
    exact asked_iff_of_ran hletter

end Artifact

section Derivative

variable {c : TranspileConfig}

def printed (filename derived : String) (report : RunReport) : Except Failure Transpiled :=
  if report.stdout = "" then .error (.transpile filename ("transpiler produced no " ++ derived))
  else .ok ⟨filename, derived, report.stdout⟩

theorem judge_of_none (hexit : report.status = .exited 0)
    (hnone : report.mounts.file? c.mount derived = none) :
    Derivative.judge c filename derived report = printed filename derived report := by
  have hread : (report.mounts.get? c.mount).bind (·.read? derived) = none := hnone
  unfold Derivative.judge Derivative.content? printed
  rw [hexit, hread]
  by_cases hout : report.stdout = ""
  · simp [hout, ExitStatus.success]
  · simp [hout, ExitStatus.success]

theorem judge_of_file (hexit : report.status = .exited 0)
    (hfile : report.mounts.file? c.mount derived = some bytes) :
    Derivative.judge c filename derived report =
      .ok ⟨filename, derived, Utf8.lossyText bytes⟩ := by
  have hread : (report.mounts.get? c.mount).bind (·.read? derived) = some bytes := hfile
  unfold Derivative.judge Derivative.content?
  rw [hexit, hread]
  rfl

theorem not_decides_derived (hv : w.config.validate = .ok ())
    (hn : w.config.transpile.derivedName? filename = some derived) :
    ¬ Decides (Path.segments filename) (Path.segments derived) := by
  obtain ⟨hsource, htarget, hne⟩ := Config.extensions_of_validate hv
  obtain ⟨stem, hstem, rfl⟩ := TranspileConfig.derivedName?_eq_some.mp hn
  obtain ⟨parents, last, hsegments⟩ := Path.exists_segments_extension stem
  have hname : filename = stem ++ "." ++ w.config.transpile.sourceExt := by
    rw [← String.toList_inj, TranspileConfig.toList_derived]
    exact (Path.stem?_eq_some.mp hstem).1
  obtain ⟨hblank, hslash⟩ := Config.ne_blank_of_bare hsource
  obtain ⟨hblank', hslash'⟩ := Config.ne_blank_of_bare htarget
  rw [hname, hsegments _ hblank hslash, hsegments _ hblank' hslash']
  have hapart {a b : String} (hab : a ≠ b) : ¬ parents ++ [a] <+: parents ++ [b] := by
    intro hpre
    have heq := hpre.eq_of_length (by simp)
    exact hab (List.singleton_inj.mp (List.append_cancel_left heq))
  have hlast : String.ofList (last ++ '.' :: w.config.transpile.sourceExt.toList) ≠
      String.ofList (last ++ '.' :: w.config.transpile.targetExt.toList) := by
    intro heq
    have hexts := List.append_cancel_left (String.ofList_injective heq)
    exact hne (String.toList_inj.mp (List.cons.inj hexts).2)
  rintro ⟨-, hpre | hpre⟩
  · exact hapart hlast hpre
  · exact hapart hlast.symm hpre

theorem supplied_single_iff (hv : w.config.validate = .ok ())
    (hn : w.config.transpile.derivedName? filename = some derived) :
    Supplied w.config.assets support (.ofList [(filename, content)]) (Path.segments derived)
        bytes ↔
      ∃ rest, Path.segments w.config.assets.supportDir ++ rest = Path.segments derived ∧
        support.lookup rest = some (.file bytes) := by
  have hnone : ∀ name text, (NameMap.ofList [(filename, content)]).get? name = some text →
      ¬ Decides (Path.segments name) (Path.segments derived) := by
    intro name text hfound
    have hmem : (name, text) ∈ [(filename, content)] := NameMap.get?_eq_some.mp hfound
    obtain ⟨rfl, -⟩ := Prod.mk.inj (List.mem_singleton.mp hmem)
    exact not_decides_derived hv hn
  constructor
  · rintro (⟨hd, -⟩ | ⟨-, hp, hb⟩)
    · exact absurd hd.decides (hnone _ _ hd.found)
    · exact ⟨_, hp, hb⟩
  · rintro ⟨rest, hp, hb⟩
    exact .support hnone hp hb

/-- A transpiler exits with zero and nothing is written at the derived path. If nothing is left
there, what was printed stands for the derived file, or the source fails; but if there is what was
there before, then this is the derived text. In a valid configuration it can only be a support
source. -/
theorem unwritten_derived (w : Workshop σ β) (filename content derived : String)
    (hn : w.config.transpile.derivedName? filename = some derived) :
    let a := w.config.assets
    let mount := w.config.transpile.mount
    let files : NameMap String := .ofList [(filename, content)]
    (∀ s support i x report, TranspilerRan w filename content s support i x →
      x.result = .ok report → report.status = .exited 0 →
      let out := (transpileFile w filename content s).1
      (report.mounts.file? mount derived = none → out = printed filename derived report) ∧
      (report.mounts.file? mount derived = i.mounts.file? mount derived →
        (∀ bytes, Supplied a support files (Path.segments derived) bytes →
          out = .ok ⟨filename, derived, Utf8.lossyText bytes⟩) ∧
        ((∀ bytes, ¬ Supplied a support files (Path.segments derived) bytes) →
          out = printed filename derived report))) ∧
    (w.config.validate = .ok () → ∀ support bytes,
      Supplied a support files (Path.segments derived) bytes ↔
        ∃ rest, Path.segments a.supportDir ++ rest = Path.segments derived ∧
          support.lookup rest = some (.file bytes)) := by
  intro a mount files
  refine ⟨fun s support i x report hran hx hexit => ?_,
    fun hv support bytes => supplied_single_iff hv hn⟩
  have hout : (transpileFile w filename content s).1 =
      Derivative.judge w.config.transpile filename derived report := by
    rw [result_transpileFile hn hran, hx]
    rfl
  obtain ⟨module, s₁, shared, s₂, -, -, rfl, hmounts, -, -⟩ := hran
  rw [hout]
  refine ⟨judge_of_none hexit, fun hsame => ⟨fun bytes hbytes => ?_, fun hnone => ?_⟩⟩
  · exact judge_of_file hexit (hsame.trans (Derivative.file?_mounts hmounts |>.mpr hbytes))
  · refine judge_of_none hexit (hsame.trans ?_)
    cases hfile : i.mounts.file? mount derived with
    | none => rfl
    | some bytes => exact absurd ((Derivative.file?_mounts hmounts).mp hfile) (hnone bytes)

end Derivative

end Stages

def Workshop.idle : Workshop Unit Unit where
  config := {}
  fetch := fun url => throw (.fetch url .notFound)
  backend := fun _ i s => (⟨.ok ⟨.exited 0, "", "", i.mounts⟩, []⟩, s)

namespace Stages

def leftover : NameMap String :=
  .ofList [("main.wasm", "x")]

def leftoverBuild : Invocation :=
  let root : Directory := .file "main.wasm" [120] (.dir "zx" .empty .empty)
  Artifact.invocation {} [] [⟨".", root⟩, ⟨"/lib", .empty⟩, ⟨"/cache", .empty⟩]

def leftoverReport : RunReport :=
  ⟨.exited 0, "", "", leftoverBuild.mounts⟩

theorem compilerRan_leftover :
    CompilerRan Workshop.idle leftover { toolchain := .stocked, sandbox := () } .empty
      leftoverBuild ⟨.ok leftoverReport, []⟩ :=
  ⟨[], _, ⟨0, .empty⟩, ⟨1, .empty⟩, _, rfl, rfl, rfl, rfl, rfl, rfl⟩

def builtFiles? : Letter → Option (NameMap String)
  | .asked .compile r => some r.files
  | _ => none

theorem unwritten_artifact_executed :
    let s : Stages Unit Unit := { toolchain := .stocked, sandbox := () }
    (compileFiles Workshop.idle leftover s).1.result = .ok (.artifact [120]) ∧
      .asked .execute ⟨[120]⟩ ∈
        (visits Workshop.idle (Course.run "zx" leftover) s).flatMap Visit.letters := by
  intro s
  have hdecides : Deciding leftover ["main.wasm"] "main.wasm" "x" := deciding_iff.mpr (by decide)
  obtain ⟨hbuilt, hexecuted⟩ := unwritten_artifact Workshop.idle
  constructor
  · obtain ⟨-, hsame⟩ := hbuilt leftover s _ _ _ _ compilerRan_leftover rfl rfl
    exact ((hsame rfl).2 [120]).mpr ⟨.file hdecides (by decide), by decide⟩
  · let letters := (visits Workshop.idle (Course.run "zx" leftover) s).flatMap Visit.letters
    have hran : .ran .compile leftoverBuild ⟨.ok leftoverReport, []⟩ ∈ letters :=
      List.mem_of_getElem? (i := 1) rfl
    obtain ⟨compiled, support, t, hasked, -, hiff⟩ :=
      hexecuted "zx" leftover s _ _ _ hran rfl rfl rfl
    have hcompiled : compiled ∈ letters.filterMap builtFiles? :=
      List.mem_filterMap.mpr ⟨_, hasked, rfl⟩
    change compiled ∈ [leftover] at hcompiled
    rw [List.mem_singleton.mp hcompiled] at hiff
    exact (hiff [120]).mpr ⟨.file hdecides (by decide), by decide⟩

theorem leftover_built :
    let s : Stages Unit Unit := { toolchain := .stocked, sandbox := () }
    ∃ i x report, CompilerRan Workshop.idle leftover s .empty i x ∧ x.result = .ok report ∧
      report.status = .exited 0 ∧ report.mounts = i.mounts ∧
      (compileFiles Workshop.idle leftover s).1.result ≠ .ok .nothing :=
  ⟨leftoverBuild, _, leftoverReport, compilerRan_leftover, rfl, rfl, rfl, by decide +kernel⟩

def supported : Stages Unit Unit where
  toolchain :=
    let assets : AssetConfig := {}
    let source : Directory := .file "root.zig" [122] .empty
    { Toolchain.stocked with archives :=
        { source := ()
          cache := { filled := [(assets.libraryKey, ⟨0, .empty⟩),
            (assets.supportKey, ⟨1, source⟩)] } } }
  sandbox := ()

def besideSupport : Invocation :=
  let root : Directory := .file "root.zig" [122] (.file "root.zx" [112] .empty)
  Derivative.invocation {} [] [⟨"/codes", .dir "zx" root .empty⟩] "zx/root.zx"

def besideReport : RunReport :=
  ⟨.exited 0, "", "", besideSupport.mounts⟩

theorem transpilerRan_beside :
    TranspilerRan Workshop.idle "zx/root.zx" "p" supported (.file "root.zig" [122] .empty)
      besideSupport ⟨.ok besideReport, []⟩ :=
  ⟨[], _, ⟨1, .file "root.zig" [122] .empty⟩, _, rfl, rfl, rfl, rfl, rfl, rfl⟩

theorem unwritten_derived_beside :
    (transpileFile Workshop.idle "zx/root.zx" "p" supported).1 =
      .ok ⟨"zx/root.zx", "zx/root.zig", "z"⟩ := by
  obtain ⟨hderived, hsupplied⟩ :=
    unwritten_derived Workshop.idle "zx/root.zx" "p" "zx/root.zig" (by decide)
  obtain ⟨-, hsame⟩ := hderived _ _ _ _ _ transpilerRan_beside rfl rfl
  have htext : Utf8.lossyText [122] = "z" := by decide +kernel
  rw [← htext]
  exact (hsame rfl).1 [122] ((hsupplied rfl _ _).mpr ⟨["root.zig"], by decide, rfl⟩)

theorem support_returned :
    ∃ i x report, TranspilerRan Workshop.idle "zx/root.zx" "p" supported
        (.file "root.zig" [122] .empty) i x ∧ x.result = .ok report ∧ report.status = .exited 0 ∧
      report.mounts = i.mounts ∧ report.stdout = "" ∧
      (transpileFile Workshop.idle "zx/root.zx" "p" supported).1 ≠
        .error (.transpile "zx/root.zx" "transpiler produced no zx/root.zig") :=
  ⟨besideSupport, _, besideReport, transpilerRan_beside, rfl, rfl, rfl, rfl, by decide +kernel⟩

end Stages

end Buildbox
