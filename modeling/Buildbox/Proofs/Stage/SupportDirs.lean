import Buildbox.Proofs.Stage.Leftovers
import Buildbox.Proofs.Tree.Segments

/-! The directory of the support sources. The mounts of a stage can be built exactly if it names a
place below their root. A configuration is only checked for texts that show nothing, so that a valid
one may name the root itself. -/

namespace Buildbox

namespace Config

variable {c : Config}

theorem not_blank_of_forIn {texts : List (String × String)} {u : PUnit}
    (h : (forIn texts PUnit.unit fun (p : String × String) (_ : PUnit) =>
      (do
        if Text.isBlankText p.2 then throw (ConfigFault.blank p.1)
        pure (ForInStep.yield PUnit.unit) : Except ConfigFault (ForInStep PUnit))) = .ok u) :
    ∀ p ∈ texts, Text.isBlankText p.2 = false := by
  induction texts with
  | nil => exact fun p hp => absurd hp List.not_mem_nil
  | cons first texts ih =>
    rw [List.forIn_cons] at h
    cases hblank : Text.isBlankText first.2 with
    | true =>
      rw [hblank] at h
      cases h
    | false =>
      rw [hblank] at h
      exact List.forall_mem_cons.mpr ⟨hblank, ih h⟩

theorem not_blank_of_validate (h : c.validate = .ok ()) :
    ∀ p ∈ c.requiredTexts, Text.isBlankText p.2 = false := by
  unfold validate at h
  obtain ⟨_, htexts, -⟩ := ok_of_bind h
  exact not_blank_of_forIn htexts

end Config

namespace Path

variable {path : String}

/-- A path to nowhere but the root: what stands between its slashes counts for nothing. -/
def NamesRoot (path : String) : Prop :=
  path = "." ∨ '/' ∈ path.toList ∧ ∀ part ∈ parts path, part = "" ∨ part = "."

instance (path : String) : Decidable (NamesRoot path) :=
  inferInstanceAs (Decidable (_ ∨ _ ∧ _))

theorem segments_eq_nil_iff : segments path = [] ↔ ∀ part ∈ parts path, part = "" ∨ part = "." := by
  rw [segments, List.filter_eq_nil_iff]
  refine forall₂_congr fun part _ => ?_
  simp only [decide_eq_true_eq, not_and_or, not_not, ne_eq]

theorem segments_eq_nil_iff_namesRoot (h : Text.isBlankText path = false) :
    segments path = [] ↔ NamesRoot path := by
  rw [segments_eq_nil_iff, NamesRoot]
  by_cases hslash : '/' ∈ path.toList
  · have hdot : path ≠ "." := fun heq => absurd (heq ▸ hslash) (by decide)
    rw [or_iff_right hdot, and_iff_right hslash]
  · have hne : path ≠ "" := fun heq => by
      rw [heq] at h
      cases h
    rw [parts_of_not_mem hslash, or_iff_left fun hroot => hslash hroot.1]
    simp [hne]

end Path

namespace Stages

variable {σ β : Type} {w : Workshop σ β} {s s' : Stages σ β} {files : NameMap String}
  {filename content : String} {e : Failure}

def compilerParts (w : Workshop σ β) :
    EStateM Failure (Stages σ β) (Bytes × SharedRoot × SharedRoot) := do
  let module ← inToolchain (Toolchain.module w.fetch w.config.assets.compiler)
  let roots ← inToolchain (Toolchain.roots w.fetch w.config.assets)
  return (module, roots)

def transpilerParts (w : Workshop σ β) : EStateM Failure (Stages σ β) (Bytes × SharedRoot) := do
  let module ← inToolchain (Toolchain.module w.fetch w.config.assets.transpiler)
  let support ← inToolchain (Toolchain.root w.fetch w.config.assets.supportKey)
  return (module, support)

def mounted (invocation : MountTable → Invocation) :
    Except MountError MountTable → EStateM Failure (Stages σ β) Invocation
  | .ok mounts => return invocation mounts
  | .error e => throw (.ofMount e)

theorem prepareCompile_eq (w : Workshop σ β) (files : NameMap String) :
    prepareCompile w files = compilerParts w >>= fun (module, library, support) =>
      mounted (Artifact.invocation w.config module)
        (Artifact.mounts w.config library.root support.root files) := by
  simp only [prepareCompile, compilerParts, bind_assoc, pure_bind]
  rfl

theorem prepareTranspile_eq (w : Workshop σ β) (filename content : String) :
    prepareTranspile w filename content = transpilerParts w >>= fun (module, support) =>
      mounted (Derivative.invocation w.config module · filename)
        (Derivative.mounts w.config support.root filename content) := by
  simp only [prepareTranspile, transpilerParts, bind_assoc, pure_bind]
  rfl

section Mounted

variable {α : Type} {parts : EStateM Failure (Stages σ β) α} {p : α}
  {invocation : α → MountTable → Invocation} {mounts : α → Except MountError MountTable}

theorem mounted_eq_error (h : ∀ p, ∃ t, mounts p = .ok t) :
    (parts >>= fun p => mounted (invocation p) (mounts p)) s = .error e s' ↔
      parts s = .error e s' := by
  change EStateM.bind parts _ s = _ ↔ _
  unfold EStateM.bind
  cases parts s with
  | ok p s₁ =>
    obtain ⟨t, ht⟩ := h p
    dsimp only
    rw [ht]
    exact iff_of_false nofun nofun
  | error e' s₁ => simp only [EStateM.Result.error.injEq]

theorem mounted_of_error (f : MountError) (h : ∀ p, mounts p = .error f)
    (hparts : parts s = .ok p s') :
    (parts >>= fun p => mounted (invocation p) (mounts p)) s = .error (.ofMount f) s' := by
  change EStateM.bind parts _ s = _
  unfold EStateM.bind
  rw [hparts]
  dsimp only
  rw [h]
  rfl

end Mounted

section Validated

theorem prepareCompile_eq_error (h : Path.segments w.config.assets.supportDir ≠ [])
    (files : NameMap String) :
    prepareCompile w files s = .error e s' ↔ compilerParts w s = .error e s' := by
  rw [prepareCompile_eq]
  exact mounted_eq_error fun (module, library, support) => Artifact.exists_mounts_iff.mpr h

theorem prepareTranspile_eq_error (h : Path.segments w.config.assets.supportDir ≠ [])
    (filename content : String) :
    prepareTranspile w filename content s = .error e s' ↔ transpilerParts w s = .error e s' := by
  rw [prepareTranspile_eq]
  refine mounted_eq_error fun (module, support) => ?_
  obtain ⟨root, hmounts, -⟩ := Derivative.mounts_of_segments h support.root filename content
  exact ⟨_, hmounts⟩

theorem result_compileFiles_of_root (h : Path.segments w.config.assets.supportDir = [])
    {parts : Bytes × SharedRoot × SharedRoot} (hparts : compilerParts w s = .ok parts s') :
    (compileFiles w files s).1.result = .error (.pathConflict (.emptyNestPath ".")) := by
  have hprepare : prepareCompile w files s = .error (.pathConflict (.emptyNestPath ".")) s' := by
    rw [prepareCompile_eq]
    refine mounted_of_error (.conflict (.emptyNestPath ".")) (fun (module, library, support) => ?_)
      hparts
    exact Artifact.mounts_of_blank h ..
  unfold compileFiles perform
  rw [hprepare]

theorem result_transpileFile_of_root (h : Path.segments w.config.assets.supportDir = [])
    {derived : String} (hn : w.config.transpile.derivedName? filename = some derived)
    {parts : Bytes × SharedRoot} (hparts : transpilerParts w s = .ok parts s') :
    (transpileFile w filename content s).1 =
      .error (.pathConflict (.emptyNestPath w.config.transpile.mount)) := by
  have hprepare : prepareTranspile w filename content s =
      .error (.pathConflict (.emptyNestPath w.config.transpile.mount)) s' := by
    rw [prepareTranspile_eq]
    refine mounted_of_error (.conflict (.emptyNestPath w.config.transpile.mount))
      (fun (module, support) => ?_) hparts
    exact Derivative.mounts_of_blank h ..
  unfold transpileFile perform
  simp only [hn, hprepare]

/-- With a valid configuration the mounts of both stages can be built whatever is put into them, and
only the toolchain can keep the programs from being run; unless the directory of the support sources
names the root. Then no mounts can be built, and what a stage answers is that. -/
theorem mounts_built_unless_root (hv : w.config.validate = .ok ()) :
    (¬ Path.NamesRoot w.config.assets.supportDir →
      (∀ library support files, ∃ t, Artifact.mounts w.config library support files = .ok t) ∧
      (∀ support filename content, ∃ t,
        Derivative.mounts w.config support filename content = .ok t) ∧
      ∀ s e s', (∀ files, prepareCompile w files s = .error e s' ↔ compilerParts w s = .error e s') ∧
        ∀ filename content,
          prepareTranspile w filename content s = .error e s' ↔ transpilerParts w s = .error e s') ∧
    (Path.NamesRoot w.config.assets.supportDir →
      (∀ library support files, Artifact.mounts w.config library support files =
        .error (.conflict (.emptyNestPath "."))) ∧
      (∀ support filename content, Derivative.mounts w.config support filename content =
        .error (.conflict (.emptyNestPath w.config.transpile.mount))) ∧
      (∀ files s parts s', compilerParts w s = .ok parts s' →
        (compileFiles w files s).1.result = .error (.pathConflict (.emptyNestPath "."))) ∧
      ∀ filename content derived s parts s',
        w.config.transpile.derivedName? filename = some derived →
        transpilerParts w s = .ok parts s' →
          (transpileFile w filename content s).1 =
            .error (.pathConflict (.emptyNestPath w.config.transpile.mount))) := by
  have hblank : Text.isBlankText w.config.assets.supportDir = false :=
    Config.not_blank_of_validate hv ("assets.support_dir", w.config.assets.supportDir)
      (by simp [Config.requiredTexts])
  rw [← Path.segments_eq_nil_iff_namesRoot hblank]
  constructor
  · intro h
    refine ⟨fun library support files => Artifact.exists_mounts_iff.mpr h,
      fun support filename content => ?_, fun s e s' => ⟨prepareCompile_eq_error h, ?_⟩⟩
    · obtain ⟨root, hmounts, -⟩ := Derivative.mounts_of_segments h support filename content
      exact ⟨_, hmounts⟩
    · exact prepareTranspile_eq_error h
  · intro h
    exact ⟨Artifact.mounts_of_blank h, Derivative.mounts_of_blank h,
      fun _ _ _ _ => result_compileFiles_of_root h,
      fun _ _ _ _ _ _ hn => result_transpileFile_of_root h hn⟩

theorem default_mounts_built :
    (∃ t, Artifact.mounts Workshop.idle.config .empty .empty leftover = .ok t) ∧
      ∃ t, Derivative.mounts Workshop.idle.config .empty "Page.zx" "<div/>" = .ok t := by
  have hv : Workshop.idle.config.validate = .ok () := by decide +kernel
  obtain ⟨hbuilt, -⟩ := mounts_built_unless_root hv
  obtain ⟨hcompiler, htranspiler, -⟩ := hbuilt (by decide +kernel)
  exact ⟨hcompiler .empty .empty leftover, htranspiler .empty "Page.zx" "<div/>"⟩

theorem valid_support_dir_names_root :
    let w : Workshop Unit Unit :=
      { Workshop.idle with config := { assets := { supportDir := "." } } }
    let s : Stages Unit Unit := { toolchain := .stocked, sandbox := () }
    w.config.validate = .ok () ∧
      (compileFiles w .empty s).1.result = .error (.pathConflict (.emptyNestPath ".")) ∧
      (transpileFile w "Page.zx" "<div/>" s).1 =
        .error (.pathConflict (.emptyNestPath "/codes")) := by
  decide +kernel

end Validated

end Stages

end Buildbox
