import Buildbox.Proofs.Pipeline.InTurn

/-! Sources and what is derived from them stay apart in the merged files. A source is told by its
stem; the name that is derived has the same stem, and is no source. -/

namespace Buildbox

namespace Path

variable {name ext stem other : String}

/-- A name made of a stem, a dot and an extension. The stem is not blank as a file name: there is
something, and no slash at its end. -/
structure HasStem (name ext stem : String) : Prop where
  name_eq : name = stem ++ "." ++ ext
  ne_blank : stem ≠ ""
  no_slash : stem.toList.getLast? ≠ some '/'

theorem stem?_eq_some_iff : stem? name ext = some stem ↔ HasStem name ext stem := by
  have hname : name = stem ++ "." ++ ext ↔ name.toList = stem.toList ++ '.' :: ext.toList := by
    rw [← TranspileConfig.toList_derived, String.toList_inj]
  have hblank : stem ≠ "" ↔ stem.toList ≠ [] := not_congr String.toList_eq_nil_iff.symm
  rw [stem?_eq_some, ← hname, ← hblank]
  exact ⟨fun ⟨h, h', h''⟩ => ⟨h, h', h''⟩, fun h => ⟨h.name_eq, h.ne_blank, h.no_slash⟩⟩

theorem HasStem.unique (h : HasStem name ext stem) (h' : HasStem name ext other) :
    stem = other := by
  have hstems : some stem = some other :=
    (stem?_eq_some_iff.mpr h).symm.trans (stem?_eq_some_iff.mpr h')
  exact Option.some.inj hstems

end Path

namespace TranspileConfig

variable {c : TranspileConfig} {name other derived : String}

theorem isSource_iff : c.isSource name = true ↔ ∃ stem, Path.HasStem name c.sourceExt stem := by
  rw [isSource, Option.isSome_iff_exists]
  exact exists_congr fun stem => Path.stem?_eq_some_iff

theorem derivedName?_iff :
    c.derivedName? name = some derived ↔
      ∃ stem, Path.HasStem name c.sourceExt stem ∧ derived = stem ++ "." ++ c.targetExt := by
  rw [derivedName?_eq_some]
  exact exists_congr fun stem => and_congr Path.stem?_eq_some_iff eq_comm

theorem eq_of_derivedName?_eq (hname : c.isSource name = true)
    (h : c.derivedName? name = c.derivedName? other) : name = other := by
  have hsome : (c.derivedName? name).isSome := isSome_derivedName?.trans hname
  obtain ⟨derived, hderived⟩ := Option.isSome_iff_exists.mp hsome
  exact derivedName?_inj hderived (h ▸ hderived)

end TranspileConfig

namespace Course

variable {c : TranspileConfig} {files merged : NameMap String} {names : List String}
  {xs : List Exchange} {pairs : List (String × String)}

/-- The files merged with what was derived in some exchanges: every source has a derivative of its
own, and no source is overwritten. -/
structure Merged (c : TranspileConfig) (files : NameMap String) (xs : List Exchange)
    (merged : NameMap String) : Prop where
  sources : ∀ name, c.isSource name = true → merged.get? name = files.get? name
  derived : ∀ name content, c.isSource name = true → files.get? name = some content →
    ∃ derived answer text, .transpile ⟨name, content⟩ answer ∈ xs ∧ answer.Derives derived text ∧
      c.derivedName? name = some derived ∧ merged.get? derived = some text
  others : ∀ other, (∀ name, (files.get? name).isSome → c.derivedName? name ≠ some other) →
    merged.get? other = files.get? other

theorem Derived.exists_pair (h : Derived c files names xs pairs) :
    ∀ name ∈ names, ∃ content derived answer text, files.get? name = some content ∧
      .transpile ⟨name, content⟩ answer ∈ xs ∧ answer.Derives derived text ∧
      c.derivedName? name = some derived ∧ (derived, text) ∈ pairs := by
  induction h with
  | start => exact fun _ hname => absurd hname List.not_mem_nil
  | @next names xs pairs last content derived text answer h hc hn ha ih =>
    intro name hname
    rcases List.mem_append.mp hname with hname | hname
    · obtain ⟨content', derived', answer', text', hc', hx, ha', hn', hp⟩ := ih name hname
      exact ⟨content', derived', answer', text', hc', List.mem_append_left _ hx, ha', hn',
        List.mem_append_left _ hp⟩
    · obtain rfl := List.mem_singleton.mp hname
      exact ⟨content, derived, answer, text, hc, by simp, ha, hn, by simp⟩

theorem merged_of_derived {config : Config} (hv : config.validate = .ok ())
    (h : Derived config.transpile files (sources config.transpile.sourceExt files) xs pairs)
    (hm : files.Overridden pairs merged) : Merged config.transpile files xs merged := by
  constructor
  case sources =>
    intro name hname
    refine hm.kept name fun hmem => ?_
    obtain ⟨source, -, hderived⟩ := h.source name hmem
    have hno := TranspileConfig.not_isSource_derived hv hderived
    rw [hname] at hno
    cases hno
  case derived =>
    intro name content hname hfile
    have hmem : name ∈ Course.sources config.transpile.sourceExt files :=
      mem_sources.mpr ⟨by rw [hfile]; rfl, hname⟩
    obtain ⟨content', derived, answer, text, hfile', hx, ha, hn, hp⟩ := h.exists_pair name hmem
    obtain rfl : content = content' := Option.some.inj (hfile.symm.trans hfile')
    exact ⟨derived, answer, text, hx, ha, hn, hm.held _ hp⟩
  case others =>
    intro other hother
    refine hm.kept other fun hmem => ?_
    obtain ⟨source, hsource, hderived⟩ := h.source other hmem
    exact hother source (mem_sources.mp hsource).1 hderived

/-- Extensions that a valid configuration has keep sources and derived names apart. A name is a
source just if it is made of a stem and the source extension, and this stem is the only one; the
derived name is the same stem with the target extension. It is no source, and sources that are
derived to one name are one. So when all sources of a run are transpiled and what is derived is
merged into the files, no source is overwritten, and all derivatives are there. -/
theorem sources_apart_from_derivatives {σ β : Type} (w : Workshop σ β)
    (hv : w.config.validate = .ok ()) :
    let c := w.config.transpile
    (∀ name, c.isSource name = true ↔ ∃ stem, Path.HasStem name c.sourceExt stem) ∧
    (∀ name stem other, Path.HasStem name c.sourceExt stem →
      Path.HasStem name c.sourceExt other → stem = other) ∧
    (∀ name derived, c.derivedName? name = some derived ↔
      ∃ stem, Path.HasStem name c.sourceExt stem ∧ derived = stem ++ "." ++ c.targetExt) ∧
    (∀ name derived, c.derivedName? name = some derived → c.isSource derived = false) ∧
    (∀ name other, c.isSource name = true → c.derivedName? name = c.derivedName? other →
      name = other) ∧
    ∀ files xs es merged, (transpileAll c.sourceExt files).Runs xs es (some merged) →
      (∀ x ∈ xs, x.Genuine w) → Merged c files xs merged := by
  intro c
  refine ⟨fun name => TranspileConfig.isSource_iff, fun name stem other h h' => h.unique h',
    fun name derived => TranspileConfig.derivedName?_iff,
    fun name derived h => TranspileConfig.not_isSource_derived hv h,
    fun name other hname h => TranspileConfig.eq_of_derivedName?_eq hname h, ?_⟩
  intro files xs es merged hruns hgenuine
  obtain ⟨pairs, hderived, hoverridden⟩ := transpileAll_through hv hruns hgenuine
  exact merged_of_derived hv hderived hoverridden

def withLikeExtensions : Workshop Unit Unit :=
  { Workshop.printing with config := { transpile := { sourceExt := "x", targetExt := "zx" } } }

theorem sources_apart_from_like_derivatives :
    let files := NameMap.ofList [("a.b.x", "1"), ("a.x", "2"), ("a.zx", "old"), ("b/.x", "3")]
    let merged := NameMap.ofList
      [("a.b.x", "1"), ("a.b.zx", "t"), ("a.x", "2"), ("a.zx", "t"), ("b/.x", "3")]
    withLikeExtensions.config.validate = .ok () ∧
    ∃ xs es, (transpileAll "x" files).Runs xs es (some merged) ∧
      (∀ x ∈ xs, x.Genuine withLikeExtensions) ∧
      Merged withLikeExtensions.config.transpile files xs merged := by
  intro files merged
  let s : Stages Unit Unit := { toolchain := Toolchain.stocked, sandbox := () }
  have hv : withLikeExtensions.config.validate = .ok () := by rfl
  have hruns := Stages.runs_visits (w := withLikeExtensions) (transpileAll "x" files) s
  have hmerged : ((transpileAll "x" files).hold (Stages.crew withLikeExtensions) s).1.2 =
      some merged := by
    dsimp only [files, merged, s]
    rfl
  rw [hmerged] at hruns
  have hgenuine : ∀ x ∈ (Stages.visits withLikeExtensions (transpileAll "x" files) s).map
      Visit.exchange, x.Genuine withLikeExtensions := by
    intro x hx
    obtain ⟨v, hv, rfl⟩ := List.mem_map.mp hx
    exact (Stages.handled_visits _ s v hv).genuine
  obtain ⟨-, -, -, -, -, hloop⟩ := sources_apart_from_derivatives withLikeExtensions hv
  exact ⟨hv, _, _, hruns, hgenuine, hloop files _ _ merged hruns hgenuine⟩

end Course

end Buildbox
