import Buildbox.Proofs.Pipeline.Report
import Buildbox.Proofs.Pipeline.Serial
import Buildbox.Proofs.Stage.DerivedNames

/-! The sources of a run are derived in turn, and what is derived overrides the files. While this
goes on, the files that are still to come are as they were: no derived file is a source, and no
two sources are derived to one name. -/

namespace Buildbox

namespace NameMap

variable {α : Type} {m merged : NameMap α} {name : String} {pairs : List (String × α)}

theorem get?_isSome_iff : (m.get? name).isSome ↔ name ∈ m.names := by
  unfold get? names
  induction m.entries with
  | nil => simp [find]
  | cons e rest ih =>
    by_cases h : e.1 = name
    · simp [find, h]
    · simp [find, h, ih, Ne.symm h]

theorem pairwise_names (m : NameMap α) : m.names.Pairwise (· < ·) :=
  List.pairwise_map.mpr m.sorted

structure Overridden (m : NameMap α) (pairs : List (String × α)) (merged : NameMap α) : Prop where
  held : ∀ p ∈ pairs, merged.get? p.1 = some p.2
  kept : ∀ name, name ∉ pairs.map (·.1) → merged.get? name = m.get? name

theorem overridden_nil (m : NameMap α) : m.Overridden [] m :=
  ⟨fun _ hp => absurd hp List.not_mem_nil, fun _ _ => rfl⟩

theorem Overridden.insert (h : m.Overridden pairs merged) (hn : name ∉ pairs.map (·.1)) (a : α) :
    m.Overridden (pairs ++ [(name, a)]) (merged.insert name a) := by
  constructor
  · intro p hp
    rw [get?_insert]
    rcases List.mem_append.mp hp with hp | hp
    · have hne : name ≠ p.1 := fun heq => hn (heq ▸ List.mem_map_of_mem hp)
      rw [if_neg hne]
      exact h.held p hp
    · rw [List.mem_singleton.mp hp, if_pos rfl]
  · intro other hother
    have hsplit : other ∉ pairs.map (·.1) ∧ other ≠ name := by
      simpa [not_or] using hother
    rw [get?_insert, if_neg (Ne.symm hsplit.2)]
    exact h.kept other hsplit.1

end NameMap

def Answer.TellsRun {σ β : Type} (w : Workshop σ β) (request : TranspileRequest)
    (answer : Answer TranspileResponse) : Prop :=
  ∀ replies, answer = .ok replies → ∃ x, replies = Stages.replies w .transpile request x

/-- The worker of the transpiler replies as it does, whatever the others do. -/
def Exchange.Genuine {σ β : Type} (w : Workshop σ β) : Exchange → Prop
  | .transpile request answer => answer.TellsRun w request
  | _ => True

namespace Course

variable {c : TranspileConfig} {files : NameMap String}

section Sources

theorem pairwise_sources (ext : String) (files : NameMap String) :
    (sources ext files).Pairwise (· < ·) :=
  files.pairwise_names.filter _

theorem mem_sources {ext name : String} :
    name ∈ sources ext files ↔ (files.get? name).isSome ∧ (Path.stem? name ext).isSome := by
  rw [sources, List.mem_filter, NameMap.get?_isSome_iff]

theorem not_mem_of_sources {ext name : String} {before later : List String}
    (hs : sources ext files = before ++ name :: later) : name ∉ before := by
  intro hmem
  have hsorted := hs ▸ pairwise_sources ext files
  have hlt := (List.pairwise_append.mp hsorted).2.2 name hmem name List.mem_cons_self
  exact String.lt_irrefl name hlt

end Sources

inductive Derived (c : TranspileConfig) (files : NameMap String) :
    List String → List Exchange → List (String × String) → Prop where
  | start : Derived c files [] [] []
  | next {names xs pairs name content derived text answer} (h : Derived c files names xs pairs)
    (hc : files.get? name = some content) (hn : c.derivedName? name = some derived)
    (ha : Answer.Derives answer derived text) :
    Derived c files (names ++ [name]) (xs ++ [.transpile ⟨name, content⟩ answer])
      (pairs ++ [(derived, text)])

/-- The exchanges of a run: the sources in turn up to the first that fails, or all of them, then
the files with what was derived, and then what was built of these. -/
inductive InTurn (c : TranspileConfig) (files : NameMap String) : List Exchange → Prop where
  | failed {names name later xs pairs content answer}
    (hs : sources c.sourceExt files = names ++ name :: later) (h : Derived c files names xs pairs)
    (hc : files.get? name = some content) (hd : ∀ name text, ¬ Answer.Derives answer name text) :
    InTurn c files (xs ++ [.transpile ⟨name, content⟩ answer])
  | compiled {xs pairs merged answer later}
    (h : Derived c files (sources c.sourceExt files) xs pairs)
    (hm : files.Overridden pairs merged)
    (hl : later = [] ∨
      ∃ bytes answer', Answer.Builds answer bytes ∧ later = [.execute ⟨bytes⟩ answer']) :
    InTurn c files (xs ++ .compile ⟨merged⟩ answer :: later)

variable {names : List String} {xs : List Exchange} {pairs : List (String × String)}

theorem Derived.source (h : Derived c files names xs pairs) :
    ∀ derived ∈ pairs.map (·.1), ∃ name ∈ names, c.derivedName? name = some derived := by
  induction h with
  | start => exact fun _ hd => absurd hd List.not_mem_nil
  | @next names xs pairs name content derived text answer h hc hn ha ih =>
    intro d hd
    rw [List.map_append, List.mem_append] at hd
    rcases hd with hd | hd
    · obtain ⟨source, hmem, hsource⟩ := ih d hd
      exact ⟨source, List.mem_append_left _ hmem, hsource⟩
    · obtain rfl := List.mem_singleton.mp hd
      exact ⟨name, by simp, hn⟩

section Transpile

variable {σ β : Type} {w : Workshop σ β} {ys : List Exchange} {es : List PipelineEvent}
  {result : Option (NameMap String)}

def Through (c : TranspileConfig) (files : NameMap String) (xs : List Exchange) :
    Option (NameMap String) → Prop
  | none => InTurn c files xs
  | some merged => ∃ pairs, Derived c files (sources c.sourceExt files) xs pairs ∧
      files.Overridden pairs merged

theorem transpileEach_through (hv : w.config.validate = .ok ()) {total k : Nat}
    {before names : List String} {merged : NameMap String}
    (hs : sources w.config.transpile.sourceExt files = before ++ names)
    (hd : Derived w.config.transpile files before xs pairs) (hm : files.Overridden pairs merged)
    (h : (transpileEach total k names merged).Runs ys es result) (hg : ∀ y ∈ ys, y.Genuine w) :
    Through w.config.transpile files (xs ++ ys) result := by
  induction names generalizing before xs pairs merged k ys es with
  | nil =>
    obtain ⟨_, hrest, rfl⟩ := h.reportAll_bind
    obtain ⟨rfl, rfl, rfl⟩ := hrest.pure
    rw [List.append_nil] at hs ⊢
    exact ⟨pairs, hs ▸ hd, hm⟩
  | cons name rest ih =>
    cases h with
    | @transpile _ _ answer ys fs _ h =>
    have hsource : name ∈ sources w.config.transpile.sourceExt files := by
      rw [hs]
      exact List.mem_append_right _ List.mem_cons_self
    rw [mem_sources] at hsource
    obtain ⟨content, hcontent⟩ := Option.isSome_iff_exists.mp hsource.1
    have hderived? : (w.config.transpile.derivedName? name).isSome :=
      TranspileConfig.isSome_derivedName?.trans hsource.2
    obtain ⟨derived', hname⟩ := Option.isSome_iff_exists.mp hderived?
    -- A derived file is no source, so the content is the one that was there at the start.
    have hfresh : name ∉ pairs.map (·.1) := by
      intro hmem
      obtain ⟨source, -, hderived⟩ := hd.source name hmem
      have hno := TranspileConfig.not_isSource_derived hv hderived
      rw [← TranspileConfig.isSome_derivedName?, hderived?] at hno
      cases hno
    have hrequest : (merged.get? name).getD "" = content := by
      rw [hm.kept name hfresh, hcontent, Option.getD_some]
    rw [hrequest] at hg ⊢
    dsimp only at h
    cases hanswer : (answer.mapError Failure.message).bind (derived name) with
    | error stderr =>
      rw [hanswer] at h
      obtain ⟨_, hrest, rfl⟩ := h.reportAll_bind
      obtain ⟨rfl, rfl, rfl⟩ := hrest.pure
      exact .failed hs hd hcontent (not_derives_of_error hanswer)
    | ok p =>
      obtain ⟨returned, text⟩ := p
      rw [hanswer] at h
      obtain ⟨_, hrest, rfl⟩ := h.reportAll_bind
      have hderives := derives_of_ok hanswer
      have hreturned : returned = derived' := by
        obtain ⟨earlier, rfl⟩ := hderives
        obtain ⟨x, hx⟩ := hg _ List.mem_cons_self _ rfl
        have hmem : .transpiled returned text ∈ Stages.replies w .transpile ⟨name, content⟩ x := by
          rw [← hx]
          simp
        have htold := Stages.name_of_transpiled hmem
        rwa [hname] at htold
      subst hreturned
      -- No earlier source was derived to this name.
      have hnew : returned ∉ pairs.map (·.1) := by
        intro hmem
        obtain ⟨source, hbefore, hderived⟩ := hd.source returned hmem
        obtain rfl := TranspileConfig.derivedName?_inj hderived hname
        exact not_mem_of_sources hs hbefore
      have hnext := ih (by rw [hs, List.append_assoc]; rfl) (hd.next hcontent hname hderives)
        (hm.insert hnew text) hrest fun y hy => hg y (List.mem_cons_of_mem _ hy)
      rwa [List.append_assoc] at hnext

theorem transpileAll_through (hv : w.config.validate = .ok ())
    (h : (transpileAll w.config.transpile.sourceExt files).Runs ys es result)
    (hg : ∀ y ∈ ys, y.Genuine w) : Through w.config.transpile files ys result := by
  unfold transpileAll at h
  cases hs : sources w.config.transpile.sourceExt files with
  | nil =>
    rw [hs] at h
    obtain ⟨rfl, rfl, rfl⟩ := h.pure
    exact ⟨[], hs ▸ .start, files.overridden_nil⟩
  | cons name names =>
    rw [hs] at h
    obtain ⟨_, hrest, rfl⟩ := h.reportAll_bind
    exact transpileEach_through hv hs .start files.overridden_nil hrest hg

end Transpile

theorem run_inTurn {σ β : Type} {w : Workshop σ β} (hv : w.config.validate = .ok ())
    {ys : List Exchange} {es last : List PipelineEvent}
    (h : (run w.config.transpile.sourceExt files).Runs ys es last) (hg : ∀ y ∈ ys, y.Genuine w) :
    InTurn w.config.transpile files ys := by
  obtain ⟨xs₁, es₁, derived, _, _, htranspile, h, rfl, rfl⟩ := h.bind
  have ht := transpileAll_through hv htranspile fun y hy => hg y (List.mem_append_left _ hy)
  cases derived with
  | none =>
    obtain ⟨rfl, rfl, rfl⟩ := h.pure
    rw [List.append_nil]
    exact ht
  | some merged =>
    obtain ⟨pairs, hd, hm⟩ := ht
    obtain ⟨xs₂, es₂, build, _, _, hcompile, h, rfl, rfl⟩ := h.bind
    obtain ⟨answer, rfl, hc⟩ := compile_phase hcompile
    rcases build with _ | bytes | _
    · obtain ⟨rfl, rfl, rfl⟩ := h.pure
      exact .compiled hd hm (.inl rfl)
    · obtain ⟨_, _, _, _, _, hexecute, hend, rfl, rfl⟩ := h.bind
      obtain ⟨answer', rfl, -⟩ := execute_phase hexecute
      obtain ⟨rfl, rfl, rfl⟩ := hend.pure
      cases hc with
      | built hb => exact .compiled hd hm (.inr ⟨bytes, answer', hb, rfl⟩)
    · obtain ⟨rfl, rfl, rfl⟩ := h.pure
      exact .compiled hd hm (.inl rfl)

end Course

theorem Visit.Handled.genuine {σ β : Type} {w : Workshop σ β} {v : Visit} (h : v.Handled w) :
    v.exchange.Genuine w := by
  cases h with
  | @ran step r i x =>
    cases step with
    | transpile => exact fun replies heq => ⟨x, (Except.ok.inj heq).symm⟩
    | compile => trivial
    | execute => trivial
  | @refused step r f =>
    cases step with
    | transpile => exact fun replies heq => ⟨⟨.error f, []⟩, (Except.ok.inj heq).symm⟩
    | compile => trivial
    | execute => trivial

namespace Floor

variable {σ β : Type}

/-- The sources of a run are the files at its start that have the source extension, by name. One
after the other is transpiled, each as it was; after a failure nothing is asked any more; else the
files are compiled with what was derived over them. So it is whatever else the stages are used for
meanwhile, and on a floor it is so request by request: the next one is posted when the streams of
all earlier ones have closed. -/
theorem sources_derived_in_turn (w : Workshop σ β) (hv : w.config.validate = .ok ())
    (files : NameMap String) :
    let c := w.config.transpile
    let course := Course.run c.sourceExt files
    (Course.sources c.sourceExt files).Pairwise (· < ·) ∧
    (∀ name, name ∈ Course.sources c.sourceExt files ↔
      (files.get? name).isSome ∧ (Path.stem? name c.sourceExt).isSome) ∧
    (∀ xs es last, course.Runs xs es last → (∀ x ∈ xs, x.Genuine w) →
      Course.InTurn c files xs) ∧
    ∀ toolchain sandbox before after,
      let f := (start toolchain sandbox).actAll w before
      f.pipeline.inFlight = false →
      let g := (f.ask w files).actAll w after
      let log := (f.ask w files).log w f.drivers.length after
      let visits := Stages.visits w course f.pipeline.stages
      Course.InTurn c files (visits.map Visit.exchange) ∧
      log <+: visits.flatMap Visit.letters ∧
      (∃ d, g.drivers[f.drivers.length]? = some d ∧
        (d.turn.Left → log = visits.flatMap Visit.letters)) ∧
      ∀ action step, ((g.act w action).mailbox step).posted ≠ (g.mailbox step).posted →
        ∀ other, (g.mailbox other).closed = List.range (g.mailbox other).posted := by
  intro c course
  refine ⟨Course.pairwise_sources _ files, fun name => Course.mem_sources,
    fun xs es last h hg => Course.run_inTurn hv h hg, ?_⟩
  intro toolchain sandbox before after f hf g log visits
  have ho : f.Orderly := orderly_actAll (orderly_start toolchain sandbox) w before
  have hgenuine : ∀ x ∈ visits.map Visit.exchange, x.Genuine w := by
    intro x hx
    obtain ⟨v, hv, rfl⟩ := List.mem_map.mp hx
    exact (Stages.handled_visits course f.pipeline.stages v hv).genuine
  have hruns := Stages.runs_visits (w := w) course f.pipeline.stages
  obtain ⟨d, hd, htracks⟩ := tracks_run ho hf w files after
  refine ⟨Course.run_inTurn hv hruns hgenuine, htracks.log_le, ⟨d, hd, htracks.log_of_left⟩, ?_⟩
  intro action step hposted other
  exact (orderly_actAll (orderly_ask ho w files) w after).closed_of_posted hposted other

end Floor

def Toolchain.stocked : Toolchain Unit where
  archives :=
    let assets : AssetConfig := {}
    { source := ()
      cache := { filled := [(assets.libraryKey, ⟨0, .empty⟩), (assets.supportKey, ⟨1, .empty⟩)] } }
  modules := NameMap.ofList [("zig.wasm", []), ("zx.wasm", [])]

def Workshop.printing : Workshop Unit Unit where
  config := {}
  fetch := fun url => throw (.fetch url .notFound)
  backend := fun _ _ s => (⟨.ok ⟨.exited 0, "t", "", []⟩, []⟩, s)

namespace Floor

theorem sources_derived_in_turn_over_old :
    let w := Workshop.printing
    let files := NameMap.ofList [("a.zig", "old"), ("a.zx", "a"), ("b.zx", "b")]
    let f := start Toolchain.stocked ()
    let visits := Stages.visits w (Course.run "zx" files) f.pipeline.stages
    let asks : List Action := [.advance 0, .advance 0, .advance 0, .take .transpile]
    w.config.validate = .ok () ∧ f.pipeline.inFlight = false ∧
    visits.map Visit.exchange =
      [.transpile ⟨"a.zx", "a"⟩ (.ok [.transpiled "a.zig" "t"]),
        .transpile ⟨"b.zx", "b"⟩ (.ok [.transpiled "b.zig" "t"]),
        .compile ⟨.ofList [("a.zig", "t"), ("a.zx", "a"), ("b.zig", "t"), ("b.zx", "b")]⟩
          (.ok [])] ∧
    Course.InTurn w.config.transpile files (visits.map Visit.exchange) ∧
    (f.ask w files).log w 0 asks = [.asked .transpile ⟨"a.zx", "a"⟩] ∧
    (f.ask w files).log w 0 asks <+: visits.flatMap Visit.letters := by
  have hv : Workshop.printing.config.validate = .ok () := by rfl
  refine ⟨hv, by rfl, by rfl, ?turn, by rfl, ?log⟩
  case turn =>
    obtain ⟨-, -, -, hfloor⟩ := sources_derived_in_turn Workshop.printing hv
      (NameMap.ofList [("a.zig", "old"), ("a.zx", "a"), ("b.zx", "b")])
    exact (hfloor Toolchain.stocked () [] [] rfl).1
  case log =>
    obtain ⟨-, -, -, hfloor⟩ := sources_derived_in_turn Workshop.printing hv
      (NameMap.ofList [("a.zig", "old"), ("a.zx", "a"), ("b.zx", "b")])
    exact (hfloor Toolchain.stocked () [] _ rfl).2.1

end Floor

end Buildbox
