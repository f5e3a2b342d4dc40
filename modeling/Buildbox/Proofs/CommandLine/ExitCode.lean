import Buildbox.CommandLine.Outcome

/-! The exit code of a command that runs a project. Whoever watches the run notes whether it was
called errored; when the events are printed as they are, nobody watches. -/

namespace Buildbox.CommandLine

section Watching

variable (json : Bool) (events : List PipelineEvent) (disk : Disk)

theorem Watch.errored_see (w : Watch) (e : PipelineEvent) :
    (w.see json e).errored = true ↔ w.errored = true ∨ json = false ∧ e = .status .errored := by
  cases json with
  | true => simp [see]
  | false =>
    cases e with
    | status state => cases state <;> simp [see]
    | _ => simp [see]

theorem Watch.errored_foldl (w : Watch) :
    (events.foldl (see json) w).errored = true ↔
      w.errored = true ∨ json = false ∧ .status .errored ∈ events := by
  induction events generalizing w with
  | nil => simp
  | cons e rest ih =>
    rw [List.foldl_cons, ih, errored_see, List.mem_cons, or_assoc, ← and_or_left,
      eq_comm (a := e)]

theorem Watch.errored_iff : (events.foldl (see json) {}).errored = true ↔
    json = false ∧ .status .errored ∈ events := by
  rw [errored_foldl, or_iff_right Bool.false_ne_true]

variable {json events}

theorem reported_errored (h : json = false ∧ .status .errored ∈ events) :
    (reported json events disk).code = 1 ∧
      (reported json events disk).log = ["Error: build failed"] := by
  simp only [reported, (Watch.errored_iff json events).mpr h, if_true]
  exact ⟨rfl, rfl⟩

theorem reported_quiet (h : ¬ (json = false ∧ .status .errored ∈ events)) :
    (reported json events disk).code = 0 ∧ (reported json events disk).log = [] := by
  have hquiet := mt (Watch.errored_iff json events).mp h
  simp only [reported, hquiet]
  exact ⟨rfl, rfl⟩

end Watching

/-- What the end of a command that has watched a run tells of it. -/
structure Tells (json : Bool) (events : List PipelineEvent) (out : Outcome) : Prop where
  failed_iff : out.code = 1 ↔ json = false ∧ .status .errored ∈ events
  succeeded_iff : out.code = 0 ↔ ¬ (json = false ∧ .status .errored ∈ events)
  said_iff : out.log = ["Error: build failed"] ↔ json = false ∧ .status .errored ∈ events
  silent_iff : out.log = [] ↔ ¬ (json = false ∧ .status .errored ∈ events)

theorem tells_reported (json : Bool) (events : List PipelineEvent) (disk : Disk) :
    Tells json events (reported json events disk) := by
  by_cases h : json = false ∧ .status .errored ∈ events
  · obtain ⟨hcode, hlog⟩ := reported_errored disk h
    exact ⟨iff_of_true hcode h, iff_of_false (by rw [hcode]; decide) (not_not_intro h),
      iff_of_true hlog h, iff_of_false (by rw [hlog]; decide) (not_not_intro h)⟩
  · obtain ⟨hcode, hlog⟩ := reported_quiet disk h
    exact ⟨iff_of_false (by rw [hcode]; decide) h, iff_of_true hcode h,
      iff_of_false (by rw [hlog]; decide) h, iff_of_true hlog h⟩

section Run

variable {β : Type} (s : Sandboxes β) (client : WebClient) {o : Options} {c : Config} {dir : String}
  {disk : Disk}

theorem perform_unconfigured {fault : ConfigFault} (h : loadConfig disk o = .error fault)
    (task : Task) : (perform s client o task disk).code = 2 := by
  unfold perform
  rw [h]

theorem perform_run (h : loadConfig disk o = .ok c) :
    perform s client o (.run dir) disk = runProject s c client o.json dir disk := by
  unfold perform
  rw [h]

theorem runProject_unread {fault : Disk.Fault} (h : Disk.loadTree disk dir = .error fault)
    (json : Bool) :
    runProject s c client json dir disk = .failed disk ("Virtual file not found: " ++ dir) := by
  unfold runProject
  rw [h]
  rfl

variable {tree : Directory}

theorem runProject_unset {f : Failure} (h : Disk.loadTree disk dir = .ok tree)
    (hset : s.setUp c = .error f) (json : Bool) :
    runProject s c client json dir disk = .failed disk f.message := by
  unfold runProject
  simp only [h, hset]

theorem runProject_ran {sandbox : β} (h : Disk.loadTree disk dir = .ok tree)
    (hset : s.setUp c = .ok sandbox) (json : Bool) :
    runProject s c client json dir disk =
      reported json (projectRun s c client tree disk sandbox).1
        (projectRun s c client tree disk sandbox).2 := by
  unfold runProject
  simp only [h, hset]

end Run

/-- Whatever the events of a run are, a command that has watched it fails, and calls the build
failed, just if one of them is that it errored and they are not printed as they are. Over sandboxes
of any kind, a command that runs a project ends so, unless its configuration cannot be used, the
project cannot be read or there is no sandbox for it. So it ends alike with and without the events
printed just if the run did not error. -/
theorem exit_code_of_run {β : Type} (s : Sandboxes β) (client : WebClient) (o : Options)
    (dir : String) (disk : Disk) :
    (∀ json events disk, Tells json events (reported json events disk)) ∧
    let out (json : Bool) := perform s client { o with json } (.run dir) disk
    (∀ fault, loadConfig disk o = .error fault → ∀ json, (out json).code = 2) ∧
    ∀ c, loadConfig disk o = .ok c →
      (∀ fault, Disk.loadTree disk dir = .error fault →
        ∀ json, out json = .failed disk ("Virtual file not found: " ++ dir)) ∧
      ∀ tree, Disk.loadTree disk dir = .ok tree →
        (∀ f, s.setUp c = .error f → ∀ json, out json = .failed disk f.message) ∧
        ∀ sandbox, s.setUp c = .ok sandbox →
          let events := (projectRun s c client tree disk sandbox).1
          (∀ json, Tells json events (out json)) ∧
          ((out true).code = (out false).code ↔ .status .errored ∉ events) := by
  refine ⟨tells_reported, ?_⟩
  intro out
  refine ⟨fun fault hload json => perform_unconfigured s client (o := { o with json }) hload _,
    fun c hload => ?_⟩
  have hout (json : Bool) : out json = runProject s c client json dir disk :=
    perform_run s client (o := { o with json }) hload
  refine ⟨fun fault hread json => (hout json).trans (runProject_unread s client hread json),
    fun tree hread => ⟨fun f hset json => ?_, fun sandbox hset => ?_⟩⟩
  · exact (hout json).trans (runProject_unset s client hread hset json)
  intro events
  have htells (json : Bool) : Tells json events (out json) := by
    rw [hout json, runProject_ran s client hread hset json]
    exact tells_reported json events _
  refine ⟨htells, ?_⟩
  have hprinted : (out true).code = 0 := (htells true).succeeded_iff.mpr fun h => nomatch h.1
  rw [hprinted, eq_comm, (htells false).succeeded_iff]
  simp

def closedSandboxes : Sandboxes Unit where
  setUp _ := .ok ()
  execution _ _ u := (⟨.error (.instantiate "closed"), []⟩, u)

section Failed

def offline : WebClient :=
  fun _ => .error "offline"

def lonelyProject : Disk :=
  (Directory.empty.insertFile "proj/main.zig" [109]).2

theorem failed_build_told :
    let out (json : Bool) :=
      perform closedSandboxes offline { assets := some "assets", json } (.run "proj") lonelyProject
    (out false).code = 1 ∧ (out false).log = ["Error: build failed"] ∧ (out true).code = 0 := by
  intro out
  have hload : loadConfig lonelyProject { assets := some "assets" } =
      .ok { assets := { base := "assets" } } := rfl
  have hread : Disk.loadTree lonelyProject "proj" =
      .ok (Directory.empty.insertFile "main.zig" [109]).2 := rfl
  have hruns := (exit_code_of_run closedSandboxes offline { assets := some "assets" } "proj"
    lonelyProject).2.2 _ hload
  obtain ⟨htells, -⟩ := (hruns.2 _ hread).2 () rfl
  have herrored : .status .errored ∈ (projectRun closedSandboxes
      { assets := { base := "assets" } } offline (Directory.empty.insertFile "main.zig" [109]).2
      lonelyProject ()).1 := by decide +kernel
  exact ⟨(htells false).failed_iff.mpr ⟨rfl, herrored⟩,
    (htells false).said_iff.mpr ⟨rfl, herrored⟩,
    (htells true).succeeded_iff.mpr fun h => nomatch h.1⟩

theorem failed_build_exits_well :
    .status .errored ∈ (projectRun closedSandboxes { assets := { base := "assets" } } offline
        (Directory.empty.insertFile "main.zig" [109]).2 lonelyProject ()).1 ∧
      (runIn closedSandboxes offline ["--assets", "assets", "run", "proj"] lonelyProject).code =
        1 ∧
      (runIn closedSandboxes offline ["--assets", "assets", "--json", "run", "proj"]
        lonelyProject).code = 0 := by
  refine ⟨by decide +kernel, by decide +kernel, by decide +kernel⟩

end Failed

end Buildbox.CommandLine
