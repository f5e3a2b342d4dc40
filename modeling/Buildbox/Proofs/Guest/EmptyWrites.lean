import Buildbox.Proofs.Guest.Faults
import Buildbox.Proofs.Host.Moving
import Buildbox.Proofs.Host.Writing

/-! Writes of no bytes. They change no file and cost nothing where they start inside the file or at
its end. Behind the end they fill the file with zeros up to where they start, and pay for that. -/

namespace Buildbox

namespace Host

open HostM

variable {h h' : Host} {c : Call} {fd : Fd} {i : Nat} {path : List String} {bytes : Bytes}
  {place : Nat × List String} {start : UInt64}

def Call.writesNothing : Call → Bool
  | .fdWrite _ data | .fdPwrite _ data _ => data.isEmpty
  | _ => false

/-- The file that a call writes into, what it holds, and where the data would start. -/
inductive WritesAt (h : Host) : Call → Nat × List String → Bytes → UInt64 → Prop where
  | fdWrite {fd data i path position append bytes}
    (hd : h.fds.get? fd = some (.file i path position append))
    (hb : h.nodeAt? i path = some (.file bytes)) :
    WritesAt h (.fdWrite fd data) (i, path) bytes (writeStart bytes position append)
  | fdPwrite {fd data offset i path position append bytes}
    (hd : h.fds.get? fd = some (.file i path position append))
    (hb : h.nodeAt? i path = some (.file bytes)) :
    WritesAt h (.fdPwrite fd data offset) (i, path) bytes offset

/-- A call that left every tree and the budget as they were, and was not refused for its size. -/
structure Harmless (h h' : Host) (refused : Prop) : Prop where
  mounts : h'.mounts = h.mounts
  fileBudget : h'.fileBudget = h.fileBudget
  accepted : ¬ refused

section Empty

theorem exists_writes (hv : h.mounts.Valid) (hc : c.writesNothing = true)
    (hw : h.WritesAt c (i, path) bytes start) :
    h.nodeAt? i path = some (.file bytes) ∧ ∃ fds, Writes h c (i, path) bytes start [] fds := by
  cases hw with
  | @fdWrite _ data _ _ _ _ _ hd hb =>
    obtain rfl : data = [] := List.isEmpty_iff.mp hc
    exact ⟨hb, _, writes_fdWrite hb (length_lt_of_nodeAt? hv hb) hd []⟩
  | @fdPwrite _ data _ _ _ _ _ _ hd hb =>
    obtain rfl : data = [] := List.isEmpty_iff.mp hc
    exact ⟨hb, _, writes_fdPwrite hb (length_lt_of_nodeAt? hv hb) hd [] start⟩

theorem fileBytes_ne_fbig : h.fileBytes i path ≠ .error .fbig := by
  unfold fileBytes root
  cases h.mounts[i]? with
  | none => nofun
  | some m =>
    cases hl : m.root.lookup path with
    | none => simp [bind, Except.bind, hl, throw, throwThe, MonadExceptOf.throw]
    | some e =>
      cases e <;> simp [bind, Except.bind, hl, pure, Except.pure, throw, throwThe,
        MonadExceptOf.throw]

theorem exists_file_of_writeFile {offset : Bytes → UInt64} {data : Bytes}
    (herr : writeFile i path offset data h = .error (.errno .fbig) h') :
    ∃ bytes, h.nodeAt? i path = some (.file bytes) := by
  unfold writeFile at herr
  obtain hread | ⟨bytes, _, hok, -⟩ := bind_eq_error.mp herr
  · obtain ⟨_, hfile, hcode, -⟩ := read_eq_error.mp hread
    cases hcode
    exact absurd hfile fileBytes_ne_fbig
  · exact ⟨bytes, fileBytes_eq_ok.mp (read_eq_ok.mp hok).1⟩

theorem descriptor_ne_fbig : h.descriptor fd ≠ .error .fbig := by
  unfold descriptor
  cases h.fds.get? fd <;> nofun

theorem exists_descriptor_of_fbig {f : Descriptor → HostM Nat}
    (herr : (HostM.read (·.descriptor fd) >>= f) h = .error (.errno .fbig) h') :
    ∃ d, h.fds.get? fd = some d ∧ f d h = .error (.errno .fbig) h' := by
  obtain hread | ⟨d, _, hok, herr⟩ := bind_eq_error.mp herr
  · obtain ⟨_, hfd, hcode, -⟩ := read_eq_error.mp hread
    cases hcode
    exact absurd hfd descriptor_ne_fbig
  · obtain ⟨hd, rfl⟩ := read_eq_ok.mp hok
    exact ⟨d, descriptor_eq_ok.mp hd, herr⟩

theorem perform_eq_error {e : Refusal} (herr : (h.step c).1 = .error e) :
    perform c h = .error e (h.step c).2 := by
  unfold step at herr ⊢
  cases hp : perform c h with
  | ok r h' =>
    rw [hp] at herr
    cases herr
  | error e' h' =>
    rw [hp] at herr
    cases herr
    rfl

theorem exists_writesAt_of_fbig (hc : c.writesNothing = true)
    (herr : (h.step c).1 = .error (.errno .fbig)) :
    ∃ place bytes start, h.WritesAt c place bytes start := by
  cases c with
  | fdWrite fd data =>
    obtain ⟨d, hd, herr⟩ := exists_descriptor_of_fbig (map_eq_error.mp (perform_eq_error herr))
    cases d with
    | stdin | output | dir => cases herr
    | file i path position append =>
      obtain hwrite | ⟨_, _, -, hmove⟩ := bind_eq_error.mp herr
      · obtain ⟨bytes, hb⟩ := exists_file_of_writeFile hwrite
        exact ⟨_, _, _, .fdWrite hd hb⟩
      · cases hmove
  | fdPwrite fd data offset =>
    obtain ⟨d, hd, herr⟩ := exists_descriptor_of_fbig (map_eq_error.mp (perform_eq_error herr))
    cases d with
    | stdin | output | dir => cases herr
    | file i path position append =>
      obtain hwrite | ⟨_, _, -, hdone⟩ := bind_eq_error.mp herr
      · obtain ⟨bytes, hb⟩ := exists_file_of_writeFile hwrite
        exact ⟨_, _, _, .fdPwrite hd hb⟩
      · cases hdone
  | _ => cases hc

theorem harmless_of_no_file (hc : c.writesNothing = true)
    (hnone : ∀ place bytes start, ¬ h.WritesAt c place bytes start) :
    Harmless h (h.step c).2 ((h.step c).1 = .error (.errno .fbig)) := by
  obtain ⟨r, hok, heff⟩ | ⟨e, -, hstay⟩ := step_cases h c
  · have haccepted : (h.step c).1 ≠ .error (.errno .fbig) := fun herr => by cases hok.symm.trans herr
    generalize (h.step c).2 = h' at heff
    cases heff with
    | @output _ _ stream => cases stream <;> exact ⟨rfl, rfl, haccepted⟩
    | write hd hb => exact (hnone _ _ _ (.fdWrite hd hb)).elim
    | pwrite hd hb => exact (hnone _ _ _ (.fdPwrite hd hb)).elim
    | look => exact ⟨rfl, rfl, haccepted⟩
    | _ => cases hc
  · refine ⟨congrArg Host.mounts hstay, congrArg Host.fileBudget hstay, fun herr => ?_⟩
    obtain ⟨place, bytes, start, hw⟩ := exists_writesAt_of_fbig hc herr
    exact hnone place bytes start hw

section Writing

variable (hv : h.mounts.Valid) (hc : c.writesNothing = true)
include hv hc

theorem harmless_of_le (hw : h.WritesAt c (i, path) bytes start)
    (hstart : start.toNat ≤ bytes.length) :
    Harmless h (h.step c).2 ((h.step c).1 = .error (.errno .fbig)) := by
  obtain ⟨hb, fds, hwrites⟩ := exists_writes hv hc hw
  have hgap : start.toNat - bytes.length = 0 := Nat.sub_eq_zero_of_le hstart
  have hfits : WriteFits bytes start [] h.fileBudget :=
    ⟨start.toNat_lt_size, by rw [growth_nil, hgap]; exact Nat.zero_le _⟩
  have hholds : WriteHolds bytes start [] := .inl (by rw [growth_nil, hgap])
  obtain ⟨r, h', hs⟩ := hwrites.succeeds_iff.mpr ⟨hfits, hholds⟩
  obtain ⟨-, hwritten, -⟩ := hwrites.written r h' hs
  have hpaid := hwritten.paid
  have hcontent := hwritten.content
  rw [growth_nil, hgap, Nat.add_zero] at hpaid
  rw [splice_nil, hgap, List.replicate_zero, List.append_nil] at hcontent
  have hv' : h'.mounts.Valid := by
    have hbalanced := (step_balanced hv c).1
    rwa [hs] at hbalanced
  have hmounts : h'.mounts = h.mounts :=
    mounts_eq_of_kinds hv hv' hwritten.names fun j qs => by
      by_cases hplace : (j, qs) = (i, path)
      · obtain ⟨rfl, rfl⟩ := Prod.mk.inj hplace
        rw [kindAt?, hcontent, kindAt?, hb]
      · exact hwritten.kept j qs hplace
  have haccepted : (Except.ok r : Except Refusal Reply) ≠ .error (.errno .fbig) := by
    intro herr
    cases herr
  rw [hs]
  exact ⟨hmounts, UInt64.toNat_inj.mp hpaid, haccepted⟩

theorem step_fills (hw : h.WritesAt c (i, path) bytes start) :
    let gap := start.toNat - bytes.length
    (gap ≤ h.fileBudget.toNat → WriteHolds bytes start [] → (h.step c).1 = .ok (.count 0) ∧
      (h.step c).2.nodeAt? i path = some (.file (bytes ++ List.replicate gap 0)) ∧
      (h.step c).2.fileBudget.toNat + gap = h.fileBudget.toNat) ∧
    (gap ≤ h.fileBudget.toNat → ¬ WriteHolds bytes start [] → h.step c = (.error .overlong, h)) ∧
    (h.fileBudget.toNat < gap → h.step c = (.error (.errno .fbig), h)) := by
  intro gap
  obtain ⟨-, fds, hwrites⟩ := exists_writes hv hc hw
  have hfits_iff : WriteFits bytes start [] h.fileBudget ↔ gap ≤ h.fileBudget.toNat := by
    rw [WriteFits, growth_nil]
    exact and_iff_right start.toNat_lt_size
  -- What does not succeed leaves the host, and there is only one reason for it.
  have hstuck {e : Refusal}
      (hno : ¬ (WriteFits bytes start [] h.fileBudget ∧ WriteHolds bytes start []))
      (hreason : ∀ e', (¬ WriteFits bytes start [] h.fileBudget ∧ e' = .errno .fbig ∨
        WriteFits bytes start [] h.fileBudget ∧ ¬ WriteHolds bytes start [] ∧ e' = .overlong) →
          e' = e) : h.step c = (.error e, h) := by
    cases hs : h.step c with
    | mk answer h' =>
      cases answer with
      | ok r => exact absurd (hwrites.succeeds_iff.mp ⟨r, h', hs⟩) hno
      | error e' =>
        obtain ⟨rfl, hwhy⟩ := hwrites.refused e' h' hs
        rw [hreason e' hwhy]
  refine ⟨fun hroom hholds => ?_, fun hroom hlong => ?_, fun hfull => ?_⟩
  · obtain ⟨r, h', hs⟩ := hwrites.succeeds_iff.mpr ⟨hfits_iff.mpr hroom, hholds⟩
    obtain ⟨rfl, hwritten, -⟩ := hwrites.written r h' hs
    have hpaid := hwritten.paid
    have hcontent := hwritten.content
    rw [growth_nil] at hpaid
    rw [splice_nil] at hcontent
    rw [hs]
    exact ⟨rfl, hcontent, hpaid⟩
  · exact hstuck (fun hboth => hlong hboth.2) fun e' hwhy =>
      hwhy.elim (fun hover => absurd (hfits_iff.mpr hroom) hover.1) fun hover => hover.2.2
  · have hover : ¬ WriteFits bytes start [] h.fileBudget := fun hfits =>
      Nat.not_le_of_lt hfull (hfits_iff.mp hfits)
    exact hstuck (fun hboth => hover hboth.1) fun e' hwhy =>
      hwhy.elim (fun hcode => hcode.2) fun hfits => absurd hfits.1 hover

end Writing

end Empty

end Host

namespace GuestMemory

variable {m : GuestMemory} {vs : List IoVec}

theorem gatherAll_of_no_length (hvs : totalCapacity vs = 0) :
    m.gatherAll vs = .ok [] ∨ m.gatherAll vs = .error .fault := by
  induction vs with
  | nil => exact .inl rfl
  | cons v vs ih =>
    rw [totalCapacity_cons, Nat.add_eq_zero_iff] at hvs
    unfold gatherAll
    by_cases hin : v.pointer.toNat + v.length.toNat ≤ m.size
    · rw [slice_eq hin, hvs.1, List.take_zero]
      obtain hrest | hrest := ih hvs.2
      · left
        rw [hrest]
        rfl
      · right
        rw [hrest]
        rfl
    · right
      rw [slice_eq_fault_iff.mpr (Nat.lt_of_not_le hin)]
      rfl

end GuestMemory

namespace Import

open GuestM

variable {s : GuestState} {i : Import} {c : Host.Call}

/-- An import that asks for a write, and its buffers have no length. -/
inductive WritesNothing (m : GuestMemory) : Import → Host.Call → Prop where
  | fdWrite {fd array count nwritten vs} (hvs : m.iovecs array count = .ok vs)
    (hlength : GuestMemory.totalCapacity vs = 0) :
    WritesNothing m (.fdWrite fd array count nwritten) (.fdWrite fd [])
  | fdPwrite {fd array count offset nwritten vs} (hvs : m.iovecs array count = .ok vs)
    (hlength : GuestMemory.totalCapacity vs = 0) :
    WritesNothing m (.fdPwrite fd array count offset nwritten) (.fdPwrite fd [] offset)

/-- What an import has come to: nothing, or what the host call of it did. It answers that a file
would be too large only if the host call did, and it ends the run only if the host call could not
answer. -/
def Passes (s : GuestState) (c : Host.Call) (after : Except Stop Nat × GuestState) : Prop :=
  after.2.host = s.host ∧ after.1 ≠ .ok Errno.fbig.code ∨
    after.2.host = (s.host.step c).2 ∧
      (after.1 = .ok Errno.fbig.code ↔ (s.host.step c).1 = .error (.errno .fbig)) ∧
      (after.1 = .error .broken ↔ (s.host.step c).1 = .error .overlong)

theorem code_eq_fbig {e : Errno} : e.code = Errno.fbig.code ↔ e = .fbig := by
  cases e <;> decide

theorem host_put_outcome {x : HostM Nat} (hc : Host.perform c = Host.Reply.count <$> x)
    (out : Address) :
    (∃ s', (host x >>= fun n => put out 4 n) s = .ok () s' ∧ s'.host = (s.host.step c).2 ∧
      ∀ e, (s.host.step c).1 ≠ .error e) ∨
    ∃ e s', (host x >>= fun n => put out 4 n) s = .error e s' ∧ s'.host = (s.host.step c).2 ∧
      ∀ e', e' ≠ .errno .fault → (e = e' ↔ (s.host.step c).1 = .error e') := by
  cases hx : x s.host with
  | error e h =>
    have hstep : s.host.step c = (.error e, h) :=
      Host.step_of_perform_error (hc ▸ HostM.map_eq_error.mpr hx)
    have hhost : host x s = .error e ⟨s.memory, h⟩ := host_eq_error.mpr ⟨h, hx, rfl⟩
    rw [hstep]
    exact .inr ⟨e, _, HostM.bind_eq_error.mpr (.inl hhost), rfl, by simp⟩
  | ok n h =>
    have hstep : s.host.step c = (.ok (.count n), h) :=
      Host.step_of_perform (hc ▸ HostM.map_eq_ok.mpr ⟨n, hx, rfl⟩)
    have hhost : host x s = .ok n ⟨s.memory, h⟩ := host_eq_ok.mpr ⟨h, hx, rfl⟩
    rw [hstep]
    cases hput : put out 4 n ⟨s.memory, h⟩ with
    | ok u s' =>
      exact .inl ⟨s', HostM.bind_eq_ok.mpr ⟨n, _, hhost, hput⟩, (quiet_put ..).ok hput, nofun⟩
    | error e s' =>
      obtain ⟨-, rfl, -⟩ := put_eq_error.mp hput
      exact .inr ⟨_, s', HostM.bind_eq_error.mpr (.inr ⟨n, _, hhost, hput⟩),
        (quiet_put ..).error hput, fun e' he' => iff_of_false (Ne.symm he') nofun⟩

def writeThrough (x : Bytes → HostM Nat) (array : Address) (count : UInt32) (out : Address) :
    GuestM Unit := do
  let data ← load (·.gather array count)
  let written ← host (x data)
  put out 4 written

theorem passes_of_writeThrough {x : Bytes → HostM Nat} {array out : Address} {count : UInt32}
    (hmemory : i.needsMemory = true)
    (hperform : i.perform = writeThrough x array count out >>= fun _ => pure .goOn)
    (hc : Host.perform c = Host.Reply.count <$> x [])
    (hgather : s.memory.gather array count = .ok [] ∨
      s.memory.gather array count = .error .fault)
    (exported : Bool) : Passes s c (GuestRun.callImport exported i s) := by
  cases exported with
  | false =>
    unfold GuestRun.callImport
    rw [hmemory]
    exact .inl ⟨rfl, nofun⟩
  | true =>
    obtain hdata | hfault := hgather
    · have hload : load (·.gather array count) s = .ok [] s := load_eq_ok.mpr ⟨hdata, rfl⟩
      obtain ⟨s', hok, hhost, haccepted⟩ | ⟨e, s', herr, hhost, he⟩ :=
        host_put_outcome (s := s) hc out
      · have hwrite : writeThrough x array count out s = .ok () s' :=
          HostM.bind_eq_ok.mpr ⟨[], s, hload, hok⟩
        have hdone : i.perform s = .ok .goOn s' := by
          rw [hperform]
          exact HostM.bind_eq_ok.mpr ⟨(), s', hwrite, rfl⟩
        rw [callImport_of_ok hdone]
        exact .inr ⟨hhost, iff_of_false nofun (haccepted _), iff_of_false nofun (haccepted _)⟩
      · have hwrite : writeThrough x array count out s = .error e s' :=
          HostM.bind_eq_error.mpr (.inr ⟨[], s, hload, herr⟩)
        have hfailed : i.perform s = .error e s' := by
          rw [hperform]
          exact HostM.bind_eq_error.mpr (.inl hwrite)
        have hbig := he (.errno .fbig) nofun
        have hlong := he .overlong nofun
        cases e with
        | errno code =>
          rw [callImport_of_error hfailed]
          refine .inr ⟨hhost, ?_, iff_of_false nofun fun hstep => nomatch hlong.mpr hstep⟩
          rw [← hbig, Refusal.errno.injEq, ← code_eq_fbig, Except.ok.injEq]
        | overlong =>
          rw [callImport_of_overlong hfailed]
          have hother : (s.host.step c).1 ≠ .error (.errno .fbig) := fun hstep =>
            nomatch hbig.mpr hstep
          exact .inr ⟨hhost, iff_of_false nofun hother, iff_of_true rfl (hlong.mp rfl)⟩
    · have hload : load (·.gather array count) s = .error (.errno .fault) s :=
        load_eq_error.mpr ⟨.fault, hfault, rfl, rfl⟩
      have hwrite : writeThrough x array count out s = .error (.errno .fault) s :=
        HostM.bind_eq_error.mpr (.inl hload)
      have hfailed : i.perform s = .error (.errno .fault) s := by
        rw [hperform]
        exact HostM.bind_eq_error.mpr (.inl hwrite)
      rw [callImport_of_error hfailed]
      exact .inl ⟨rfl, nofun⟩

theorem passes_of_writesNothing (hi : i.WritesNothing s.memory c) (exported : Bool) :
    Passes s c (GuestRun.callImport exported i s) := by
  cases hi with
  | @fdWrite fd array count out vs hvs hlength =>
    have hgather := GuestMemory.gatherAll_of_no_length (m := s.memory) hlength
    refine passes_of_writeThrough (x := Host.fdWrite fd) rfl rfl rfl ?_ exported
    rw [GuestMemory.gather, hvs]
    exact hgather
  | @fdPwrite fd array count offset out vs hvs hlength =>
    have hgather := GuestMemory.gatherAll_of_no_length (m := s.memory) hlength
    refine passes_of_writeThrough (x := (Host.fdPwrite fd · offset)) rfl rfl rfl ?_ exported
    rw [GuestMemory.gather, hvs]
    exact hgather

end Import

namespace Host

/-- After any calls on a fresh host, a write of no bytes, also by an import whose buffers have no
length, changes no tree and not the budget and is not refused for its size, unless it starts behind
the end of a file. There the host fills the file with zeros up to where the write starts and takes
them from the budget, or refuses if it is too small, or gives no answer if no file can be as long;
an import that comes to a fault before it writes leaves the host as it was. -/
theorem runCalls_fresh_empty_writes (args env : List String) {mounts : MountTable}
    (hv : mounts.Valid) (stdout stderr : Redirect) (budget : UInt64) (deadline : Deadline)
    (calls : List Call) :
    let h := (fresh args env mounts stdout stderr budget deadline).runCalls calls
    ∀ c : Call, c.writesNothing = true →
      ((∀ place bytes start, h.WritesAt c place bytes start → start.toNat ≤ bytes.length) →
        Harmless h (h.step c).2 ((h.step c).1 = .error (.errno .fbig)) ∧
        ∀ memory i exported, Import.WritesNothing memory i c →
          let after := GuestRun.callImport exported i ⟨memory, h⟩
          Harmless h after.2.host (after.1 = .ok Errno.fbig.code)) ∧
      (∀ i path bytes start, h.WritesAt c (i, path) bytes start →
        let gap := start.toNat - bytes.length
        (gap ≤ h.fileBudget.toNat → WriteHolds bytes start [] → (h.step c).1 = .ok (.count 0) ∧
          (h.step c).2.nodeAt? i path = some (.file (bytes ++ List.replicate gap 0)) ∧
          (h.step c).2.fileBudget.toNat + gap = h.fileBudget.toNat) ∧
        (gap ≤ h.fileBudget.toNat → ¬ WriteHolds bytes start [] →
          h.step c = (.error .overlong, h)) ∧
        (h.fileBudget.toNat < gap → h.step c = (.error (.errno .fbig), h))) ∧
      ∀ memory i exported, Import.WritesNothing memory i c →
        Import.Passes ⟨memory, h⟩ c (GuestRun.callImport exported i ⟨memory, h⟩) := by
  intro h c hc
  have hvalid : h.mounts.Valid := valid_runCalls hv calls
  have hpasses : ∀ memory i exported, Import.WritesNothing memory i c →
      Import.Passes ⟨memory, h⟩ c (GuestRun.callImport exported i ⟨memory, h⟩) :=
    fun memory i exported hi => Import.passes_of_writesNothing (s := ⟨memory, h⟩) hi exported
  refine ⟨fun hstart => ?_, fun i path bytes start hw => step_fills hvalid hc hw, hpasses⟩
  have hstep : Harmless h (h.step c).2 ((h.step c).1 = .error (.errno .fbig)) := by
    by_cases hfile : ∃ place bytes start, h.WritesAt c place bytes start
    · obtain ⟨place, bytes, start, hw⟩ := hfile
      exact harmless_of_le hvalid hc hw (hstart place bytes start hw)
    · exact harmless_of_no_file hc fun place bytes start hw => hfile ⟨place, bytes, start, hw⟩
  refine ⟨hstep, fun memory i exported hi => ?_⟩
  intro after
  obtain ⟨hstay, haccepted⟩ | ⟨hhost, hrefused⟩ := hpasses memory i exported hi
  · have hstay : after.2.host = h := hstay
    rw [hstay]
    exact ⟨rfl, rfl, haccepted⟩
  · have hhost : after.2.host = (h.step c).2 := hhost
    rw [hhost]
    exact ⟨hstep.mounts, hstep.fileBudget, fun hcode => hstep.accepted (hrefused.1.mp hcode)⟩

section Refused

def withThreeBytes : Host :=
  (fresh [] [] [⟨".", .file "a" [1, 2, 3] .empty⟩] .discard .discard 4 none).runCalls
    [.pathOpen 3 "a" {} false]

theorem valid_threeBytes : MountTable.Valid [⟨".", .file "a" [1, 2, 3] .empty⟩] :=
  MountTable.valid_file (by decide)

theorem empty_writes_at_end :
    Harmless withThreeBytes (withThreeBytes.step (.fdPwrite 4 [] 3)).2
        ((withThreeBytes.step (.fdPwrite 4 [] 3)).1 = .error (.errno .fbig)) ∧
      (withThreeBytes.step (.fdPwrite 4 [] 5)).2.nodeAt? 0 ["a"] =
        some (.file [1, 2, 3, 0, 0]) := by
  have hfile : withThreeBytes.nodeAt? 0 ["a"] = some (.file [1, 2, 3]) := rfl
  have hfd : withThreeBytes.fds.get? 4 = some (.file 0 ["a"] 0 false) := rfl
  have hempty := runCalls_fresh_empty_writes [] [] valid_threeBytes .discard .discard 4 none
    [.pathOpen 3 "a" {} false]
  refine ⟨((hempty (.fdPwrite 4 [] 3) rfl).1 fun place bytes start hw => ?_).1, ?_⟩
  · cases hw with
    | fdPwrite hd hb =>
      cases hfd.symm.trans hd
      cases hfile.symm.trans hb
      decide
  · have hfills := (hempty (.fdPwrite 4 [] 5) rfl).2.1 0 ["a"] [1, 2, 3] 5 (.fdPwrite hfd hfile)
    exact (hfills.1 (by decide) (by decide)).2.1

theorem empty_write_grows_file :
    let longer := withThreeBytes.runCalls [.fdPwrite 4 [] 5]
    withThreeBytes.Reachable ∧ withThreeBytes.nodeAt? 0 ["a"] = some (.file [1, 2, 3]) ∧
      withThreeBytes.fileBudget = 4 ∧
      longer.nodeAt? 0 ["a"] = some (.file [1, 2, 3, 0, 0]) ∧ longer.fileBudget = 2 ∧
      longer.step (.fdPwrite 4 [] 9) = (.error (.errno .fbig), longer) := by
  intro longer
  have hreachable : withThreeBytes.Reachable := ⟨_, _, _, _, _, _, _, _, rfl⟩
  have hlonger : longer.nodeAt? 0 ["a"] = some (.file [1, 2, 3, 0, 0]) := by decide +kernel
  have hfd : longer.fds.get? 4 = some (.file 0 ["a"] 0 false) := by decide +kernel
  have hbudget : longer.fileBudget = 2 := by decide +kernel
  have hv : longer.mounts.Valid :=
    valid_runCalls (valid_runCalls valid_threeBytes _) [.fdPwrite 4 [] 5]
  have hw : longer.WritesAt (.fdPwrite 4 [] 9) (0, ["a"]) [1, 2, 3, 0, 0] 9 :=
    .fdPwrite hfd hlonger
  have hrefused := (step_fills hv rfl hw).2.2
  exact ⟨hreachable, rfl, rfl, hlonger, hbudget, hrefused (by rw [hbudget]; decide)⟩

end Refused

end Host

end Buildbox
