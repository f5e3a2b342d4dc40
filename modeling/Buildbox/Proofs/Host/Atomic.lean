import Buildbox.Proofs.Host.Effect
import Buildbox.Proofs.Host.Trees

/-! A call that fails leaves the state as it was: whatever it checks, it checks before it changes
anything. So one call either takes effect by a rule or does nothing. -/

namespace Buildbox.Host

open HostM

theorem atomic_writeFile (i : Nat) (path : List String) (start : Bytes → UInt64) (data : Bytes) :
    Atomic (writeFile i path start data) := by
  refine atomic_read_bind fun bytes => atomic_get_bind fun g => ?_
  cases writeAt bytes (start bytes) data g.fileBudget with
  | error e => exact atomic_throw e
  | ok p => exact ((sure_set _).bind fun _ => sure_pure _).atomic

theorem atomic_detach (i : Nat) (path : List String) : Atomic (detach i path) := by
  refine atomic_read_bind fun (parents, name, d) => ?_
  cases hn : d.get? name with
  | none =>
    simp only [hn]
    exact atomic_throw _
  | some e =>
    simp only [hn]
    exact ((sure_modify _).bind fun _ => sure_pure _).atomic

theorem atomic_fdWrite (fd : Fd) (data : Bytes) : Atomic (fdWrite fd data) := by
  refine atomic_read_bind fun d => ?_
  cases d with
  | stdin | dir => exact atomic_throw_bind _ _
  | output stream => exact (sure_modify _).atomic.bind fun _ => sure_pure _
  | file i path position append =>
    exact (atomic_writeFile ..).bind fun _ => (sure_modify _).bind fun _ => sure_pure _

theorem atomic_fdPwrite (fd : Fd) (data : Bytes) (offset : UInt64) :
    Atomic (fdPwrite fd data offset) := by
  refine atomic_read_bind fun d => ?_
  cases d with
  | stdin | output | dir => exact atomic_throw _
  | file => exact (atomic_writeFile ..).bind fun _ => sure_pure _

theorem atomic_fdRead (fd : Fd) (max : Nat) : Atomic (fdRead fd max) := by
  refine atomic_read_bind fun d => ?_
  cases d with
  | stdin => exact (sure_pure _).atomic
  | output | dir => exact atomic_throw _
  | file => exact atomic_read_bind fun _ => ((sure_modify _).bind fun _ => sure_pure _).atomic

theorem atomic_fdSeek (fd : Fd) (offset : Int64) (whence : UInt8) :
    Atomic (fdSeek fd offset whence) := by
  refine atomic_read_bind fun d => ?_
  cases d with
  | stdin | output | dir => exact atomic_throw _
  | file i path position append =>
    cases Whence.ofCode? whence with
    | none => exact atomic_throw_bind _ _
    | some w =>
      cases w with
      | set | current =>
        exact atomic_pure_bind (atomic_unless fun _ =>
          ((sure_modify _).bind fun _ => sure_pure _).atomic)
      | fileEnd =>
        exact atomic_read_bind fun _ => atomic_pure_bind (atomic_unless fun _ =>
          ((sure_modify _).bind fun _ => sure_pure _).atomic)

theorem atomic_fdSetSize (fd : Fd) (size : UInt64) : Atomic (fdSetSize fd size) := by
  refine atomic_read_bind fun d => ?_
  cases d with
  | stdin | output | dir => exact atomic_throw _
  | file i path position append =>
    refine atomic_read_bind fun bytes => atomic_get_bind fun g => ?_
    cases resizeWithin bytes size g.fileBudget with
    | error e => exact atomic_throw e
    | ok p => exact (sure_set _).atomic

theorem atomic_pathOpen (fd : Fd) (path : String) (flags : OpenFlags) (append : Bool) :
    Atomic (pathOpen fd path flags append) := by
  refine atomic_read_bind fun (i, segments) => atomic_read_bind fun found => ?_
  cases found with
  | none =>
    refine atomic_unless fun _ => atomic_unless fun _ => atomic_read_bind fun _ => ?_
    exact ((sure_modify _).bind fun _ => sure_modifyGet _).atomic
  | some e =>
    refine atomic_unless fun _ => ?_
    cases e with
    | dir d => exact atomic_unless fun _ => (sure_modifyGet _).atomic
    | file bytes =>
      refine atomic_unless fun _ => ?_
      cases flags.truncate with
      | false => exact (sure_modifyGet _).atomic
      | true =>
        refine atomic_get_bind fun g => ?_
        cases resizeWithin bytes 0 g.fileBudget with
        | error e => exact atomic_throw_bind _ _
        | ok p => exact ((sure_set _).bind fun _ => sure_modifyGet _).atomic

theorem atomic_pathCreateDirectory (fd : Fd) (path : String) :
    Atomic (pathCreateDirectory fd path) :=
  atomic_read_bind fun _ => atomic_read_bind fun _ => atomic_unless fun _ =>
    (sure_modify _).atomic

theorem atomic_pathUnlinkFile (fd : Fd) (path : String) : Atomic (pathUnlinkFile fd path) := by
  refine atomic_read_bind fun _ => atomic_read_bind fun e => ?_
  cases e with
  | dir d => exact atomic_throw _
  | file bytes => exact (atomic_detach ..).bind fun _ => sure_pure _

theorem atomic_pathRemoveDirectory (fd : Fd) (path : String) :
    Atomic (pathRemoveDirectory fd path) := by
  refine atomic_read_bind fun _ => atomic_unless fun _ => atomic_read_bind fun e => ?_
  cases e with
  | file bytes => exact atomic_throw _
  | dir d => exact atomic_unless fun _ => (atomic_detach ..).bind fun _ => sure_pure _

theorem parentOf_of_detach {h h₁ : Host} {i j : Nat} {src dst : List String} {e : Entry}
    {p : List String × String × Directory} (hne : ¬ (i = j ∧ src <+: dst))
    (hparent : h.parentOf j dst .inval = .ok p) (hok : detach i src h = .ok e h₁) :
    ∃ p', h₁.parentOf j dst .inval = .ok p' := by
  obtain ⟨qs, m, q⟩ := p
  obtain ⟨rfl, hq⟩ := parentOf_eq_ok.mp hparent
  obtain ⟨ps, n, d, rfl, hd, hn, rfl⟩ := detach_eq_ok.mp hok
  have hbelow : ¬ (i = j ∧ ps ++ [n] <+: qs) := fun ⟨hij, hpre⟩ =>
    hne ⟨hij, hpre.trans (List.prefix_append qs [m])⟩
  have hkept : ((h.modifyDir i ps (·.erase n)).dirAt? j qs).isSome := by
    rw [isSome_dirAt?_modifyDir (get?_erase_of_ne n) h hbelow, hq]
    rfl
  obtain ⟨q', hq'⟩ := Option.isSome_iff_exists.mp hkept
  exact ⟨(qs, m, q'), parentOf_eq_ok.mpr ⟨rfl, hq'⟩⟩

theorem atomic_move {i j : Nat} {src dst : List String} (hne : ¬ (i = j ∧ src <+: dst)) :
    Atomic (do
      let _ ← HostM.read (·.parentOf j dst .inval)
      let e ← detach i src
      let (parents, name, _) ← HostM.read (·.parentOf j dst .inval)
      modify (·.modifyDir j parents (·.insert name e))) := by
  intro h e h' herr
  obtain hread | ⟨p, _, hok, herr⟩ := bind_eq_error.mp herr
  · exact atomic_read _ hread
  obtain ⟨hparent, rfl⟩ := read_eq_ok.mp hok
  obtain hdetach | ⟨moved, h₁, hok, herr⟩ := bind_eq_error.mp herr
  · exact atomic_detach _ _ hdetach
  -- The directory that the entry goes to is not below it, and so is still there.
  obtain ⟨p', hparent'⟩ := parentOf_of_detach hne hparent hok
  obtain hread | ⟨_, _, -, hlast⟩ := bind_eq_error.mp herr
  · rw [HostM.read, hparent'] at hread
    cases hread
  · exact (sure_modify _ hlast).elim

theorem atomic_pathRename (fd : Fd) (source : String) (newFd : Fd) (target : String) :
    Atomic (pathRename fd source newFd target) := by
  refine atomic_read_bind fun (i, src) => atomic_read_bind fun (j, dst) =>
    atomic_unless fun _ => ?_
  split
  · exact (atomic_read _).bind fun _ => sure_pure _
  · next hsame =>
    refine atomic_unless fun hbelow => atomic_read_bind fun _ => atomic_read_bind fun _ => ?_
    refine atomic_move fun ⟨hij, hpre⟩ => hbelow ⟨hij, ?_, List.isPrefixOf_iff_prefix.mpr hpre⟩
    exact Nat.lt_of_le_of_ne hpre.length_le fun hlen => hsame ⟨hij, hpre.eq_of_length hlen⟩

theorem atomic_fdClose (fd : Fd) : Atomic (fdClose fd) :=
  atomic_read_bind fun _ => (sure_modify _).atomic

theorem atomic_fdRenumber (source target : Fd) : Atomic (fdRenumber source target) :=
  atomic_read_bind fun _ => atomic_read_bind fun _ => (sure_modify _).atomic

theorem atomic_fdSetAppend (fd : Fd) (append : Bool) : Atomic (fdSetAppend fd append) := by
  refine atomic_read_bind fun d => ?_
  cases d with
  | file => exact (sure_modify _).atomic
  | stdin | output | dir => exact (sure_pure _).atomic

theorem atomic_perform (c : Call) : Atomic (perform c) := by
  cases c
  case random | poll => exact atomic_map (sure_modifyGet _).atomic
  case fdWrite => exact atomic_map (atomic_fdWrite ..)
  case fdPwrite => exact atomic_map (atomic_fdPwrite ..)
  case fdRead => exact atomic_map (atomic_fdRead ..)
  case fdSeek => exact atomic_map (atomic_fdSeek ..)
  case fdClose => exact atomic_map (atomic_fdClose ..)
  case fdRenumber => exact atomic_map (atomic_fdRenumber ..)
  case fdSetAppend => exact atomic_map (atomic_fdSetAppend ..)
  case fdSetSize => exact atomic_map (atomic_fdSetSize ..)
  case pathOpen => exact atomic_map (atomic_pathOpen ..)
  case pathCreateDirectory => exact atomic_map (atomic_pathCreateDirectory ..)
  case pathUnlinkFile => exact atomic_map (atomic_pathUnlinkFile ..)
  case pathRemoveDirectory => exact atomic_map (atomic_pathRemoveDirectory ..)
  case pathRename => exact atomic_map (atomic_pathRename ..)
  all_goals exact atomic_map (atomic_read _)

/-- One call takes effect or fails without one. -/
theorem step_cases (h : Host) (c : Call) :
    (∃ r, (h.step c).1 = .ok r ∧ Effect h c r (h.step c).2) ∨
      (∃ e, (h.step c).1 = .error e ∧ (h.step c).2 = h) := by
  unfold step
  cases hok : perform c h with
  | ok r h' => exact .inl ⟨r, rfl, effect_of_perform hok⟩
  | error e h' => exact .inr ⟨e, rfl, atomic_perform c hok⟩

section Overlong

theorem coded_detach (i : Nat) (path : List String) : Coded (detach i path) := by
  refine (coded_read _).bind fun (parents, name, d) => ?_
  cases hn : d.get? name with
  | none =>
    simp only [hn]
    exact coded_throw _
  | some e =>
    simp only [hn]
    exact ((sure_modify _).bind fun _ => sure_pure _).coded

theorem coded_fdRead (fd : Fd) (max : Nat) : Coded (fdRead fd max) := by
  refine (coded_read _).bind fun d => ?_
  cases d with
  | stdin => exact (sure_pure _).coded
  | output | dir => exact coded_throw _
  | file => exact (coded_read _).bind fun _ => ((sure_modify _).bind fun _ => sure_pure _).coded

theorem coded_fdSeek (fd : Fd) (offset : Int64) (whence : UInt8) :
    Coded (fdSeek fd offset whence) := by
  refine (coded_read _).bind fun d => ?_
  cases d with
  | stdin | output | dir => exact coded_throw _
  | file i path position append =>
    have hmove (target : Int) : Coded (do
        if target < 0 ∨ Int64.maxValue.toInt < target then throw (.errno .inval)
        let position := UInt64.ofNat target.toNat
        modify fun h => { h with fds := h.fds.set fd (.file i path position append) }
        return position) :=
      coded_unless ((sure_modify _).bind fun _ => sure_pure _).coded
    cases Whence.ofCode? whence with
    | none => exact coded_throw_bind _ _
    | some w =>
      cases w with
      | set | current => exact (sure_pure _).coded.bind fun _ => hmove _
      | fileEnd => exact (coded_read _).bind fun _ => (sure_pure _).coded.bind fun _ => hmove _

theorem coded_pathOpen (fd : Fd) (path : String) (flags : OpenFlags) (append : Bool) :
    Coded (pathOpen fd path flags append) := by
  refine (coded_read _).bind fun (i, segments) => (coded_read _).bind fun found => ?_
  cases found with
  | none =>
    refine coded_unless (coded_unless ((coded_read _).bind fun _ => ?_))
    exact ((sure_modify _).bind fun _ => sure_modifyGet _).coded
  | some e =>
    refine coded_unless ?_
    cases e with
    | dir d => exact coded_unless (sure_modifyGet _).coded
    | file bytes =>
      refine coded_unless ?_
      cases flags.truncate with
      | false => exact (sure_modifyGet _).coded
      | true =>
        refine sure_get.coded.bind fun g => ?_
        -- A file that is cut to nothing does not grow.
        rw [resizeWithin, if_neg UInt64.not_lt_zero]
        exact ((sure_set _).bind fun _ => sure_modifyGet _).coded

theorem coded_pathCreateDirectory (fd : Fd) (path : String) :
    Coded (pathCreateDirectory fd path) :=
  (coded_read _).bind fun _ => (coded_read _).bind fun _ => coded_unless (sure_modify _).coded

theorem coded_pathUnlinkFile (fd : Fd) (path : String) : Coded (pathUnlinkFile fd path) := by
  refine (coded_read _).bind fun _ => (coded_read _).bind fun e => ?_
  cases e with
  | dir d => exact coded_throw _
  | file bytes => exact (coded_detach ..).bind fun _ => (sure_pure _).coded

theorem coded_pathRemoveDirectory (fd : Fd) (path : String) :
    Coded (pathRemoveDirectory fd path) := by
  refine (coded_read _).bind fun _ => coded_unless ((coded_read _).bind fun e => ?_)
  cases e with
  | file bytes => exact coded_throw _
  | dir d => exact coded_unless ((coded_detach ..).bind fun _ => (sure_pure _).coded)

theorem coded_pathRename (fd : Fd) (source : String) (newFd : Fd) (target : String) :
    Coded (pathRename fd source newFd target) := by
  refine (coded_read _).bind fun (i, src) => (coded_read _).bind fun (j, dst) => coded_unless ?_
  split
  · exact (coded_read _).bind fun _ => (sure_pure _).coded
  · exact coded_unless ((coded_read _).bind fun _ => (coded_read _).bind fun _ =>
      (coded_read _).bind fun _ => (coded_detach ..).bind fun _ => (coded_read _).bind fun _ =>
        (sure_modify _).coded)

theorem coded_fdSetAppend (fd : Fd) (append : Bool) : Coded (fdSetAppend fd append) := by
  refine (coded_read _).bind fun d => ?_
  cases d with
  | file => exact (sure_modify _).coded
  | stdin | output | dir => exact (sure_pure _).coded

def Call.lengthens : Call → Bool
  | .fdWrite .. | .fdPwrite .. | .fdSetSize .. => true
  | _ => false

theorem coded_perform {c : Call} (hc : c.lengthens = false) : Coded (perform c) := by
  cases c
  case fdWrite | fdPwrite | fdSetSize => cases hc
  case random | poll => exact coded_map (sure_modifyGet _).coded
  case fdRead => exact coded_map (coded_fdRead ..)
  case fdSeek => exact coded_map (coded_fdSeek ..)
  case fdClose => exact coded_map ((coded_read _).bind fun _ => (sure_modify _).coded)
  case fdRenumber =>
    exact coded_map ((coded_read _).bind fun _ => (coded_read _).bind fun _ =>
      (sure_modify _).coded)
  case fdSetAppend => exact coded_map (coded_fdSetAppend ..)
  case pathOpen => exact coded_map (coded_pathOpen ..)
  case pathCreateDirectory => exact coded_map (coded_pathCreateDirectory ..)
  case pathUnlinkFile => exact coded_map (coded_pathUnlinkFile ..)
  case pathRemoveDirectory => exact coded_map (coded_pathRemoveDirectory ..)
  case pathRename => exact coded_map (coded_pathRename ..)
  all_goals exact coded_map (coded_read _)

theorem step_ne_overlong {c : Call} (hc : c.lengthens = false) (h : Host) :
    (h.step c).1 ≠ .error .overlong := by
  unfold step
  cases hp : perform c h with
  | ok r h' => nofun
  | error e h' =>
    rintro herr
    cases herr
    exact coded_perform hc hp

end Overlong

/-- What every effect keeps, every run keeps. -/
theorem runCalls_keeps {P : Host → Prop} (hkeep : ∀ {h c r h'}, P h → Effect h c r h' → P h')
    {h : Host} (hP : P h) (calls : List Call) : P (h.runCalls calls) := by
  induction calls generalizing h with
  | nil => exact hP
  | cons c calls ih =>
    have hstep : P (h.step c).2 := by
      obtain ⟨r, -, heff⟩ | ⟨e, -, hstay⟩ := step_cases h c
      · exact hkeep hP heff
      · rwa [hstay]
    exact ih hstep

end Buildbox.Host
