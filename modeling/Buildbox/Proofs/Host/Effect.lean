import Buildbox.Proofs.Host.Lookup

/-! What a call that succeeds does to the host. `Effect` has a rule for every way in which one can
succeed, with all that was checked on the way. -/

namespace Buildbox.Host

def Call.looks : Call → Bool
  | .fdPread .. | .fdFdstat .. | .fdFilestat .. | .fdCheck .. | .fdPrestatName ..
  | .fdReaddir .. | .pathFilestat .. | .pathTouch .. | .pathReadlink .. | .clockTime ..
  | .clockResolution .. => true
  | _ => false

def writeStart (bytes : Bytes) (position : UInt64) (append : Bool) : UInt64 :=
  if append then UInt64.ofNat bytes.length else position

def refile (h : Host) (i : Nat) (path : List String) (bytes : Bytes) (fileBudget : UInt64) :
    Host :=
  { h.setFile i path bytes with fileBudget }

/-- `Effect h c r h'`: at `h` the call `c` may answer `r` and leave `h'`. -/
inductive Effect (h : Host) : Call → Reply → Host → Prop where
  | look {c r} (hc : c.looks = true) : Effect h c r h
  | output {fd data stream} (hd : h.fds.get? fd = some (.output stream)) :
    Effect h (.fdWrite fd data) (.count data.length) (h.writeOutput stream data)
  | write {fd data i path position append bytes written budget}
    (hd : h.fds.get? fd = some (.file i path position append))
    (hb : h.nodeAt? i path = some (.file bytes))
    (hw : writeAt bytes (writeStart bytes position append) data h.fileBudget =
      .ok (written, budget)) :
    Effect h (.fdWrite fd data) (.count data.length)
      { h.refile i path written budget with
        fds := h.fds.set fd (.file i path
          (writeStart bytes position append + UInt64.ofNat data.length) append) }
  | pwrite {fd data offset i path position append bytes written budget}
    (hd : h.fds.get? fd = some (.file i path position append))
    (hb : h.nodeAt? i path = some (.file bytes))
    (hw : writeAt bytes offset data h.fileBudget = .ok (written, budget)) :
    Effect h (.fdPwrite fd data offset) (.count data.length) (h.refile i path written budget)
  | readInput {fd max} (hd : h.fds.get? fd = some .stdin) :
    Effect h (.fdRead fd max) (.bytes []) h
  | read {fd max i path position append bytes}
    (hd : h.fds.get? fd = some (.file i path position append))
    (hb : h.nodeAt? i path = some (.file bytes)) :
    Effect h (.fdRead fd max) (.bytes (readAt bytes position max))
      { h with
        fds := h.fds.set fd (.file i path
          (position + UInt64.ofNat (readAt bytes position max).length) append) }
  | seek {fd offset whence i path position append} {target : Int}
    (hd : h.fds.get? fd = some (.file i path position append)) (hlow : 0 ≤ target)
    (hhigh : target ≤ Int64.maxValue.toInt) :
    Effect h (.fdSeek fd offset whence) (.offset (UInt64.ofNat target.toNat))
      { h with fds := h.fds.set fd (.file i path (UInt64.ofNat target.toNat) append) }
  | close {fd d} (hd : h.fds.get? fd = some d) :
    Effect h (.fdClose fd) .done { h with fds := h.fds.erase fd }
  | renumber {source target d old} (hd : h.fds.get? source = some d)
    (ht : h.fds.get? target = some old) :
    Effect h (.fdRenumber source target) .done
      { h with fds := (h.fds.erase source).set target d }
  | setAppend {fd append i path position old}
    (hd : h.fds.get? fd = some (.file i path position old)) :
    Effect h (.fdSetAppend fd append) .done
      { h with fds := h.fds.set fd (.file i path position append) }
  | noAppend {fd append d} (hd : h.fds.get? fd = some d)
    (hf : ∀ i path position old, d ≠ .file i path position old) :
    Effect h (.fdSetAppend fd append) .done h
  | setSize {fd size i path position append bytes resized budget}
    (hd : h.fds.get? fd = some (.file i path position append))
    (hb : h.nodeAt? i path = some (.file bytes))
    (hr : resizeWithin bytes size h.fileBudget = .ok (resized, budget)) :
    Effect h (.fdSetSize fd size) .done (h.refile i path resized budget)
  | openDir {fd path flags append i segments d}
    (hp : h.resolve fd path = .ok (i, segments)) (he : h.nodeAt? i segments = some (.dir d))
    (hx : ¬ (flags.create ∧ flags.exclusive)) (ht : flags.truncate = false) :
    Effect h (.pathOpen fd path flags append) (.fd (h.allocate (.dir i segments false)).1)
      (h.allocate (.dir i segments false)).2
  | openFile {fd path flags append i segments bytes}
    (hp : h.resolve fd path = .ok (i, segments))
    (he : h.nodeAt? i segments = some (.file bytes))
    (hx : ¬ (flags.create ∧ flags.exclusive)) (hf : flags.directory = false)
    (ht : flags.truncate = false) :
    Effect h (.pathOpen fd path flags append) (.fd (h.allocate (.file i segments 0 append)).1)
      (h.allocate (.file i segments 0 append)).2
  | openCut {fd path flags append i segments bytes resized budget}
    (hp : h.resolve fd path = .ok (i, segments))
    (he : h.nodeAt? i segments = some (.file bytes))
    (hx : ¬ (flags.create ∧ flags.exclusive)) (hf : flags.directory = false)
    (ht : flags.truncate = true)
    (hr : resizeWithin bytes 0 h.fileBudget = .ok (resized, budget)) :
    Effect h (.pathOpen fd path flags append)
      (.fd ((h.refile i segments resized budget).allocate (.file i segments 0 append)).1)
      ((h.refile i segments resized budget).allocate (.file i segments 0 append)).2
  | create {fd path flags append i ps n d} (hp : h.resolve fd path = .ok (i, ps ++ [n]))
    (hd : h.dirAt? i ps = some d) (hn : d.get? n = none) (hc : flags.create = true)
    (hf : flags.directory = false) :
    Effect h (.pathOpen fd path flags append)
      (.fd ((h.modifyDir i ps (·.insert n (.file []))).allocate
        (.file i (ps ++ [n]) 0 append)).1)
      ((h.modifyDir i ps (·.insert n (.file []))).allocate (.file i (ps ++ [n]) 0 append)).2
  | createDirectory {fd path i ps n d} (hp : h.resolve fd path = .ok (i, ps ++ [n]))
    (hd : h.dirAt? i ps = some d) (hn : d.get? n = none) :
    Effect h (.pathCreateDirectory fd path) .done (h.modifyDir i ps (·.insert n (.dir .empty)))
  | unlinkFile {fd path i ps n d bytes} (hp : h.resolve fd path = .ok (i, ps ++ [n]))
    (hd : h.dirAt? i ps = some d) (hn : d.get? n = some (.file bytes)) :
    Effect h (.pathUnlinkFile fd path) .done (h.modifyDir i ps (·.erase n))
  | removeDirectory {fd path i ps n d} (hp : h.resolve fd path = .ok (i, ps ++ [n]))
    (hd : h.dirAt? i ps = some d) (hn : d.get? n = some (.dir .empty)) :
    Effect h (.pathRemoveDirectory fd path) .done (h.modifyDir i ps (·.erase n))
  | renameSame {fd source newFd target i segments e}
    (hs : h.resolve fd source = .ok (i, segments))
    (ht : h.resolve newFd target = .ok (i, segments)) (he : h.nodeAt? i segments = some e) :
    Effect h (.pathRename fd source newFd target) .done h
  | rename {fd source newFd target i j ps qs n m d e}
    (hs : h.resolve fd source = .ok (i, ps ++ [n]))
    (ht : h.resolve newFd target = .ok (j, qs ++ [m]))
    (hne : ¬ (i = j ∧ ps ++ [n] <+: qs ++ [m]))
    (hd : h.dirAt? i ps = some d) (hn : d.get? n = some e)
    (hr : h.checkReplace e j (qs ++ [m]) = .ok ())
    (hparent : ((h.modifyDir i ps (·.erase n)).dirAt? j qs).isSome) :
    Effect h (.pathRename fd source newFd target) .done
      ((h.modifyDir i ps (·.erase n)).modifyDir j qs (·.insert m e))
  | random {length bytes entropy} (hr : h.randomBytes length = (bytes, { h with entropy })) :
    Effect h (.random length) (.bytes bytes) { h with entropy }
  | poll {subscriptions events elapsed} (hp : h.poll subscriptions = (events, { h with elapsed })) :
    Effect h (.poll subscriptions) (.events events) { h with elapsed }

theorem randomBytes_eq (h : Host) (n : Nat) :
    ∃ entropy, (h.randomBytes n).2 = { h with entropy } := by
  induction n generalizing h with
  | zero => exact ⟨h.entropy, rfl⟩
  | succ n ih =>
    obtain ⟨x, hx⟩ := ih { h with entropy := nextEntropy h.entropy }
    exact ⟨x, hx⟩

theorem length_randomBytes (h : Host) (n : Nat) : (h.randomBytes n).1.length = n := by
  induction n generalizing h with
  | zero => rfl
  | succ n ih => exact congrArg Nat.succ (ih _)

theorem poll_eq (h : Host) (subscriptions : List Subscription) :
    ∃ elapsed, (h.poll subscriptions).2 = { h with elapsed } := by
  unfold poll
  split
  · exact ⟨h.elapsed, rfl⟩
  · split
    · exact ⟨h.elapsed, rfl⟩
    · split
      · exact ⟨_, rfl⟩
      · dsimp only
        split <;> exact ⟨_, rfl⟩

section Success

open HostM

variable {h h' : Host} {fd : Fd} {data : Bytes} {offset : UInt64} {path : String}

theorem writeFile_eq_ok {i : Nat} {path : List String} {start : Bytes → UInt64} {n : UInt64} :
    writeFile i path start data h = .ok n h' ↔ ∃ bytes written budget,
      h.nodeAt? i path = some (.file bytes) ∧
      writeAt bytes (start bytes) data h.fileBudget = .ok (written, budget) ∧
      n = start bytes ∧ h' = h.refile i path written budget := by
  unfold writeFile
  simp only [bind_eq_ok, read_eq_ok, fileBytes_eq_ok, get_eq_ok]
  constructor
  · rintro ⟨bytes, _, ⟨hb, rfl⟩, _, _, ⟨rfl, rfl⟩, hw⟩
    cases hok : writeAt bytes (start bytes) data h.fileBudget with
    | error e =>
      rw [hok] at hw
      exact (throw_eq_ok.mp hw).elim
    | ok p =>
      obtain ⟨written, budget⟩ := p
      simp only [hok, bind_eq_ok, set_eq_ok, pure_eq_ok] at hw
      obtain ⟨_, _, rfl, rfl, rfl⟩ := hw
      exact ⟨bytes, written, budget, hb, hok, rfl, rfl⟩
  · rintro ⟨bytes, written, budget, hb, hok, rfl, rfl⟩
    refine ⟨bytes, h, ⟨hb, rfl⟩, h, h, ⟨rfl, rfl⟩, ?_⟩
    rw [hok]
    rfl

theorem fdWrite_effect {n : Nat} (hok : fdWrite fd data h = .ok n h') :
    Effect h (.fdWrite fd data) (.count n) h' := by
  unfold fdWrite at hok
  simp only [bind_eq_ok, read_eq_ok, descriptor_eq_ok] at hok
  obtain ⟨d, _, ⟨hd, rfl⟩, hok⟩ := hok
  cases d with
  | stdin | dir =>
    simp only [bind_eq_ok, throw_eq_ok] at hok
    obtain ⟨_, _, hfalse, -⟩ := hok
    exact hfalse.elim
  | output stream =>
    simp only [bind_eq_ok, modify_eq_ok, pure_eq_ok] at hok
    obtain ⟨_, _, rfl, rfl, rfl⟩ := hok
    exact .output hd
  | file i path position append =>
    simp only [bind_eq_ok, writeFile_eq_ok, modify_eq_ok, pure_eq_ok] at hok
    obtain ⟨_, _, ⟨bytes, written, budget, hb, hw, rfl, rfl⟩, _, _, rfl, rfl, rfl⟩ := hok
    exact .write hd hb hw

theorem fdPwrite_effect {n : Nat} (hok : fdPwrite fd data offset h = .ok n h') :
    Effect h (.fdPwrite fd data offset) (.count n) h' := by
  unfold fdPwrite at hok
  simp only [bind_eq_ok, read_eq_ok, descriptor_eq_ok] at hok
  obtain ⟨d, _, ⟨hd, rfl⟩, hok⟩ := hok
  cases d with
  | stdin | output | dir => exact (throw_eq_ok.mp hok).elim
  | file i path position append =>
    simp only [bind_eq_ok, writeFile_eq_ok, pure_eq_ok] at hok
    obtain ⟨_, _, ⟨bytes, written, budget, hb, hw, rfl, rfl⟩, rfl, rfl⟩ := hok
    exact .pwrite hd hb hw

theorem fdRead_effect {max : Nat} {bs : Bytes} (hok : fdRead fd max h = .ok bs h') :
    Effect h (.fdRead fd max) (.bytes bs) h' := by
  unfold fdRead at hok
  simp only [bind_eq_ok, read_eq_ok, descriptor_eq_ok] at hok
  obtain ⟨d, _, ⟨hd, rfl⟩, hok⟩ := hok
  cases d with
  | output | dir => exact (throw_eq_ok.mp hok).elim
  | stdin =>
    obtain ⟨rfl, rfl⟩ := pure_eq_ok.mp hok
    exact .readInput hd
  | file i path position append =>
    simp only [bind_eq_ok, read_eq_ok, fileBytes_eq_ok, modify_eq_ok, pure_eq_ok] at hok
    obtain ⟨bytes, _, ⟨hb, rfl⟩, _, _, rfl, rfl, rfl⟩ := hok
    exact .read hd hb

theorem fdSeek_effect {delta : Int64} {whence : UInt8} {n : UInt64}
    (hok : fdSeek fd delta whence h = .ok n h') :
    Effect h (.fdSeek fd delta whence) (.offset n) h' := by
  unfold fdSeek at hok
  simp only [bind_eq_ok, read_eq_ok, descriptor_eq_ok] at hok
  obtain ⟨d, _, ⟨hd, rfl⟩, hok⟩ := hok
  cases d with
  | stdin | output | dir => exact (throw_eq_ok.mp hok).elim
  | file i path position append =>
    cases hw : Whence.ofCode? whence with
    | none =>
      simp only [hw, bind_eq_ok, throw_eq_ok] at hok
      obtain ⟨_, _, hfalse, -⟩ := hok
      exact hfalse.elim
    | some w =>
      cases w with
      | set | current =>
        simp only [hw, bind_eq_ok, pure_eq_ok, unless_eq_ok, modify_eq_ok] at hok
        obtain ⟨_, _, ⟨rfl, rfl⟩, hrange, _, _, rfl, rfl, rfl⟩ := hok
        exact .seek hd (by omega) (by omega)
      | fileEnd =>
        simp only [hw, bind_eq_ok, read_eq_ok, pure_eq_ok, unless_eq_ok, modify_eq_ok] at hok
        obtain ⟨_, _, ⟨-, rfl⟩, _, _, ⟨rfl, rfl⟩, hrange, _, _, rfl, rfl, rfl⟩ := hok
        exact .seek hd (by omega) (by omega)

theorem ofNat_toInt64 {p : UInt64} (h : ¬ p.toInt64.toInt < 0) :
    UInt64.ofNat p.toInt64.toInt.toNat = p := by
  have hmod : p.toInt64.toInt = (p.toNat : Int).bmod (2 ^ 64) :=
    BitVec.toInt_eq_toNat_bmod p.toBitVec
  have hp : p.toNat < 2 ^ 64 := p.toNat_lt
  have hnat : p.toInt64.toInt.toNat = p.toNat := by
    rw [Int.bmod_def] at hmod
    split at hmod <;> omega
  rw [hnat, UInt64.ofNat_toNat]

theorem fdSeek_tell {n : UInt64} (hok : fdSeek fd 0 1 h = .ok n h') : h' = h := by
  unfold fdSeek at hok
  simp only [bind_eq_ok, read_eq_ok, descriptor_eq_ok] at hok
  obtain ⟨d, _, ⟨hd, rfl⟩, hok⟩ := hok
  cases d with
  | stdin | output | dir => exact (throw_eq_ok.mp hok).elim
  | file i path position append =>
    have hw : Whence.ofCode? 1 = some .current := rfl
    simp only [hw, bind_eq_ok, pure_eq_ok, unless_eq_ok, modify_eq_ok] at hok
    obtain ⟨_, _, ⟨rfl, rfl⟩, hrange, _, _, rfl, rfl, rfl⟩ := hok
    have hsame : UInt64.ofNat (position.toInt64.toInt + (0 : Int64).toInt).toNat = position := by
      rw [Int64.toInt_zero, Int.add_zero] at hrange ⊢
      exact ofNat_toInt64 fun hneg => hrange (.inl hneg)
    rw [hsame, DescriptorTable.set_of_get? hd]

theorem fdClose_effect (hok : fdClose fd h = .ok () h') : Effect h (.fdClose fd) .done h' := by
  unfold fdClose at hok
  simp only [bind_eq_ok, read_eq_ok, descriptor_eq_ok, modify_eq_ok] at hok
  obtain ⟨d, _, ⟨hd, rfl⟩, rfl⟩ := hok
  exact .close hd

theorem fdRenumber_effect {target : Fd} (hok : fdRenumber fd target h = .ok () h') :
    Effect h (.fdRenumber fd target) .done h' := by
  unfold fdRenumber at hok
  simp only [bind_eq_ok, read_eq_ok, descriptor_eq_ok, modify_eq_ok] at hok
  obtain ⟨old, _, ⟨ht, rfl⟩, d, _, ⟨hd, rfl⟩, rfl⟩ := hok
  exact .renumber hd ht

theorem fdSetAppend_effect {append : Bool} (hok : fdSetAppend fd append h = .ok () h') :
    Effect h (.fdSetAppend fd append) .done h' := by
  unfold fdSetAppend at hok
  simp only [bind_eq_ok, read_eq_ok, descriptor_eq_ok] at hok
  obtain ⟨d, _, ⟨hd, rfl⟩, hok⟩ := hok
  cases d with
  | stdin | output | dir =>
    obtain ⟨-, rfl⟩ := pure_eq_ok.mp hok
    exact .noAppend hd nofun
  | file i path position old =>
    obtain rfl := modify_eq_ok.mp hok
    exact .setAppend hd

theorem fdSetSize_effect {size : UInt64} (hok : fdSetSize fd size h = .ok () h') :
    Effect h (.fdSetSize fd size) .done h' := by
  unfold fdSetSize at hok
  simp only [bind_eq_ok, read_eq_ok, descriptor_eq_ok] at hok
  obtain ⟨d, _, ⟨hd, rfl⟩, hok⟩ := hok
  cases d with
  | stdin | output | dir => exact (throw_eq_ok.mp hok).elim
  | file i path position append =>
    simp only [bind_eq_ok, read_eq_ok, fileBytes_eq_ok, get_eq_ok] at hok
    obtain ⟨bytes, _, ⟨hb, rfl⟩, _, _, ⟨rfl, rfl⟩, hok⟩ := hok
    cases hr : resizeWithin bytes size h.fileBudget with
    | error e =>
      rw [hr] at hok
      exact (throw_eq_ok.mp hok).elim
    | ok p =>
      rw [hr] at hok
      obtain rfl := set_eq_ok.mp hok
      exact .setSize hd hb hr

theorem openDescriptor_eq_ok {d : Descriptor} :
    openDescriptor d h = .ok fd h' ↔ h.allocate d = (fd, h') :=
  modifyGet_eq_ok

theorem parent_of_existing?_none {i : Nat} {ps : List String} {n : String} {d : Directory}
    (hn : h.existing? i (ps ++ [n]) = .ok none) (hd : h.dirAt? i ps = some d) :
    d.get? n = none := by
  have hnone := existing?_eq_ok_none hn
  rwa [nodeAt?_append_singleton, hd, Option.bind_some] at hnone

theorem pathOpen_effect {flags : OpenFlags} {append : Bool} {new : Fd}
    (hok : pathOpen fd path flags append h = .ok new h') :
    Effect h (.pathOpen fd path flags append) (.fd new) h' := by
  unfold pathOpen at hok
  simp only [bind_eq_ok, read_eq_ok] at hok
  obtain ⟨⟨i, segments⟩, _, ⟨hp, rfl⟩, found, _, ⟨he, rfl⟩, hok⟩ := hok
  cases found with
  | none =>
    simp only [unless_eq_ok, bind_eq_ok, read_eq_ok, modify_eq_ok, openDescriptor_eq_ok] at hok
    obtain ⟨hc, hf, ⟨ps, n, d⟩, _, ⟨hparent, rfl⟩, _, _, rfl, hnew⟩ := hok
    obtain ⟨rfl, hd⟩ := parentOf_eq_ok.mp hparent
    have heff : Effect h (.pathOpen fd path flags append) _ _ :=
      .create hp hd (parent_of_existing?_none he hd) (by simpa using hc) (by simpa using hf)
    rwa [hnew] at heff
  | some e =>
    rw [existing?_eq_ok_some] at he
    cases e with
    | dir d =>
      simp only [unless_eq_ok, openDescriptor_eq_ok] at hok
      obtain ⟨hx, ht, hnew⟩ := hok
      have heff : Effect h (.pathOpen fd path flags append) _ _ :=
        .openDir hp he (by simpa using hx) (by simpa using ht)
      rwa [hnew] at heff
    | file bytes =>
      simp only [unless_eq_ok] at hok
      obtain ⟨hx, hf, hok⟩ := hok
      cases ht : flags.truncate with
      | false =>
        simp only [ht, Bool.false_eq_true, if_false, openDescriptor_eq_ok] at hok
        have heff : Effect h (.pathOpen fd path flags append) _ _ :=
          .openFile hp he (by simpa using hx) (by simpa using hf) ht
        rwa [hok] at heff
      | true =>
        simp only [ht, if_true, bind_eq_ok, get_eq_ok] at hok
        obtain ⟨_, _, ⟨rfl, rfl⟩, hok⟩ := hok
        cases hr : resizeWithin bytes 0 h.fileBudget with
        | error e =>
          simp only [hr, bind_eq_ok, throw_eq_ok] at hok
          obtain ⟨_, _, hfalse, -⟩ := hok
          exact hfalse.elim
        | ok p =>
          simp only [hr, bind_eq_ok, set_eq_ok, openDescriptor_eq_ok] at hok
          obtain ⟨_, _, rfl, hnew⟩ := hok
          have heff : Effect h (.pathOpen fd path flags append) _ _ :=
            .openCut hp he (by simpa using hx) (by simpa using hf) ht hr
          rwa [refile, hnew] at heff

theorem pathCreateDirectory_effect (hok : pathCreateDirectory fd path h = .ok () h') :
    Effect h (.pathCreateDirectory fd path) .done h' := by
  unfold pathCreateDirectory at hok
  simp only [bind_eq_ok, read_eq_ok, unless_eq_ok, modify_eq_ok] at hok
  obtain ⟨⟨i, segments⟩, _, ⟨hp, rfl⟩, ⟨ps, n, d⟩, _, ⟨hparent, rfl⟩, hn, rfl⟩ := hok
  obtain ⟨rfl, hd⟩ := parentOf_eq_ok.mp hparent
  exact .createDirectory hp hd (by simpa [Directory.contains] using hn)

theorem detach_eq_ok {i : Nat} {path : List String} {e : Entry} :
    detach i path h = .ok e h' ↔ ∃ ps n d, path = ps ++ [n] ∧ h.dirAt? i ps = some d ∧
      d.get? n = some e ∧ h' = h.modifyDir i ps (·.erase n) := by
  unfold detach
  simp only [bind_eq_ok, read_eq_ok]
  constructor
  · rintro ⟨⟨ps, n, d⟩, _, ⟨hparent, rfl⟩, hok⟩
    obtain ⟨rfl, hd⟩ := parentOf_eq_ok.mp hparent
    cases hn : d.get? n with
    | none =>
      simp only [hn] at hok
      exact (throw_eq_ok.mp hok).elim
    | some e =>
      simp only [hn, bind_eq_ok, modify_eq_ok, pure_eq_ok] at hok
      obtain ⟨_, _, rfl, rfl, rfl⟩ := hok
      exact ⟨ps, n, d, rfl, hd, hn, rfl⟩
  · rintro ⟨ps, n, d, rfl, hd, hn, rfl⟩
    refine ⟨(ps, n, d), h, ⟨parentOf_eq_ok.mpr ⟨rfl, hd⟩, rfl⟩, ?_⟩
    simp only [hn]
    rfl

theorem pathUnlinkFile_effect (hok : pathUnlinkFile fd path h = .ok () h') :
    Effect h (.pathUnlinkFile fd path) .done h' := by
  unfold pathUnlinkFile at hok
  simp only [bind_eq_ok, read_eq_ok, node_eq_ok] at hok
  obtain ⟨⟨i, segments⟩, _, ⟨hp, rfl⟩, e, _, ⟨he, rfl⟩, hok⟩ := hok
  cases e with
  | dir d => exact (throw_eq_ok.mp hok).elim
  | file bytes =>
    simp only [bind_eq_ok, detach_eq_ok, pure_eq_ok] at hok
    obtain ⟨_, _, ⟨ps, n, d, rfl, hd, -, rfl⟩, -, rfl⟩ := hok
    rw [nodeAt?_append_singleton, hd, Option.bind_some] at he
    exact .unlinkFile hp hd he

theorem pathRemoveDirectory_effect (hok : pathRemoveDirectory fd path h = .ok () h') :
    Effect h (.pathRemoveDirectory fd path) .done h' := by
  unfold pathRemoveDirectory at hok
  simp only [bind_eq_ok, read_eq_ok, unless_eq_ok, node_eq_ok] at hok
  obtain ⟨⟨i, segments⟩, _, ⟨hp, rfl⟩, -, e, _, ⟨he, rfl⟩, hok⟩ := hok
  cases e with
  | file bytes => exact (throw_eq_ok.mp hok).elim
  | dir d =>
    simp only [unless_eq_ok, bind_eq_ok, detach_eq_ok, pure_eq_ok] at hok
    obtain ⟨hempty, _, _, ⟨ps, n, parent, rfl, hd, -, rfl⟩, -, rfl⟩ := hok
    rw [nodeAt?_append_singleton, hd, Option.bind_some] at he
    obtain rfl : d = .empty := by
      cases d with
      | empty => rfl
      | file | dir => exact absurd rfl hempty
    exact .removeDirectory hp hd he

theorem pathRename_effect {newFd : Fd} {target : String}
    (hok : pathRename fd path newFd target h = .ok () h') :
    Effect h (.pathRename fd path newFd target) .done h' := by
  unfold pathRename at hok
  simp only [bind_eq_ok, read_eq_ok, unless_eq_ok] at hok
  obtain ⟨⟨i, src⟩, _, ⟨hs, rfl⟩, ⟨j, dst⟩, _, ⟨ht, rfl⟩, -, hok⟩ := hok
  split at hok
  · next hsame =>
    obtain ⟨rfl, rfl⟩ := hsame
    simp only [bind_eq_ok, read_eq_ok, node_eq_ok, pure_eq_ok] at hok
    obtain ⟨e, _, ⟨he, rfl⟩, -, rfl⟩ := hok
    exact .renameSame hs ht he
  · next hsame =>
    simp only [unless_eq_ok, bind_eq_ok, read_eq_ok, modify_eq_ok, detach_eq_ok] at hok
    obtain ⟨hbelow, e, _, ⟨he, rfl⟩, _, _, ⟨hr, rfl⟩, _, _, ⟨-, rfl⟩, moved, _,
      ⟨ps, n, d, rfl, hd, hn, rfl⟩, ⟨qs, m, q⟩, _, ⟨hparent, rfl⟩, rfl⟩ := hok
    obtain ⟨rfl, hq⟩ := parentOf_eq_ok.mp hparent
    rw [node_eq_ok, nodeAt?_append_singleton, hd, Option.bind_some, hn] at he
    cases he
    refine .rename hs ht (fun hpre => ?_) hd hn hr (by rw [hq]; rfl)
    obtain ⟨rfl, hpre⟩ := hpre
    -- The target is not the source itself, so it would be strictly below it.
    have hlt : (ps ++ [n]).length < (qs ++ [m]).length :=
      Nat.lt_of_le_of_ne hpre.length_le fun hlen => hsame ⟨rfl, hpre.eq_of_length hlen⟩
    exact hbelow ⟨rfl, hlt, List.isPrefixOf_iff_prefix.mpr hpre⟩

/-- Every call that succeeds does so by one of the rules. -/
theorem effect_of_perform {c : Call} {r : Reply} (hok : perform c h = .ok r h') :
    Effect h c r h' := by
  cases c
  case fdPread | fdFdstat | fdFilestat | fdCheck | fdPrestatName | fdReaddir | pathFilestat |
      pathTouch | pathReadlink | clockTime | clockResolution =>
    simp only [perform, map_eq_ok, read_eq_ok] at hok
    obtain ⟨_, ⟨-, rfl⟩, -⟩ := hok
    exact .look rfl
  case random length =>
    simp only [perform, map_eq_ok, modifyGet_eq_ok] at hok
    obtain ⟨bytes, hr, rfl⟩ := hok
    obtain ⟨entropy, hstate⟩ := randomBytes_eq h length
    rw [hr] at hstate
    subst hstate
    exact .random hr
  case poll subscriptions =>
    simp only [perform, map_eq_ok, modifyGet_eq_ok] at hok
    obtain ⟨events, hp, rfl⟩ := hok
    obtain ⟨elapsed, hstate⟩ := poll_eq h subscriptions
    rw [hp] at hstate
    subst hstate
    exact .poll hp
  all_goals
    simp only [perform, map_eq_ok] at hok
    obtain ⟨_, hok, rfl⟩ := hok
  case fdWrite => exact fdWrite_effect hok
  case fdPwrite => exact fdPwrite_effect hok
  case fdRead => exact fdRead_effect hok
  case fdSeek => exact fdSeek_effect hok
  case fdClose => exact fdClose_effect hok
  case fdRenumber => exact fdRenumber_effect hok
  case fdSetAppend => exact fdSetAppend_effect hok
  case fdSetSize => exact fdSetSize_effect hok
  case pathOpen => exact pathOpen_effect hok
  case pathCreateDirectory => exact pathCreateDirectory_effect hok
  case pathUnlinkFile => exact pathUnlinkFile_effect hok
  case pathRemoveDirectory => exact pathRemoveDirectory_effect hok
  case pathRename => exact pathRename_effect hok

end Success

end Buildbox.Host
