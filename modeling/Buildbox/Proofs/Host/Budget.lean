import Buildbox.Proofs.Host.Atomic
import Buildbox.Proofs.Host.Splicing

/-! Growth of files against the budget. The lengths of all files and what is left of the budget
together never grow; they shrink by the files that are removed, and by what a refund loses when
the budget is full. -/

namespace Buildbox

namespace Host

/-- The lengths of all files and what is left of the budget. -/
def holdings (h : Host) : Nat :=
  h.mounts.totalLength + h.fileBudget.toNat

def fileLength : Except Errno Entry → Nat
  | .ok (.file bytes) => bytes.length
  | _ => 0

def lengthAt (h : Host) (fd : Fd) (path : String) : Nat :=
  fileLength (do
    let (mount, segments) ← h.resolve fd path
    h.node mount segments)

def lengthOf (h : Host) (fd : Fd) : Nat :=
  fileLength (do
    match ← h.descriptor fd with
    | .file mount path _ _ => h.node mount path
    | _ => throw .badf)

def samePlace (h : Host) (fd : Fd) (path : String) (fd' : Fd) (path' : String) : Bool :=
  match h.resolve fd path, h.resolve fd' path' with
  | .ok place, .ok place' => place = place'
  | _, _ => false

def removed (h : Host) (c : Call) : Nat :=
  match c, (h.step c).1 with
  | .pathUnlinkFile fd path, .ok _ => h.lengthAt fd path
  | .pathRename fd source newFd target, .ok _ =>
    if h.samePlace fd source newFd target then 0 else h.lengthAt newFd target
  | _, _ => 0

def refund (h : Host) (c : Call) : Nat :=
  match c, (h.step c).1 with
  | .fdSetSize fd size, .ok _ => h.lengthOf fd - size.toNat
  | .pathOpen fd path flags _, .ok _ => if flags.truncate then h.lengthAt fd path else 0
  | _, _ => 0

def overflow (h : Host) (c : Call) : Nat :=
  h.fileBudget.toNat + h.refund c - (UInt64.size - 1)

/-- The summed lengths of the files that a list of calls removes. -/
def removedBy (h : Host) : List Call → Nat
  | [] => 0
  | c :: calls => h.removed c + removedBy (h.step c).2 calls

/-- Holds when the budget has room for every refund of a list of calls. -/
def Unsaturated (h : Host) : List Call → Prop
  | [] => True
  | c :: calls => h.fileBudget.toNat + h.refund c < UInt64.size ∧ Unsaturated (h.step c).2 calls

instance decidableUnsaturated : (h : Host) → (calls : List Call) → Decidable (h.Unsaturated calls)
  | _, [] => inferInstanceAs (Decidable True)
  | h, c :: calls =>
    have := decidableUnsaturated (h.step c).2 calls
    inferInstanceAs (Decidable (_ ∧ _))

section Lengths

variable {h : Host} {fd fd' : Fd} {path path' : String} {i : Nat} {segments : List String}
  {bytes : Bytes}

theorem node_eq_error (hn : h.nodeAt? i segments = none) : ∃ e, h.node i segments = .error e := by
  cases hnode : h.node i segments with
  | ok e => rw [node_eq_ok, hn] at hnode; cases hnode
  | error e => exact ⟨e, rfl⟩

theorem lengthAt_eq_node (hp : h.resolve fd path = .ok (i, segments)) :
    h.lengthAt fd path = fileLength (h.node i segments) := by
  rw [lengthAt, hp]
  rfl

theorem lengthOf_eq_node {position : UInt64} {append : Bool}
    (hd : h.fds.get? fd = some (.file i segments position append)) :
    h.lengthOf fd = fileLength (h.node i segments) := by
  rw [lengthOf, descriptor_eq_ok.mpr hd]
  rfl

theorem fileLength_node (hb : h.nodeAt? i segments = some (.file bytes)) :
    fileLength (h.node i segments) = bytes.length := by
  rw [node_eq_ok.mpr hb]
  rfl

theorem fileLength_of_checkReplace {e : Entry} (hr : h.checkReplace e i segments = .ok ()) :
    fileLength (h.node i segments) = Entry.heldLength (h.nodeAt? i segments) := by
  cases he : h.nodeAt? i segments with
  | none =>
    obtain ⟨c, hc⟩ := node_eq_error he
    rw [hc]
    rfl
  | some found =>
    rw [node_eq_ok.mpr he]
    cases found with
    | file b => rfl
    | dir d =>
      cases d with
      | empty => rfl
      | file | dir =>
        unfold checkReplace at hr
        rw [existing?_eq_ok_some.mpr he] at hr
        cases e <;> cases hr

end Lengths

section Step

variable {h h' : Host} {c : Call} {r : Reply}

def Balanced (h : Host) (c : Call) (h' : Host) : Prop :=
  h'.mounts.Valid ∧ h'.holdings + h.removed c + h.overflow c = h.holdings

theorem overflow_eq_zero (hf : h.refund c = 0) : h.overflow c = 0 := by
  have hbudget := h.fileBudget.toNat_lt_size
  unfold overflow
  omega

theorem balanced_of_same (hv : h.mounts.Valid) (hm : h'.mounts = h.mounts)
    (hb : h'.fileBudget = h.fileBudget) (hr : h.removed c = 0) (hf : h.refund c = 0) :
    Balanced h c h' := by
  refine ⟨hm ▸ hv, ?_⟩
  rw [holdings, hm, hb, hr, overflow_eq_zero hf]
  rfl

theorem valid_setFile {i : Nat} {path : List String} {bytes written : Bytes}
    (hv : h.mounts.Valid) (hb : h.nodeAt? i path = some (.file bytes))
    (hw : written.length < UInt64.size) : (h.setFile i path written).mounts.Valid := by
  obtain ⟨ps, n, d, rfl, hd, hn⟩ := exists_of_nodeAt?_file hb
  rw [setFile_eq_modifyDir hd hn]
  exact valid_insert hv i ps n hw

theorem totalLength_setFile {i : Nat} {path : List String} {bytes : Bytes} (hv : h.mounts.Valid)
    (hb : h.nodeAt? i path = some (.file bytes)) (written : Bytes) :
    (h.setFile i path written).mounts.totalLength + bytes.length =
      h.mounts.totalLength + written.length := by
  obtain ⟨ps, n, d, rfl, hd, hn⟩ := exists_of_nodeAt?_file hb
  have hput := totalLength_insert hv hd n (.file written)
  rw [hn] at hput
  rw [setFile_eq_modifyDir hd hn]
  exact hput

theorem balanced_of_setFile {i : Nat} {path : List String} {bytes written : Bytes}
    (hv : h.mounts.Valid) (hb : h.nodeAt? i path = some (.file bytes))
    (hw : written.length < UInt64.size) (hm : h'.mounts = (h.setFile i path written).mounts)
    (hpaid : written.length + h'.fileBudget.toNat + h.overflow c =
      bytes.length + h.fileBudget.toNat) (hr : h.removed c = 0) : Balanced h c h' := by
  have hchange := totalLength_setFile hv hb written
  refine ⟨hm ▸ valid_setFile hv hb hw, ?_⟩
  rw [holdings, hm, hr, holdings]
  omega

theorem balanced_of_insert {i : Nat} {ps : List String} {n : String} {d : Directory} {e : Entry}
    (hv : h.mounts.Valid) (hd : h.dirAt? i ps = some d) (hn : d.get? n = none) (he : e.Valid)
    (hz : e.totalLength = 0) (hm : h'.mounts = (h.modifyDir i ps (·.insert n e)).mounts)
    (hb : h'.fileBudget = h.fileBudget) (hr : h.removed c = 0) (hf : h.refund c = 0) :
    Balanced h c h' := by
  have hput := totalLength_insert hv hd n e
  rw [hn, Entry.heldLength_none, hz] at hput
  refine ⟨hm ▸ valid_insert hv i ps n he, ?_⟩
  rw [holdings, hm, hb, hr, overflow_eq_zero hf, holdings]
  omega

theorem balanced_of_erase {i : Nat} {ps : List String} {n : String} {d : Directory}
    (hv : h.mounts.Valid) (hd : h.dirAt? i ps = some d)
    (hm : h'.mounts = (h.modifyDir i ps (·.erase n)).mounts)
    (hb : h'.fileBudget = h.fileBudget) (hr : h.removed c = Entry.heldLength (d.get? n))
    (hf : h.refund c = 0) : Balanced h c h' := by
  have hcut := totalLength_erase hv hd n
  refine ⟨hm ▸ valid_erase hv i ps n, ?_⟩
  rw [holdings, hm, hb, hr, overflow_eq_zero hf, holdings]
  omega

theorem balanced_of_rename {fd newFd : Fd} {source target : String} {i j : Nat}
    {ps qs : List String} {n m : String} {d : Directory} {e : Entry} (hv : h.mounts.Valid)
    (hok : (h.step (.pathRename fd source newFd target)).1 = .ok r)
    (hs : h.resolve fd source = .ok (i, ps ++ [n]))
    (ht : h.resolve newFd target = .ok (j, qs ++ [m]))
    (hne : ¬ (i = j ∧ ps ++ [n] <+: qs ++ [m])) (hd : h.dirAt? i ps = some d)
    (hn : d.get? n = some e) (hr : h.checkReplace e j (qs ++ [m]) = .ok ())
    (hparent : ((h.modifyDir i ps (·.erase n)).dirAt? j qs).isSome) :
    Balanced h (.pathRename fd source newFd target)
      ((h.modifyDir i ps (·.erase n)).modifyDir j qs (·.insert m e)) := by
  obtain ⟨q, hq⟩ := Option.isSome_iff_exists.mp hparent
  have hvalid := valid_erase hv i ps n
  have he : e.Valid := Directory.valid_of_get? (valid_of_dirAt? hv hd) hn
  have hcut := totalLength_erase hv hd n
  have hput := totalLength_insert hvalid hq m e
  -- What the entry takes the place of is what stood at the target before.
  have hheld : q.get? m = h.nodeAt? j (qs ++ [m]) := by
    rw [← nodeAt?_detached hne hd hn hr, nodeAt?_append_singleton, hq, Option.bind_some]
  have hremoved : h.removed (.pathRename fd source newFd target) =
      Entry.heldLength (q.get? m) := by
    have hother : h.samePlace fd source newFd target = false := by
      simp only [samePlace, hs, ht, decide_eq_false_iff_not]
      intro hsame
      obtain ⟨hij, heq⟩ := Prod.mk.inj hsame
      exact hne ⟨hij, heq ▸ List.prefix_rfl⟩
    simp only [removed, hok, hother, Bool.false_eq_true, if_false]
    rw [lengthAt_eq_node ht, fileLength_of_checkReplace hr, hheld]
  refine ⟨valid_insert hvalid j qs m he, ?_⟩
  rw [hremoved, overflow_eq_zero rfl]
  rw [hn, Entry.heldLength_some] at hcut
  change _ + h.fileBudget.toNat + _ + 0 = h.mounts.totalLength + h.fileBudget.toNat
  omega

theorem step_balanced (hv : h.mounts.Valid) (c : Call) : Balanced h c (h.step c).2 := by
  obtain ⟨r, hok, heff⟩ | ⟨e, herr, hstay⟩ := step_cases h c
  · generalize (h.step c).2 = h' at heff
    cases heff with
    | look hc => refine balanced_of_same hv rfl rfl ?_ ?_ <;> cases c <;> first | rfl | cases hc
    | @output fd data stream hd =>
      cases stream <;> exact balanced_of_same hv rfl rfl rfl rfl
    | readInput | read | seek | close | renumber | setAppend | noAppend | random | poll =>
      exact balanced_of_same hv rfl rfl rfl rfl
    | openDir hp he hx ht =>
      refine balanced_of_same hv rfl rfl rfl ?_
      simp only [refund, hok, ht, Bool.false_eq_true, if_false]
    | openFile hp he hx hf ht =>
      refine balanced_of_same hv rfl rfl rfl ?_
      simp only [refund, hok, ht, Bool.false_eq_true, if_false]
    | renameSame hs ht he =>
      refine balanced_of_same hv rfl rfl ?_ rfl
      simp only [removed, hok, samePlace, hs, ht, decide_true, if_true]
    | write hd hb hw =>
      obtain ⟨hlen, hpaid⟩ := writeAt_balance (length_lt_of_nodeAt? hv hb) hw
      refine balanced_of_setFile hv hb hlen rfl ?_ rfl
      rw [overflow_eq_zero rfl]
      exact hpaid
    | pwrite hd hb hw =>
      obtain ⟨hlen, hpaid⟩ := writeAt_balance (length_lt_of_nodeAt? hv hb) hw
      refine balanced_of_setFile hv hb hlen rfl ?_ rfl
      rw [overflow_eq_zero rfl]
      exact hpaid
    | @setSize fd size i path position append bytes resized budget hd hb hr =>
      obtain ⟨hlen, hpaid⟩ := resizeWithin_balance (length_lt_of_nodeAt? hv hb) hr
      refine balanced_of_setFile hv hb (by rw [hlen]; exact size.toNat_lt) rfl ?_ rfl
      have hcut : h.refund (.fdSetSize fd size) = bytes.length - size.toNat := by
        simp only [refund, hok, lengthOf_eq_node hd, fileLength_node hb]
      unfold overflow
      rw [hcut]
      exact hpaid
    | @openCut fd path flags append i segments bytes resized budget hp he hx hf ht hr =>
      obtain ⟨hlen, hpaid⟩ := resizeWithin_balance (length_lt_of_nodeAt? hv he) hr
      refine balanced_of_setFile hv he (by rw [hlen]; exact UInt64.toNat_lt 0) rfl ?_ rfl
      have hcut : h.refund (.pathOpen fd path flags append) = bytes.length := by
        simp only [refund, hok, ht, if_true, lengthAt_eq_node hp, fileLength_node he]
      unfold overflow
      rw [hcut]
      exact hpaid
    | @create fd path flags append i ps n d hp hd hn hc hf =>
      have hnone : h.nodeAt? i (ps ++ [n]) = none := by
        rw [nodeAt?_append_singleton, hd, Option.bind_some, hn]
      obtain ⟨e, he⟩ := node_eq_error hnone
      have hzero : h.refund (.pathOpen fd path flags append) = 0 := by
        simp only [refund, hok, lengthAt_eq_node hp, he, fileLength, ite_self]
      have hvalid : (Entry.file []).Valid := Nat.succ_pos _
      exact balanced_of_insert hv hd hn hvalid rfl rfl rfl rfl hzero
    | createDirectory hp hd hn =>
      have hvalid : (Entry.dir .empty).Valid := Directory.valid_empty
      exact balanced_of_insert hv hd hn hvalid rfl rfl rfl rfl rfl
    | @unlinkFile fd path i ps n d bytes hp hd hn =>
      have hfile : h.nodeAt? i (ps ++ [n]) = some (.file bytes) := by
        rw [nodeAt?_append_singleton, hd, Option.bind_some, hn]
      refine balanced_of_erase hv hd rfl rfl ?_ rfl
      simp only [removed, hok, lengthAt_eq_node hp, fileLength_node hfile, hn]
      rfl
    | removeDirectory hp hd hn =>
      refine balanced_of_erase hv hd rfl rfl ?_ rfl
      rw [hn]
      rfl
    | rename hs ht hne hd hn hr hparent =>
      exact balanced_of_rename hv hok hs ht hne hd hn hr hparent
  · rw [hstay]
    refine balanced_of_same hv rfl rfl ?_ ?_
    · cases c <;> simp only [removed, herr]
    · cases c <;> simp only [refund, herr]

end Step

section Runs

variable {h : Host}

theorem valid_runCalls (hv : h.mounts.Valid) (calls : List Call) :
    (h.runCalls calls).mounts.Valid := by
  induction calls generalizing h with
  | nil => exact hv
  | cons c calls ih => exact ih (step_balanced hv c).1

theorem runCalls_balanced (hv : h.mounts.Valid) (calls : List Call) :
    (h.runCalls calls).holdings + h.removedBy calls ≤ h.holdings ∧
      (h.Unsaturated calls → (h.runCalls calls).holdings + h.removedBy calls = h.holdings) := by
  induction calls generalizing h with
  | nil => exact ⟨Nat.le_refl _, fun _ => rfl⟩
  | cons c calls ih =>
    obtain ⟨hv', hstep⟩ := step_balanced hv c
    obtain ⟨hle, heq⟩ := ih hv'
    have hrun : h.runCalls (c :: calls) = (h.step c).2.runCalls calls := rfl
    rw [hrun, removedBy]
    refine ⟨by omega, fun hall => ?_⟩
    obtain ⟨hroom, hrest⟩ := hall
    have hnone : h.overflow c = 0 := by
      unfold overflow
      omega
    have heq := heq hrest
    omega

theorem runCalls_fresh_holdings (args env : List String) (mounts : MountTable)
    (stdout stderr : Redirect) (budget : UInt64) (deadline : Deadline) (calls : List Call)
    (hm : mounts.Valid) :
    let h := fresh args env mounts stdout stderr budget deadline
    (h.runCalls calls).holdings ≤ mounts.totalLength + budget.toNat ∧
      (h.Unsaturated calls →
        (h.runCalls calls).holdings + h.removedBy calls =
          mounts.totalLength + budget.toNat) := by
  intro h
  obtain ⟨hle, heq⟩ := runCalls_balanced (h := h) hm calls
  have hstart : h.holdings = mounts.totalLength + budget.toNat := rfl
  rw [hstart] at hle heq
  exact ⟨by omega, heq⟩

theorem holdings_unlink_create_write :
    let mounts : MountTable := [⟨".", .file "a" [1, 2, 3] .empty⟩]
    let h := fresh [] [] mounts .discard .capture 10 none
    let calls : List Call :=
      [.pathUnlinkFile 3 "a", .pathOpen 3 "b" { create := true } false, .fdWrite 4 [7, 7]]
    mounts.Valid ∧ h.Unsaturated calls ∧ h.removedBy calls = 3 ∧
      (h.runCalls calls).holdings + 3 = 13 := by
  intro mounts h calls
  have hm : mounts.Valid := by
    intro m hm
    obtain rfl := List.mem_singleton.mp hm
    exact ⟨⟨fun _ hn => absurd hn List.not_mem_nil, trivial⟩, ⟨by decide, trivial⟩⟩
  have hu : h.Unsaturated calls := by decide
  have hr : h.removedBy calls = 3 := by decide
  have heq := (runCalls_fresh_holdings [] [] mounts .discard .capture 10 none calls hm).2 hu
  exact ⟨hm, hu, hr, hr ▸ heq⟩

end Runs

end Host

end Buildbox
