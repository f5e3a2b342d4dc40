import Buildbox.Proofs.Host.Confinement

/-! A mount that no call leads to stays hidden. Whatever tree is behind it, every call answers the
same and does the same to the rest of the host, so nothing in a run tells two such trees apart. -/

namespace Buildbox

namespace MountTable

variable {t u : MountTable} {i j : Nat}

theorem modifyAt_comm (f g : Directory → Directory) (hne : i ≠ j) (t : MountTable) :
    (t.modifyAt f i).modifyAt g j = (t.modifyAt g j).modifyAt f i := by
  apply List.ext_getElem?
  intro k
  simp only [getElem?_modifyAt]
  by_cases hj : j = k
  · have hi : i ≠ k := fun hik => hne (hik.trans hj.symm)
    rw [if_pos hj, if_neg hi, if_neg hi, if_pos hj]
  · rw [if_neg hj, if_neg hj]

theorem exists_eq_modifyAt (hnames : u.map (·.name) = t.map (·.name))
    (hother : ∀ i, i ≠ j → u[i]? = t[i]?) : ∃ tree, u = t.modifyAt (fun _ => tree) j := by
  refine ⟨((u[j]?).map (·.root)).getD .empty, ?_⟩
  apply List.ext_getElem?
  intro k
  rw [getElem?_modifyAt]
  split
  · next hk =>
    subst hk
    have hname : (u[j]?).map (·.name) = (t[j]?).map (·.name) := by
      rw [← List.getElem?_map, ← List.getElem?_map, hnames]
    cases hu : u[j]? with
    | none =>
      rw [hu, Option.map_none, eq_comm, Option.map_eq_none_iff] at hname
      rw [hname, Option.map_none]
    | some m =>
      rw [hu, Option.map_some, eq_comm, Option.map_eq_some_iff] at hname
      obtain ⟨n, hn, hname⟩ := hname
      rw [hn, Option.map_some, Option.map_some, Option.getD_some, hname]
  · next hk => exact hother k (Ne.symm hk)

end MountTable

namespace Host

def withTree (h : Host) (j : Nat) (tree : Directory) : Host :=
  { h with mounts := h.mounts.modifyAt (fun _ => tree) j }

section Other

variable {h : Host} {tree : Directory} {i j : Nat} (hne : i ≠ j)
include hne

theorem getElem?_withTree : (h.withTree j tree).mounts[i]? = h.mounts[i]? :=
  getElem?_modifyAt_of_ne (Ne.symm hne)

theorem root_withTree : (h.withTree j tree).root i = h.root i := by
  unfold root
  rw [getElem?_withTree hne]

theorem node_withTree (path : List String) : (h.withTree j tree).node i path = h.node i path := by
  unfold node
  rw [root_withTree hne]

theorem fileBytes_withTree (path : List String) :
    (h.withTree j tree).fileBytes i path = h.fileBytes i path := by
  unfold fileBytes
  rw [root_withTree hne]

theorem parentOf_withTree (path : List String) (e : Errno) :
    (h.withTree j tree).parentOf i path e = h.parentOf i path e := by
  unfold parentOf
  rw [root_withTree hne]

theorem statOf_withTree (path : List String) :
    (h.withTree j tree).statOf i path = h.statOf i path := by
  unfold statOf
  rw [node_withTree hne]

theorem existing?_withTree (path : List String) :
    (h.withTree j tree).existing? i path = h.existing? i path := by
  unfold existing?
  rw [node_withTree hne]

theorem checkReplace_withTree (e : Entry) (path : List String) :
    (h.withTree j tree).checkReplace e i path = h.checkReplace e i path := by
  unfold checkReplace
  rw [existing?_withTree hne]

theorem setFile_withTree (path : List String) (bytes : Bytes) :
    (h.withTree j tree).setFile i path bytes = (h.setFile i path bytes).withTree j tree := by
  unfold setFile withTree
  rw [MountTable.modifyAt_comm _ _ hne]

theorem refile_withTree (path : List String) (bytes : Bytes) (fileBudget : UInt64) :
    (h.withTree j tree).refile i path bytes fileBudget =
      (h.refile i path bytes fileBudget).withTree j tree := by
  unfold refile
  rw [setFile_withTree hne]
  rfl

theorem modifyDir_withTree (path : List String) (f : Directory → Directory) :
    (h.withTree j tree).modifyDir i path f = (h.modifyDir i path f).withTree j tree := by
  unfold modifyDir withTree
  rw [MountTable.modifyAt_comm _ _ hne]

end Other

end Host

namespace HostM

variable {α β : Type} {h : Host} {j : Nat} {x : HostM α} {f : α → HostM β}

def after (f : Host → Host) : EStateM.Result Refusal Host α → EStateM.Result Refusal Host α
  | .ok a h => .ok a (f h)
  | .error e h => .error e (f h)

def Blind (j : Nat) (h : Host) (x : HostM α) : Prop :=
  ∀ tree, x (h.withTree j tree) = after (·.withTree j tree) (x h)

theorem blind_pure (a : α) : Blind j h (pure a : HostM α) :=
  fun _ => rfl

theorem blind_throw (e : Refusal) : Blind j h (throw e : HostM α) :=
  fun _ => rfl

theorem blind_modify {g : Host → Host}
    (hg : ∀ tree, g (h.withTree j tree) = (g h).withTree j tree) :
    Blind j h (modify g : HostM Unit) := by
  intro tree
  change EStateM.Result.ok () (g (h.withTree j tree)) = .ok () ((g h).withTree j tree)
  rw [hg]

theorem blind_modifyGet {g : Host → α × Host}
    (hg : ∀ tree, g (h.withTree j tree) = ((g h).1, (g h).2.withTree j tree)) :
    Blind j h (modifyGet g : HostM α) := by
  intro tree
  change EStateM.Result.ok (g (h.withTree j tree)).1 (g (h.withTree j tree)).2 =
    .ok (g h).1 ((g h).2.withTree j tree)
  rw [hg]

theorem blind_read {g : Host → Except Errno α} (hg : ∀ tree, g (h.withTree j tree) = g h) :
    Blind j h (read g) := by
  intro tree
  unfold read
  rw [hg]
  cases g h <;> rfl

theorem Blind.bind (hx : Blind j h x) (hf : ∀ a h', x h = .ok a h' → Blind j h' (f a)) :
    Blind j h (x >>= f) := by
  intro tree
  change EStateM.bind x f _ = after _ (EStateM.bind x f h)
  unfold EStateM.bind
  rw [hx tree]
  cases hok : x h with
  | ok a h' => exact hf a h' hok tree
  | error e h' => rfl

theorem blind_read_bind {g : Host → Except Errno α} (hg : ∀ tree, g (h.withTree j tree) = g h)
    (hf : ∀ a, g h = .ok a → Blind j h (f a)) : Blind j h (read g >>= f) := by
  refine (blind_read hg).bind fun a h' hok => ?_
  obtain ⟨ha, rfl⟩ := read_eq_ok.mp hok
  exact hf a ha

theorem blind_get_bind {f : Host → HostM β} (hf : ∀ tree,
    f (h.withTree j tree) (h.withTree j tree) = after (·.withTree j tree) (f h h)) :
    Blind j h (get >>= f) :=
  hf

theorem Blind.map (hx : Blind j h x) (g : α → β) : Blind j h (g <$> x) := by
  intro tree
  change EStateM.map g x _ = after _ (EStateM.map g x h)
  unfold EStateM.map
  rw [hx tree]
  cases x h <;> rfl

theorem blind_unless {c : Prop} [Decidable c] {e : Refusal} {k : Unit → HostM α}
    (hx : ¬ c → Blind j h x) : Blind j h (if c then throw e >>= k else x) := by
  split
  · exact (blind_throw e).bind fun _ _ hok => (throw_eq_ok.mp hok).elim
  · next hc => exact hx hc

end HostM

namespace Host

open HostM

variable {h : Host} {fd : Fd} {path : String} {i j : Nat}

section Calls

theorem ne_of_file {path : List String} {position : UInt64} {append : Bool}
    (hfree : h.mountOf? fd ≠ some j) (hd : h.descriptor fd = .ok (.file i path position append)) :
    i ≠ j := by
  rintro rfl
  rw [descriptor_eq_ok] at hd
  exact hfree (by rw [mountOf?, hd])

theorem ne_of_dir {path : List String} {preopen : Bool} (hfree : h.mountOf? fd ≠ some j)
    (hd : h.descriptor fd = .ok (.dir i path preopen)) : i ≠ j := by
  rintro rfl
  rw [descriptor_eq_ok] at hd
  exact hfree (by rw [mountOf?, hd])

theorem ne_of_resolve {segments : List String} (hfree : h.mountOf? fd ≠ some j)
    (hp : h.resolve fd path = .ok (i, segments)) : i ≠ j := by
  rintro rfl
  exact hfree (mountOf?_of_resolve hp)

theorem blind_writeFile (hne : i ≠ j) (path : List String) (start : Bytes → UInt64)
    (data : Bytes) : Blind j h (writeFile i path start data) := by
  refine blind_read_bind (fun _ => fileBytes_withTree hne path) fun bytes _ => ?_
  refine blind_get_bind fun tree => ?_
  have hbudget : (h.withTree j tree).fileBudget = h.fileBudget := rfl
  rw [hbudget]
  cases writeAt bytes (start bytes) data h.fileBudget with
  | error e => rfl
  | ok p => exact congrArg (EStateM.Result.ok (start bytes)) (refile_withTree hne path p.1 p.2)

theorem blind_detach (hne : i ≠ j) (path : List String) : Blind j h (detach i path) := by
  refine blind_read_bind (fun _ => parentOf_withTree hne path _) fun (parents, name, d) _ => ?_
  cases hn : d.get? name with
  | none =>
    simp only [hn]
    exact blind_throw _
  | some e =>
    simp only [hn]
    exact (blind_modify fun _ => modifyDir_withTree hne _ _).bind fun _ _ _ => blind_pure _

theorem blind_fdWrite (hfree : h.mountOf? fd ≠ some j) (data : Bytes) :
    Blind j h (fdWrite fd data) := by
  refine blind_read_bind (fun _ => rfl) fun d hd => ?_
  cases d with
  | stdin | dir => exact (blind_throw _).bind fun _ _ hok => (throw_eq_ok.mp hok).elim
  | output stream =>
    refine (blind_modify fun tree => ?_).bind fun _ _ _ => blind_pure _
    cases stream <;> rfl
  | file i path position append =>
    have hwrite := blind_writeFile (h := h) (ne_of_file hfree hd) path
      (fun bytes => if append then UInt64.ofNat bytes.length else position) data
    refine hwrite.bind fun _ _ _ => ?_
    exact (blind_modify fun _ => rfl).bind fun _ _ _ => blind_pure _

theorem blind_fdPwrite (hfree : h.mountOf? fd ≠ some j) (data : Bytes) (offset : UInt64) :
    Blind j h (fdPwrite fd data offset) := by
  refine blind_read_bind (fun _ => rfl) fun d hd => ?_
  cases d with
  | stdin | output | dir => exact blind_throw _
  | file i path position append =>
    have hwrite := blind_writeFile (h := h) (ne_of_file hfree hd) path (fun _ => offset) data
    exact hwrite.bind fun _ _ _ => blind_pure _

theorem blind_fdRead (hfree : h.mountOf? fd ≠ some j) (max : Nat) :
    Blind j h (fdRead fd max) := by
  refine blind_read_bind (fun _ => rfl) fun d hd => ?_
  cases d with
  | stdin => exact blind_pure _
  | output | dir => exact blind_throw _
  | file i path position append =>
    refine blind_read_bind (fun _ => fileBytes_withTree (ne_of_file hfree hd) path) fun _ _ => ?_
    exact (blind_modify fun _ => rfl).bind fun _ _ _ => blind_pure _

theorem fdPread_withTree (hfree : h.mountOf? fd ≠ some j) (max : Nat) (offset : UInt64)
    (tree : Directory) : (h.withTree j tree).fdPread fd max offset = h.fdPread fd max offset := by
  have hsame : (h.withTree j tree).descriptor fd = h.descriptor fd := rfl
  unfold fdPread
  rw [hsame]
  cases hd : h.descriptor fd with
  | error e => rfl
  | ok d =>
    cases d with
    | stdin | output | dir => rfl
    | file i path position append =>
      simp only [bind, Except.bind, fileBytes_withTree (ne_of_file hfree hd)]

theorem blind_fdSeek (hfree : h.mountOf? fd ≠ some j) (offset : Int64) (whence : UInt8) :
    Blind j h (fdSeek fd offset whence) := by
  refine blind_read_bind (fun _ => rfl) fun d hd => ?_
  cases d with
  | stdin | output | dir => exact blind_throw _
  | file i path position append =>
    -- Only the end of the file is looked up; the move itself is in the descriptor.
    have hmove (base : Int64) : Blind j h (do
        let target := base.toInt + offset.toInt
        if target < 0 ∨ Int64.maxValue.toInt < target then throw (.errno .inval)
        let position := UInt64.ofNat target.toNat
        modify fun h => { h with fds := h.fds.set fd (.file i path position append) }
        return position) :=
      blind_unless fun _ => (blind_modify fun _ => rfl).bind fun _ _ _ => blind_pure _
    cases Whence.ofCode? whence with
    | none => exact (blind_throw _).bind fun _ _ hok => (throw_eq_ok.mp hok).elim
    | some w =>
      cases w with
      | set | current => exact hmove _
      | fileEnd =>
        refine blind_read_bind (fun _ => fileBytes_withTree (ne_of_file hfree hd) path) ?_
        exact fun _ _ => hmove _

theorem fdFilestat_withTree (hfree : h.mountOf? fd ≠ some j) (tree : Directory) :
    (h.withTree j tree).fdFilestat fd = h.fdFilestat fd := by
  have hsame : (h.withTree j tree).descriptor fd = h.descriptor fd := rfl
  unfold fdFilestat
  rw [hsame]
  cases hd : h.descriptor fd with
  | error e => rfl
  | ok d =>
    cases d with
    | stdin | output => rfl
    | dir i path preopen => exact statOf_withTree (ne_of_dir hfree hd) path
    | file i path position append => exact statOf_withTree (ne_of_file hfree hd) path

theorem blind_fdSetSize (hfree : h.mountOf? fd ≠ some j) (size : UInt64) :
    Blind j h (fdSetSize fd size) := by
  refine blind_read_bind (fun _ => rfl) fun d hd => ?_
  cases d with
  | stdin | output | dir => exact blind_throw _
  | file i path position append =>
    have hne := ne_of_file hfree hd
    refine blind_read_bind (fun _ => fileBytes_withTree hne path) fun bytes _ => ?_
    refine blind_get_bind fun tree => ?_
    have hbudget : (h.withTree j tree).fileBudget = h.fileBudget := rfl
    rw [hbudget]
    cases resizeWithin bytes size h.fileBudget with
    | error e => rfl
    | ok p => exact congrArg (EStateM.Result.ok ()) (refile_withTree hne path p.1 p.2)

theorem fdPrestatName_withTree (hfree : h.mountOf? fd ≠ some j) (tree : Directory) :
    (h.withTree j tree).fdPrestatName fd = h.fdPrestatName fd := by
  have hsame : (h.withTree j tree).descriptor fd = h.descriptor fd := rfl
  unfold fdPrestatName
  rw [hsame]
  cases hd : h.descriptor fd with
  | error e => rfl
  | ok d =>
    cases d with
    | stdin | output | file => rfl
    | dir i path preopen =>
      cases preopen with
      | false => rfl
      | true => simp only [bind, Except.bind, getElem?_withTree (ne_of_dir hfree hd)]

theorem fdReaddir_withTree (hfree : h.mountOf? fd ≠ some j) (cookie : UInt64) (limit : Nat)
    (tree : Directory) :
    (h.withTree j tree).fdReaddir fd cookie limit = h.fdReaddir fd cookie limit := by
  have hsame : (h.withTree j tree).descriptor fd = h.descriptor fd := rfl
  unfold fdReaddir
  rw [hsame]
  cases hd : h.descriptor fd with
  | error e => rfl
  | ok d =>
    cases d with
    | stdin | output | file => rfl
    | dir i path preopen =>
      simp only [bind, Except.bind, node_withTree (ne_of_dir hfree hd)]

theorem free_withTree (tree : Directory) (fd : Fd) (n : Nat) :
    allocate.free (h.withTree j tree) fd n = allocate.free h fd n := by
  have hsame : (h.withTree j tree).fds = h.fds := rfl
  induction n generalizing fd with
  | zero => rfl
  | succ n ih => rw [allocate.free, allocate.free, hsame, ih]

theorem blind_openDescriptor (d : Descriptor) : Blind j h (openDescriptor d) := by
  refine blind_modifyGet fun tree => ?_
  have hsame : (h.withTree j tree).fds = h.fds := rfl
  unfold allocate
  rw [free_withTree, hsame]
  rfl

theorem blind_pathOpen (hfree : h.mountOf? fd ≠ some j) (path : String) (flags : OpenFlags)
    (append : Bool) : Blind j h (pathOpen fd path flags append) := by
  refine blind_read_bind (fun _ => rfl) fun (i, segments) hp => ?_
  have hne := ne_of_resolve hfree hp
  refine blind_read_bind (fun _ => existing?_withTree hne segments) fun found _ => ?_
  cases found with
  | none =>
    refine blind_unless fun _ => blind_unless fun _ => ?_
    refine blind_read_bind (fun _ => parentOf_withTree hne segments _) fun _ _ => ?_
    refine (blind_modify fun _ => modifyDir_withTree hne _ _).bind fun _ _ _ => ?_
    exact blind_openDescriptor _
  | some e =>
    refine blind_unless fun _ => ?_
    cases e with
    | dir d => exact blind_unless fun _ => blind_openDescriptor _
    | file bytes =>
      refine blind_unless fun _ => ?_
      cases flags.truncate with
      | false => exact blind_openDescriptor _
      | true =>
        refine blind_get_bind fun tree => ?_
        have hbudget : (h.withTree j tree).fileBudget = h.fileBudget := rfl
        rw [hbudget]
        cases resizeWithin bytes 0 h.fileBudget with
        | error e => rfl
        | ok p =>
          have hcut : (h.withTree j tree).refile _ segments p.1 p.2 =
              (h.refile _ segments p.1 p.2).withTree j tree := refile_withTree hne segments p.1 p.2
          exact (congrArg (openDescriptor _) hcut).trans (blind_openDescriptor _ tree)

theorem blind_pathCreateDirectory (hfree : h.mountOf? fd ≠ some j) (path : String) :
    Blind j h (pathCreateDirectory fd path) := by
  refine blind_read_bind (fun _ => rfl) fun (i, segments) hp => ?_
  have hne := ne_of_resolve hfree hp
  refine blind_read_bind (fun _ => parentOf_withTree hne segments _) fun _ _ => ?_
  exact blind_unless fun _ => blind_modify fun _ => modifyDir_withTree hne _ _

theorem pathFilestat_withTree (hfree : h.mountOf? fd ≠ some j) (path : String)
    (tree : Directory) : (h.withTree j tree).pathFilestat fd path = h.pathFilestat fd path := by
  have hsame : (h.withTree j tree).resolve fd path = h.resolve fd path := rfl
  unfold pathFilestat
  rw [hsame]
  cases hp : h.resolve fd path with
  | error e => rfl
  | ok p => exact statOf_withTree (ne_of_resolve hfree hp) p.2

theorem pathTouch_withTree (hfree : h.mountOf? fd ≠ some j) (path : String) (tree : Directory) :
    (h.withTree j tree).pathTouch fd path = h.pathTouch fd path := by
  unfold pathTouch
  rw [pathFilestat_withTree hfree]

theorem pathReadlink_withTree (hfree : h.mountOf? fd ≠ some j) (path : String)
    (tree : Directory) : (h.withTree j tree).pathReadlink fd path = h.pathReadlink fd path := by
  have hsame : (h.withTree j tree).resolve fd path = h.resolve fd path := rfl
  unfold pathReadlink
  rw [hsame]
  cases hp : h.resolve fd path with
  | error e => rfl
  | ok p => simp only [bind, Except.bind, node_withTree (ne_of_resolve hfree hp)]

theorem blind_pathUnlinkFile (hfree : h.mountOf? fd ≠ some j) (path : String) :
    Blind j h (pathUnlinkFile fd path) := by
  refine blind_read_bind (fun _ => rfl) fun (i, segments) hp => ?_
  have hne := ne_of_resolve hfree hp
  refine blind_read_bind (fun _ => node_withTree hne segments) fun e _ => ?_
  cases e with
  | dir d => exact blind_throw _
  | file bytes => exact (blind_detach hne segments).bind fun _ _ _ => blind_pure _

theorem blind_pathRemoveDirectory (hfree : h.mountOf? fd ≠ some j) (path : String) :
    Blind j h (pathRemoveDirectory fd path) := by
  refine blind_read_bind (fun _ => rfl) fun (i, segments) hp => ?_
  have hne := ne_of_resolve hfree hp
  refine blind_unless fun _ => ?_
  refine blind_read_bind (fun _ => node_withTree hne segments) fun e _ => ?_
  cases e with
  | file bytes => exact blind_throw _
  | dir d =>
    exact blind_unless fun _ => (blind_detach hne segments).bind fun _ _ _ => blind_pure _

theorem blind_pathRename {newFd : Fd} (hfree : h.mountOf? fd ≠ some j)
    (hfree' : h.mountOf? newFd ≠ some j) (source target : String) :
    Blind j h (pathRename fd source newFd target) := by
  refine blind_read_bind (fun _ => rfl) fun (i, src) hs => ?_
  refine blind_read_bind (fun _ => rfl) fun (k, dst) ht => ?_
  have hsrc := ne_of_resolve hfree hs
  have hdst := ne_of_resolve hfree' ht
  refine blind_unless fun _ => ?_
  split
  · exact blind_read_bind (fun _ => node_withTree hsrc src) fun _ _ => blind_pure _
  · refine blind_unless fun _ => ?_
    refine blind_read_bind (fun _ => node_withTree hsrc src) fun e _ => ?_
    refine blind_read_bind (fun _ => checkReplace_withTree hdst e dst) fun _ _ => ?_
    refine blind_read_bind (fun _ => parentOf_withTree hdst dst _) fun _ _ => ?_
    refine (blind_detach hsrc src).bind fun _ _ _ => ?_
    refine blind_read_bind (fun _ => parentOf_withTree hdst dst _) fun _ _ => ?_
    exact blind_modify fun _ => modifyDir_withTree hdst _ _

theorem blind_fdSetAppend (fd : Fd) (append : Bool) : Blind j h (fdSetAppend fd append) := by
  refine blind_read_bind (fun _ => rfl) fun d _ => ?_
  cases d with
  | file => exact blind_modify fun _ => rfl
  | stdin | output | dir => exact blind_pure _

theorem randomBytes_withTree (h : Host) (j : Nat) (tree : Directory) (n : Nat) :
    (h.withTree j tree).randomBytes n =
      ((h.randomBytes n).1, (h.randomBytes n).2.withTree j tree) := by
  induction n generalizing h with
  | zero => rfl
  | succ n ih =>
    have hnext := ih { h with entropy := nextEntropy h.entropy }
    unfold randomBytes
    exact congrArg (fun p => ((nextEntropy h.entropy >>> 32).toUInt8 :: p.1, p.2)) hnext

theorem poll_withTree (h : Host) (j : Nat) (tree : Directory) (subscriptions : List Subscription) :
    (h.withTree j tree).poll subscriptions =
      ((h.poll subscriptions).1, (h.poll subscriptions).2.withTree j tree) := by
  have hready : (h.withTree j tree).readyEvent? = h.readyEvent? := rfl
  have hdelay : (h.withTree j tree).delay? = h.delay? := rfl
  have hdeadline : (h.withTree j tree).deadline = h.deadline := rfl
  have helapsed : (h.withTree j tree).elapsed = h.elapsed := rfl
  unfold poll
  rw [hready, hdelay, hdeadline, helapsed]
  cases subscriptions.filterMap h.readyEvent? with
  | cons => rfl
  | nil =>
    cases (subscriptions.filterMap h.delay?).min? with
    | none => rfl
    | some wait =>
      cases h.deadline with
      | none => rfl
      | some deadline =>
        dsimp only
        split <;> rfl

theorem blind_perform {c : Call} (hfree : ∀ fd ∈ c.fds, h.mountOf? fd ≠ some j) :
    Blind j h (perform c) := by
  have hfirst {fd : Fd} {fds : List Fd} (hfds : c.fds = fd :: fds) : h.mountOf? fd ≠ some j :=
    hfree fd (hfds ▸ List.mem_cons_self)
  cases c
  case fdFdstat | fdCheck | clockTime | clockResolution =>
    exact (blind_read fun _ => rfl).map _
  case random => exact (blind_modifyGet fun _ => randomBytes_withTree ..).map _
  case poll => exact (blind_modifyGet fun _ => poll_withTree ..).map _
  case fdClose => exact (blind_read_bind (fun _ => rfl) fun _ _ => blind_modify fun _ => rfl).map _
  case fdRenumber =>
    refine Blind.map (blind_read_bind (fun _ => rfl) fun _ _ => ?_) _
    exact blind_read_bind (fun _ => rfl) fun _ _ => blind_modify fun _ => rfl
  case fdSetAppend => exact (blind_fdSetAppend _ _).map _
  case fdWrite => exact (blind_fdWrite (hfirst rfl) _).map _
  case fdPwrite => exact (blind_fdPwrite (hfirst rfl) _ _).map _
  case fdRead => exact (blind_fdRead (hfirst rfl) _).map _
  case fdPread => exact (blind_read (fdPread_withTree (hfirst rfl) _ _)).map _
  case fdSeek => exact (blind_fdSeek (hfirst rfl) _ _).map _
  case fdFilestat => exact (blind_read (fdFilestat_withTree (hfirst rfl))).map _
  case fdSetSize => exact (blind_fdSetSize (hfirst rfl) _).map _
  case fdPrestatName => exact (blind_read (fdPrestatName_withTree (hfirst rfl))).map _
  case fdReaddir => exact (blind_read (fdReaddir_withTree (hfirst rfl) _ _)).map _
  case pathOpen => exact (blind_pathOpen (hfirst rfl) _ _ _).map _
  case pathCreateDirectory => exact (blind_pathCreateDirectory (hfirst rfl) _).map _
  case pathFilestat => exact (blind_read (pathFilestat_withTree (hfirst rfl) _)).map _
  case pathTouch => exact (blind_read (pathTouch_withTree (hfirst rfl) _)).map _
  case pathUnlinkFile => exact (blind_pathUnlinkFile (hfirst rfl) _).map _
  case pathRemoveDirectory => exact (blind_pathRemoveDirectory (hfirst rfl) _).map _
  case pathReadlink => exact (blind_read (pathReadlink_withTree (hfirst rfl) _)).map _
  case pathRename fd source newFd target =>
    have hsecond := hfree newFd (List.mem_cons_of_mem _ List.mem_cons_self)
    exact (blind_pathRename (hfirst rfl) hsecond _ _).map _

theorem step_withTree {c : Call} (hfree : ∀ fd ∈ c.fds, h.mountOf? fd ≠ some j)
    (tree : Directory) :
    (h.withTree j tree).step c = ((h.step c).1, (h.step c).2.withTree j tree) := by
  unfold step
  rw [blind_perform hfree tree]
  cases perform c h <;> rfl

end Calls

section Runs

def answers (h : Host) : List Call → List (Except Refusal Reply)
  | [] => []
  | c :: calls => (h.step c).1 :: (h.step c).2.answers calls

/-- Holds when no descriptor that a call names stands, at that time, for something in mount `j`. -/
def Spares (j : Nat) (h : Host) : List Call → Prop
  | [] => True
  | c :: calls => (∀ fd ∈ c.fds, h.mountOf? fd ≠ some j) ∧ (h.step c).2.Spares j calls

instance decidableSpares (j : Nat) (h : Host) : (calls : List Call) → Decidable (h.Spares j calls)
  | [] => isTrue trivial
  | c :: calls =>
    -- Descriptors are words: an instance that goes through all of them must not be found here.
    @instDecidableAnd _ _ (List.decidableBAll _ c.fds) (decidableSpares j (h.step c).2 calls)

variable {h : Host} {j : Nat} {calls : List Call}

theorem run_withTree (hspares : h.Spares j calls) (tree : Directory) :
    (h.withTree j tree).answers calls = h.answers calls ∧
      (h.withTree j tree).runCalls calls = (h.runCalls calls).withTree j tree := by
  induction calls generalizing h with
  | nil => exact ⟨rfl, rfl⟩
  | cons c calls ih =>
    have hstep := step_withTree hspares.1 tree
    obtain ⟨hanswers, hruns⟩ := ih hspares.2
    refine ⟨?_, ?_⟩
    · rw [answers, answers, hstep, hanswers]
    · have hcons (g : Host) : g.runCalls (c :: calls) = (g.step c).2.runCalls calls := rfl
      rw [hcons, hcons, hstep, hruns]

theorem mount_runCalls (hspares : h.Spares j calls) :
    (h.runCalls calls).mounts[j]? = h.mounts[j]? := by
  induction calls generalizing h with
  | nil => rfl
  | cons c calls ih => exact (ih hspares.2).trans (step_frame hspares.1)

theorem fresh_withTree (args env : List String) (mounts : MountTable) (stdout stderr : Redirect)
    (budget : UInt64) (deadline : Deadline) (j : Nat) (tree : Directory) :
    fresh args env (mounts.modifyAt (fun _ => tree) j) stdout stderr budget deadline =
      (fresh args env mounts stdout stderr budget deadline).withTree j tree := by
  have hlength : (mounts.modifyAt (fun _ => tree) j).length = mounts.length := by
    have hnames := congrArg List.length (MountTable.names_modifyAt (fun _ => tree) j mounts)
    rwa [List.length_map, List.length_map] at hnames
  unfold fresh new
  rw [hlength]
  rfl

/-- Two hosts that start alike but for the tree behind one mount. Calls none of whose descriptors
lead there answer the same to both, deliver the same, and leave the hosts alike but for that tree,
which each has as it was. Clocks and chance are part of a host, so they are alike as well. -/
theorem runCalls_fresh_blind (args env : List String) (mounts other : MountTable)
    (stdout stderr : Redirect) (budget : UInt64) (deadline : Deadline) (calls : List Call) (j : Nat)
    (hnames : other.map (·.name) = mounts.map (·.name))
    (hother : ∀ i, i ≠ j → other[i]? = mounts[i]?)
    (hspares : (fresh args env mounts stdout stderr budget deadline).Spares j calls) :
    let h := fresh args env mounts stdout stderr budget deadline
    let g := fresh args env other stdout stderr budget deadline
    g.answers calls = h.answers calls ∧
    g.runCalls calls = { h.runCalls calls with mounts := (g.runCalls calls).mounts } ∧
    (g.runCalls calls).finish =
      { (h.runCalls calls).finish with mounts := (g.runCalls calls).mounts } ∧
    (∀ i, i ≠ j → (g.runCalls calls).mounts[i]? = (h.runCalls calls).mounts[i]?) ∧
    (h.runCalls calls).mounts[j]? = mounts[j]? ∧ (g.runCalls calls).mounts[j]? = other[j]? := by
  intro h g
  obtain ⟨tree, rfl⟩ := MountTable.exists_eq_modifyAt hnames hother
  have hg : g = h.withTree j tree := fresh_withTree ..
  obtain ⟨hanswers, hruns⟩ := run_withTree hspares tree
  have hmount : (h.runCalls calls).mounts[j]? = mounts[j]? := mount_runCalls hspares
  rw [hg, hruns]
  refine ⟨hanswers, rfl, rfl, fun i hi => getElem?_withTree hi, hmount, ?_⟩
  have hself (t : MountTable) : (t.modifyAt (fun _ => tree) j)[j]? =
      t[j]?.map fun m => { m with root := tree } := by
    rw [MountTable.getElem?_modifyAt, if_pos rfl]
  rw [hself, ← hmount]
  exact hself _

theorem blind_to_middle_mount :
    let mounts (hidden : Directory) : MountTable :=
      [⟨".", .file "a" [1] .empty⟩, ⟨"hidden", hidden⟩, ⟨"out", .empty⟩]
    let calls : List Call := [.pathRename 3 "a" 5 "b", .pathOpen 5 "b" {} true, .fdWrite 6 [2, 3],
      .fdRenumber 6 1, .fdReaddir 5 0 100, .fdWrite 1 [4], .pathOpen 3 "../x" {} false]
    let h := fresh [] [] (mounts .empty) .capture .discard 2 none
    let g := fresh [] [] (mounts (.dir "d" (.file "f" [9] .empty) .empty)) .capture .discard 2 none
    h.Spares 1 calls ∧ g.answers calls = h.answers calls ∧
      (g.runCalls calls).mounts[2]? = (h.runCalls calls).mounts[2]? := by
  intro mounts calls h g
  have hspares : h.Spares 1 calls := by decide +kernel
  have hother : ∀ i, i ≠ 1 →
      (mounts (.dir "d" (.file "f" [9] .empty) .empty))[i]? = (mounts .empty)[i]? := by
    intro i hi
    match i with
    | 0 | i + 2 => rfl
    | 1 => exact absurd rfl hi
  obtain ⟨hanswers, -, -, hmounts, -⟩ := runCalls_fresh_blind [] [] (mounts .empty)
    (mounts (.dir "d" (.file "f" [9] .empty) .empty)) .capture .discard 2 none calls 1 rfl hother
    hspares
  exact ⟨hspares, hanswers, hmounts 2 (by decide)⟩

end Runs

end Host

end Buildbox
