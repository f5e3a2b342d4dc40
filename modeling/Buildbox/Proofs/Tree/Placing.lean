import Buildbox.Proofs.Tree.Order

/-! Trees as wholes: what stands at each path of a tree, and an entry put at a path. The ways of
building trees by path are such puts, where nothing forbids them; and a tree in order is known by
what stands at its paths. -/

namespace Buildbox

namespace Entry

def at? : Entry → List String → Option Entry
  | e, [] => some e
  | .file _, _ :: _ => none
  | .dir d, n :: ps => (d.get? n).bind (·.at? ps)

def asDir : Entry → Directory
  | .file _ => .empty
  | .dir d => d

/-- Puts an entry at a path, below directories. Whatever else is in the way is replaced. -/
def put (e : Entry) : Entry → List String → Entry
  | _, [] => e
  | x, n :: ps => .dir (x.asDir.insert n (put e ((x.asDir.get? n).getD (.dir .empty)) ps))

variable {e x : Entry} {d : Directory} {n : String} {p q r : List String}

theorem at?_cons (x : Entry) (n : String) (q : List String) :
    x.at? (n :: q) = (x.asDir.get? n).bind (·.at? q) := by
  cases x <;> rfl

theorem at?_append (x : Entry) (p q : List String) :
    x.at? (p ++ q) = (x.at? p).bind (·.at? q) := by
  induction p generalizing x with
  | nil => cases x <;> rfl
  | cons n p ih =>
    rw [List.cons_append, at?_cons, at?_cons, Option.bind_assoc]
    exact congrArg _ (funext fun y => ih y)

theorem at?_empty (h : q ≠ []) : (Entry.dir .empty).at? q = none := by
  cases q with
  | nil => exact absurd rfl h
  | cons n q => rfl

theorem at?_getD (o : Option Entry) (h : q ≠ []) :
    (o.getD (.dir .empty)).at? q = o.bind (·.at? q) := by
  cases o with
  | none => exact at?_empty h
  | some y => rfl

theorem getD_at?_getD (o : Option Entry) (q : List String) :
    ((o.getD (.dir .empty)).at? q).getD (.dir .empty) =
      (o.bind (·.at? q)).getD (.dir .empty) := by
  by_cases hq : q = []
  · subst hq
    cases o <;> rfl
  · rw [at?_getD o hq]

theorem put_cons (e x : Entry) (n : String) (p : List String) :
    put e x (n :: p) =
      .dir (x.asDir.insert n (put e ((x.asDir.get? n).getD (.dir .empty)) p)) := rfl

theorem put_append (e x : Entry) (p q : List String) :
    put e x (p ++ q) = put (put e ((x.at? p).getD (.dir .empty)) q) x p := by
  induction p generalizing x with
  | nil => cases x <;> rfl
  | cons n p ih =>
    rw [List.cons_append, put_cons, put_cons, ih, at?_cons, getD_at?_getD]

section Found

theorem at?_put_append (e x : Entry) (p r : List String) : (put e x p).at? (p ++ r) = e.at? r := by
  induction p generalizing x with
  | nil => rfl
  | cons n p ih =>
    rw [put_cons, List.cons_append, at?_cons, asDir, Directory.get?_insert, if_pos rfl]
    exact ih _

theorem at?_put_self (e x : Entry) (p : List String) : (put e x p).at? p = some e := by
  have hself := at?_put_append e x p []
  rw [List.append_nil] at hself
  rw [hself]
  cases e <;> rfl

theorem at?_put_above (e x : Entry) (h : q <+: p) (hne : q ≠ p) :
    ∃ sub, (put e x p).at? q = some (.dir sub) := by
  induction p generalizing x q with
  | nil => exact absurd (List.prefix_nil.mp h) hne
  | cons n p ih =>
    rcases List.prefix_cons_iff.mp h with rfl | ⟨q, rfl, hq⟩
    · exact ⟨_, rfl⟩
    · have hqp : q ≠ p := fun heq => hne (heq ▸ rfl)
      rw [put_cons, at?_cons, asDir, Directory.get?_insert, if_pos rfl]
      exact ih _ hq hqp

theorem at?_put_apart (e x : Entry) (hbelow : ¬ p <+: q) (habove : ¬ q <+: p) :
    (put e x p).at? q = x.at? q := by
  induction p generalizing x q with
  | nil => exact absurd List.nil_prefix hbelow
  | cons n p ih =>
    cases q with
    | nil => exact absurd List.nil_prefix habove
    | cons m q =>
      rw [put_cons, at?_cons, at?_cons, asDir, Directory.get?_insert]
      by_cases hnm : n = m
      · subst hnm
        have hbelow : ¬ p <+: q := fun hpq => hbelow ((List.prefix_cons_inj n).mpr hpq)
        have habove : ¬ q <+: p := fun hqp => habove ((List.prefix_cons_inj n).mpr hqp)
        have hq : q ≠ [] := fun hq => habove (hq ▸ List.nil_prefix)
        rw [if_pos rfl, Option.bind_some, ih _ hbelow habove, at?_getD _ hq]
      · rw [if_neg hnm]

theorem at?_put_cases (e x : Entry) (p q : List String) :
    (∃ r, q = p ++ r ∧ (put e x p).at? q = e.at? r) ∨
      (q <+: p ∧ q ≠ p ∧ ∃ sub, (put e x p).at? q = some (.dir sub)) ∨
      (¬ p <+: q ∧ ¬ q <+: p ∧ (put e x p).at? q = x.at? q) := by
  by_cases hbelow : p <+: q
  · obtain ⟨r, rfl⟩ := hbelow
    exact .inl ⟨r, rfl, at?_put_append e x p r⟩
  by_cases habove : q <+: p
  · have hne : q ≠ p := fun heq => hbelow (heq ▸ List.prefix_rfl)
    exact .inr (.inl ⟨habove, hne, at?_put_above e x habove hne⟩)
  · exact .inr (.inr ⟨hbelow, habove, at?_put_apart e x hbelow habove⟩)

theorem at?_put_file_eq_file {bytes b : Bytes} :
    (put (.file bytes) x p).at? q = some (.file b) ↔
      q = p ∧ b = bytes ∨ (¬ p <+: q ∧ ¬ q <+: p) ∧ x.at? q = some (.file b) := by
  rcases at?_put_cases (.file bytes) x p q with
    ⟨r, rfl, hat⟩ | ⟨habove, hne, sub, hat⟩ | ⟨hbelow, habove, hat⟩
  · rw [hat]
    cases r with
    | nil => simp [at?, eq_comm]
    | cons n r => simp [at?]
  · rw [hat]
    simp [habove, hne]
  · have hne : q ≠ p := fun heq => habove (heq ▸ List.prefix_rfl)
    rw [hat]
    simp [hbelow, habove, hne]

theorem at?_put_file_eq_dir {bytes : Bytes} :
    (∃ sub, (put (.file bytes) x p).at? q = some (.dir sub)) ↔
      q <+: p ∧ q ≠ p ∨ (¬ p <+: q ∧ ¬ q <+: p) ∧ ∃ sub, x.at? q = some (.dir sub) := by
  rcases at?_put_cases (.file bytes) x p q with
    ⟨r, rfl, hat⟩ | ⟨habove, hne, sub, hat⟩ | ⟨hbelow, habove, hat⟩
  · rw [hat]
    cases r with
    | nil => simp [at?]
    | cons n r =>
      have hlong : ¬ p ++ n :: r <+: p := fun hpre => by
        have hlen := hpre.length_le
        rw [List.length_append, List.length_cons] at hlen
        omega
      simp [at?, hlong]
  · exact iff_of_true ⟨sub, hat⟩ (.inl ⟨habove, hne⟩)
  · rw [hat]
    simp [hbelow, habove]

end Found

theorem sorted_asDir (h : x.Sorted) : x.asDir.Sorted := by
  cases x with
  | file bytes => trivial
  | dir d => exact h

theorem sorted_at? (hx : x.Sorted) (h : x.at? p = some e) : e.Sorted := by
  induction p generalizing x with
  | nil =>
    have heq : some x = some e := by
      rw [← h]
      cases x <;> rfl
    exact Option.some.inj heq ▸ hx
  | cons n p ih =>
    rw [at?_cons] at h
    obtain ⟨y, hy, he⟩ := Option.bind_eq_some_iff.mp h
    exact ih (Directory.sorted_of_get? (sorted_asDir hx) hy) he

theorem sorted_put (hx : x.Sorted) (he : e.Sorted) (p : List String) : (put e x p).Sorted := by
  induction p generalizing x with
  | nil => exact he
  | cons n p ih =>
    have hdir : x.asDir.Sorted := sorted_asDir hx
    refine Directory.sorted_insert hdir (ih ?_)
    cases hn : x.asDir.get? n with
    | none => trivial
    | some y => exact Directory.sorted_of_get? hdir hn

def Blocks (x : Entry) (p : List String) : Prop :=
  ∃ q bytes, q <+: p ∧ x.at? q = some (.file bytes)

theorem blocks_nil : (Entry.dir d).Blocks [] ↔ False := by
  refine iff_false_intro ?_
  rintro ⟨q, bytes, hq, hfile⟩
  rw [List.prefix_nil.mp hq] at hfile
  cases hfile

theorem blocks_cons :
    (Entry.dir d).Blocks (n :: p) ↔ ∃ y, d.get? n = some y ∧ y.Blocks p := by
  constructor
  · rintro ⟨q, bytes, hq, hfile⟩
    rcases List.prefix_cons_iff.mp hq with rfl | ⟨q, rfl, hqp⟩
    · cases hfile
    · obtain ⟨y, hy, hfile⟩ := Option.bind_eq_some_iff.mp hfile
      exact ⟨y, hy, q, bytes, hqp, hfile⟩
  · rintro ⟨y, hy, q, bytes, hqp, hfile⟩
    refine ⟨n :: q, bytes, (List.prefix_cons_inj n).mpr hqp, ?_⟩
    rw [at?_cons, asDir, hy]
    exact hfile

theorem blocks_file (bytes : Bytes) (p : List String) : (Entry.file bytes).Blocks p :=
  ⟨[], bytes, List.nil_prefix, rfl⟩

theorem not_blocks_empty (p : List String) : ¬ (Entry.dir .empty).Blocks p := by
  rintro ⟨q, bytes, -, hfile⟩
  cases q <;> cases hfile

end Entry

namespace Directory

open Entry (at? put asDir Blocks)

variable {α : Type} {d : Directory} {bytes : Bytes} {path : String} {p : List String}

def dirAt (d : Directory) (p : List String) : Directory :=
  (((Entry.dir d).at? p).getD (.dir .empty)).asDir

theorem dirAt_of_dir {sub : Directory} (h : (Entry.dir d).at? p = some (.dir sub)) :
    d.dirAt p = sub := by
  rw [dirAt, h]
  rfl

theorem dirAt_of_none (h : (Entry.dir d).at? p = none) : d.dirAt p = .empty := by
  rw [dirAt, h]
  rfl

theorem dirAt?_eq_at? (d : Directory) (p : List String) :
    d.dirAt? p = ((Entry.dir d).at? p).bind Entry.asDir? := by
  induction p generalizing d with
  | nil => rfl
  | cons n p ih =>
    rw [dirAt?_cons, Entry.at?_cons, asDir]
    cases d.get? n with
    | none => rfl
    | some e =>
      cases e with
      | file bytes => cases p <;> rfl
      | dir sub => exact ih sub

theorem dirAt?_eq_some {sub : Directory} :
    d.dirAt? p = some sub ↔ (Entry.dir d).at? p = some (.dir sub) := by
  rw [dirAt?_eq_at?]
  cases (Entry.dir d).at? p with
  | none => simp
  | some e => cases e <;> simp [Entry.asDir?]

theorem dirAt_eq (d : Directory) (p : List String) : d.dirAt p = (d.dirAt? p).getD .empty := by
  rw [dirAt, dirAt?_eq_at?]
  cases (Entry.dir d).at? p with
  | none => rfl
  | some e => cases e <;> rfl

theorem at?_dirAt {q : List String} (d : Directory) (p : List String) (hq : q ≠ []) :
    (Entry.dir (d.dirAt p)).at? q = (Entry.dir d).at? (p ++ q) := by
  rw [Entry.at?_append]
  cases hp : (Entry.dir d).at? p with
  | none => rw [dirAt_of_none hp, Entry.at?_empty hq, Option.bind_none]
  | some e =>
    cases e with
    | file bytes =>
      obtain ⟨n, q, rfl⟩ := List.exists_cons_of_ne_nil hq
      rw [dirAt, hp]
      rfl
    | dir sub => rw [dirAt_of_dir hp, Option.bind_some]

theorem lookup_eq_at? (d : Directory) (h : p ≠ []) : d.lookup p = (Entry.dir d).at? p := by
  induction p generalizing d with
  | nil => exact absurd rfl h
  | cons n p ih =>
    cases p with
    | nil =>
      change d.get? n = (d.get? n).bind fun e => e.at? []
      cases d.get? n with
      | none => rfl
      | some e => cases e <;> rfl
    | cons m p =>
      rw [lookup_cons_cons, Entry.at?_cons, asDir]
      cases d.get? n with
      | none => rfl
      | some e =>
        cases e with
        | file bytes => rfl
        | dir sub => exact ih sub (List.cons_ne_nil m p)

theorem lookup_eq_file : d.lookup p = some (.file bytes) ↔
    (Entry.dir d).at? p = some (.file bytes) := by
  by_cases hp : p = []
  · subst hp
    exact iff_of_false nofun nofun
  · rw [lookup_eq_at? d hp]

theorem read?_eq_some : d.read? path = some bytes ↔
    d.lookup (Path.segments path) = some (.file bytes) := by
  unfold read?
  rcases d.lookup (Path.segments path) with _ | ⟨b⟩ | sub <;> simp [Entry.asFile?]

theorem overlayAt_eq_put (d : Directory) (bytes : Bytes) (h : p ≠ []) :
    Entry.dir (d.overlayAt bytes p) = put (.file bytes) (.dir d) p := by
  induction p generalizing d with
  | nil => exact absurd rfl h
  | cons n p ih =>
    cases p with
    | nil => rfl
    | cons m p =>
      have ih (d : Directory) := ih d (List.cons_ne_nil m p)
      rw [Entry.put_cons, overlayAt, asDir]
      · cases hn : d.get? n with
        | none => exact congrArg (fun e => Entry.dir (d.insert n e)) (ih .empty)
        | some e =>
          cases e with
          | file old => exact congrArg (fun e => Entry.dir (d.insert n e)) (ih .empty)
          | dir sub => exact congrArg (fun e => Entry.dir (d.insert n e)) (ih sub)
      · exact List.cons_ne_nil m p

theorem sorted_overlayFile (hd : d.Sorted) (path : String) (bytes : Bytes) :
    (d.overlayFile path bytes).Sorted := by
  by_cases hp : Path.segments path = []
  · rwa [overlayFile, hp]
  · have hput := Entry.sorted_put (x := .dir d) (e := .file bytes) hd trivial (Path.segments path)
    rwa [← overlayAt_eq_put d bytes hp] at hput

section Within

variable (path : String) (act : Directory → Except PathConflict α × Directory)

theorem within_of_free (h : ¬ (Entry.dir d).Blocks p) :
    (within path act d p).1 = (act (d.dirAt p)).1 ∧
      Entry.dir (within path act d p).2 = put (.dir (act (d.dirAt p)).2) (.dir d) p := by
  induction p generalizing d with
  | nil => exact ⟨rfl, rfl⟩
  | cons n p ih =>
    rw [Entry.blocks_cons] at h
    rw [dirAt, Entry.at?_cons, Entry.put_cons, asDir, within]
    cases hn : d.get? n with
    | none =>
      obtain ⟨hfirst, hsecond⟩ := ih (Entry.not_blocks_empty p)
      have hlast : ((Entry.dir .empty).at? p).getD (.dir .empty) = .dir .empty :=
        Entry.getD_at?_getD none p
      rw [dirAt, hlast] at hfirst hsecond
      exact ⟨hfirst, congrArg (fun e => Entry.dir (d.insert n e)) hsecond⟩
    | some e =>
      cases e with
      | file old => exact absurd ⟨_, hn, Entry.blocks_file old p⟩ h
      | dir sub =>
        obtain ⟨hfirst, hsecond⟩ := ih fun hsub => h ⟨_, hn, hsub⟩
        exact ⟨hfirst, congrArg (fun e => Entry.dir (d.insert n e)) hsecond⟩

theorem within_of_blocks (h : (Entry.dir d).Blocks p) :
    ∃ n, (within path act d p).1 = .error (.fileInPath n path) := by
  induction p generalizing d with
  | nil => exact absurd h Entry.blocks_nil.mp
  | cons n p ih =>
    obtain ⟨y, hy, hblocks⟩ := Entry.blocks_cons.mp h
    rw [within, hy]
    cases y with
    | file old => exact ⟨n, rfl⟩
    | dir sub => exact ih hblocks

end Within

section Insertion

theorem insertFile_of_segments {ps : List String} {n : String}
    (hps : Path.segments path = ps ++ [n]) (d : Directory) (bytes : Bytes) :
    d.insertFile path bytes = within path (putFile n path bytes) d ps := by
  unfold insertFile
  simp only [hps, List.getLast?_concat, List.dropLast_concat]

theorem get?_dirAt (d : Directory) (ps : List String) (n : String) :
    (d.dirAt ps).get? n = (Entry.dir d).at? (ps ++ [n]) := by
  rw [← at?_dirAt d ps (List.cons_ne_nil n []), Entry.at?_cons, asDir]
  cases (d.dirAt ps).get? n with
  | none => rfl
  | some e => cases e <;> rfl

theorem insertFile_of_free (hp : Path.segments path ≠ [])
    (hfree : ¬ (Entry.dir d).Blocks (Path.segments path).dropLast)
    (hdir : ∀ sub, (Entry.dir d).at? (Path.segments path) ≠ some (.dir sub)) (bytes : Bytes) :
    (d.insertFile path bytes).1 = .ok () ∧
      Entry.dir (d.insertFile path bytes).2 =
        put (.file bytes) (.dir d) (Path.segments path) := by
  obtain ⟨ps, n, hps⟩ := (Path.segments path).eq_nil_or_concat.resolve_left hp
  rw [List.concat_eq_append] at hps
  rw [hps, List.dropLast_concat] at hfree
  rw [hps] at hdir
  obtain ⟨hfirst, hsecond⟩ := within_of_free path (putFile n path bytes) hfree
  have hput : putFile n path bytes (d.dirAt ps) =
      (.ok (), (d.dirAt ps).insert n (.file bytes)) := by
    unfold putFile
    split
    · next sub hsub =>
      rw [get?_dirAt] at hsub
      exact absurd hsub (hdir sub)
    · rfl
  rw [hput] at hfirst hsecond
  rw [insertFile_of_segments hps, hps]
  refine ⟨hfirst, hsecond.trans ?_⟩
  rw [Entry.put_append]
  rfl

theorem insertFile_of_clash (hp : Path.segments path ≠ [])
    (h : (Entry.dir d).Blocks (Path.segments path).dropLast ∨
      ∃ sub, (Entry.dir d).at? (Path.segments path) = some (.dir sub)) (bytes : Bytes) :
    ∃ c, (d.insertFile path bytes).1 = .error c := by
  obtain ⟨ps, n, hps⟩ := (Path.segments path).eq_nil_or_concat.resolve_left hp
  rw [List.concat_eq_append] at hps
  rw [hps, List.dropLast_concat] at h
  rw [insertFile_of_segments hps]
  by_cases hblocks : (Entry.dir d).Blocks ps
  · obtain ⟨m, hm⟩ := within_of_blocks path (putFile n path bytes) hblocks
    exact ⟨_, hm⟩
  · obtain ⟨sub, hsub⟩ := h.resolve_left hblocks
    obtain ⟨hfirst, -⟩ := within_of_free path (putFile n path bytes) hblocks
    rw [hfirst, putFile, get?_dirAt, hsub]
    exact ⟨_, rfl⟩

theorem ensureDir_of_free (h : ¬ (Entry.dir d).Blocks p) (path : String) :
    (d.ensureDir p path).1 = .ok (d.dirAt p) ∧
      Entry.dir (d.ensureDir p path).2 = put (.dir (d.dirAt p)) (.dir d) p :=
  within_of_free path (fun last => (.ok last, last)) h

theorem at?_put_dirAt {q : List String} (hq : ¬ q <+: p) :
    (put (.dir (d.dirAt p)) (.dir d) p).at? q = (Entry.dir d).at? q := by
  by_cases hbelow : p <+: q
  · obtain ⟨r, rfl⟩ := hbelow
    have hr : r ≠ [] := by
      rintro rfl
      rw [List.append_nil] at hq
      exact hq List.prefix_rfl
    rw [Entry.at?_put_append, at?_dirAt d p hr]
  · exact Entry.at?_put_apart _ _ hbelow hq

theorem at?_put_dirAt_eq_file {q : List String} (h : ¬ (Entry.dir d).Blocks p) :
    (put (.dir (d.dirAt p)) (.dir d) p).at? q = some (.file bytes) ↔
      (Entry.dir d).at? q = some (.file bytes) := by
  by_cases hq : q <+: p
  · refine iff_of_false (fun hfile => ?_) fun hfile => h ⟨q, bytes, hq, hfile⟩
    by_cases hself : q = p
    · rw [hself, Entry.at?_put_self] at hfile
      cases hfile
    · obtain ⟨sub, hsub⟩ := Entry.at?_put_above (.dir (d.dirAt p)) (.dir d) hq hself
      rw [hsub] at hfile
      cases hfile
  · rw [at?_put_dirAt hq]

theorem at?_put_dirAt_eq_dir {q : List String} :
    (∃ sub, (put (.dir (d.dirAt p)) (.dir d) p).at? q = some (.dir sub)) ↔
      q <+: p ∨ ∃ sub, (Entry.dir d).at? q = some (.dir sub) := by
  by_cases hq : q <+: p
  · refine iff_of_true ?_ (.inl hq)
    by_cases hself : q = p
    · exact ⟨d.dirAt p, by rw [hself, Entry.at?_put_self]⟩
    · exact Entry.at?_put_above _ _ hq hself
  · rw [at?_put_dirAt hq, or_iff_right hq]

theorem sorted_dirAt (hd : d.Sorted) (p : List String) : (d.dirAt p).Sorted := by
  unfold dirAt
  cases hp : (Entry.dir d).at? p with
  | none => trivial
  | some e => exact Entry.sorted_asDir (Entry.sorted_at? (x := .dir d) hd hp)

theorem ensureDir_of_blocks (h : (Entry.dir d).Blocks p) (path : String) :
    ∃ c, (d.ensureDir p path).1 = .error c := by
  obtain ⟨n, hn⟩ := within_of_blocks path (fun last => (.ok last, last)) h
  exact ⟨_, hn⟩

end Insertion

section Extensionality

/-- Over a whole tree: a directory may use what holds of the directories among its children. -/
@[elab_as_elim]
theorem treeInduction {P : Directory → Prop} (empty : P .empty)
    (cons : ∀ n e rest, (∀ sub, e = .dir sub → P sub) → P rest → P (cons n e rest))
    (d : Directory) : P d := by
  induction d with
  | empty => exact empty
  | file n bytes rest ih => exact cons n (.file bytes) rest nofun ih
  | dir n sub rest ihsub ih =>
    exact cons n (.dir sub) rest (fun s hs => by cases hs; exact ihsub) ih

variable {d' rest rest' : Directory} {e e' : Entry} {n m : String}

theorem head_eq_of_get? (hd : (cons n e rest).Sorted) (hd' : (cons m e' rest').Sorted)
    (h : ∀ k, ((cons n e rest).get? k).isSome = ((cons m e' rest').get? k).isSome) : n = m := by
  have hnot {n m : String} {e e' : Entry} {rest rest' : Directory}
      (hd : (cons m e' rest').Sorted)
      (h : ((cons n e rest).get? n).isSome = ((cons m e' rest').get? n).isSome) : ¬ n < m := by
    intro hlt
    have hnone : (cons m e' rest').get? n = none := by
      refine get?_eq_none_of_lt fun k hk => ?_
      rw [names_cons, List.mem_cons] at hk
      rcases hk with rfl | hk
      · exact hlt
      · exact String.lt_trans hlt ((sorted_cons.mp hd).1 k hk)
    rw [hnone, get?_cons, if_pos rfl] at h
    cases h
  exact String.le_antisymm (hnot hd (h m).symm) (hnot hd' (h n))

theorem at?_rest (hd : (cons n e rest).Sorted) (k : String) (q : List String) :
    (Entry.dir rest).at? (k :: q) =
      if n = k then none else (Entry.dir (cons n e rest)).at? (k :: q) := by
  rw [Entry.at?_cons, Entry.at?_cons, asDir, asDir, get?_cons]
  split
  · next heq =>
    subst heq
    rw [get?_eq_none_of_lt (sorted_cons.mp hd).1]
    rfl
  · rfl

theorem ext_of_at? (hd : d.Sorted) (hd' : d'.Sorted)
    (h : ∀ p, ((Entry.dir d).at? p).map Entry.asFile? =
      ((Entry.dir d').at? p).map Entry.asFile?) : d = d' := by
  have hnames {d d' : Directory} (h : ∀ p, ((Entry.dir d).at? p).map Entry.asFile? =
      ((Entry.dir d').at? p).map Entry.asFile?) (k : String) :
      ((d.get? k).map Entry.asFile?) = ((d'.get? k).map Entry.asFile?) := by
    have hk := h [k]
    rw [← lookup_eq_at? _ (List.cons_ne_nil k []), ← lookup_eq_at? _ (List.cons_ne_nil k [])] at hk
    exact hk
  -- By induction on the children of the one tree, in order, against those of the other.
  induction d using treeInduction generalizing d' with
  | empty =>
    cases d' using consInduction with
    | empty => rfl
    | cons m e' rest' =>
      have hm := hnames h m
      rw [get?_cons, if_pos rfl] at hm
      cases hm
  | cons n e rest ihsub ih =>
    cases d' using consInduction with
    | empty =>
      have hn := hnames h n
      rw [get?_cons, if_pos rfl] at hn
      cases hn
    | cons m e' rest' =>
      have hnm : n = m := by
        refine head_eq_of_get? hd hd' fun k => ?_
        have hk := congrArg Option.isSome (hnames h k)
        rwa [Option.isSome_map, Option.isSome_map] at hk
      subst hnm
      have hrest : rest = rest' := by
        refine ih (sorted_cons.mp hd).2.2 (sorted_cons.mp hd').2.2 fun p => ?_
        cases p with
        | nil => rfl
        | cons k q =>
          rw [at?_rest hd, at?_rest hd']
          split
          · rfl
          · exact h (k :: q)
      have hhead (q : List String) : (e.at? q).map Entry.asFile? = (e'.at? q).map Entry.asFile? := by
        have hq := h (n :: q)
        rwa [Entry.at?_cons, Entry.at?_cons, asDir, asDir, get?_cons, get?_cons, if_pos rfl,
          if_pos rfl] at hq
      have he : e = e' := by
        have hkind := hhead []
        cases e with
        | file bytes =>
          cases e' with
          | file bytes' =>
            cases hkind
            rfl
          | dir sub' => cases hkind
        | dir sub =>
          cases e' with
          | file bytes' => cases hkind
          | dir sub' =>
            exact congrArg Entry.dir (ihsub sub rfl (sorted_cons.mp hd).2.1
              (sorted_cons.mp hd').2.1 hhead)
      rw [hrest, he]

theorem ext_of_files_of_dirs (hd : d.Sorted) (hd' : d'.Sorted)
    (hfile : ∀ p b, d.lookup p = some (.file b) ↔ d'.lookup p = some (.file b))
    (hdir : ∀ p, p ≠ [] → ((∃ sub, (Entry.dir d).at? p = some (.dir sub)) ↔
      ∃ sub, (Entry.dir d').at? p = some (.dir sub))) : d = d' := by
  refine ext_of_at? hd hd' fun p => ?_
  by_cases hp : p = []
  · subst hp
    rfl
  have hsame b : (Entry.dir d).at? p = some (.file b) ↔ (Entry.dir d').at? p = some (.file b) := by
    rw [← lookup_eq_file, ← lookup_eq_file, hfile]
  rcases hx : (Entry.dir d).at? p with _ | ⟨b⟩ | sub
  · rcases hx' : (Entry.dir d').at? p with _ | ⟨b'⟩ | sub'
    · rfl
    · cases hx.symm.trans ((hsame b').mpr hx')
    · obtain ⟨sub, hsub⟩ := (hdir p hp).mpr ⟨sub', hx'⟩
      cases hx.symm.trans hsub
  · rw [(hsame b).mp hx]
  · obtain ⟨sub', hsub'⟩ := (hdir p hp).mp ⟨sub, hx⟩
    rw [hsub']
    rfl

end Extensionality

end Directory

namespace MountTable

variable {t t' : MountTable} {d tree : Directory} {name path : String}

theorem nest_eq_within {ps : List String} {leaf : String} (hget : t.get? name = some d)
    (hps : Path.segments path = ps ++ [leaf]) (tree : Directory) :
    let attach (d : Directory) : Except PathConflict Unit × Directory :=
      (.ok (), d.insert leaf (.dir tree))
    t.nest name path tree = match Directory.within path attach d ps with
      | (.ok (), root) => .ok (t.modify (fun _ => root) name)
      | (.error c, _) => .error (.conflict c) := by
  have hlast : (Path.segments path).getLast? = some leaf := by rw [hps, List.getLast?_concat]
  have habove : ps = (Path.segments path).dropLast := by rw [hps, List.dropLast_concat]
  unfold nest
  simp only [hget, hlast]
  subst habove
  rfl

theorem nest_of_free (hget : t.get? name = some d) (hp : Path.segments path ≠ [])
    (hfree : ¬ (Entry.dir d).Blocks (Path.segments path).dropLast) (tree : Directory) :
    t.nest name path tree = .ok (t.modify
      (fun _ => (Entry.put (.dir tree) (.dir d) (Path.segments path)).asDir) name) := by
  obtain ⟨ps, leaf, hps⟩ := (Path.segments path).eq_nil_or_concat.resolve_left hp
  rw [List.concat_eq_append] at hps
  rw [hps, List.dropLast_concat] at hfree
  let attach (d : Directory) : Except PathConflict Unit × Directory :=
    (.ok (), d.insert leaf (.dir tree))
  obtain ⟨hfirst, hsecond⟩ := Directory.within_of_free path attach hfree
  have hroot : Directory.within path attach d ps =
      (.ok (), (Entry.put (.dir tree) (.dir d) (ps ++ [leaf])).asDir) := by
    rw [Entry.put_append]
    exact Prod.ext hfirst (congrArg Entry.asDir hsecond)
  rw [nest_eq_within hget hps, hps, hroot]

theorem nest_of_clash (hget : t.get? name = some d) (h : Path.segments path = [] ∨
    (Entry.dir d).Blocks (Path.segments path).dropLast) (tree : Directory) :
    ∃ c, t.nest name path tree = .error (.conflict c) := by
  by_cases hp : Path.segments path = []
  · exact ⟨.emptyNestPath name, by simp [nest, hget, hp]⟩
  have hblocks := h.resolve_left hp
  obtain ⟨ps, leaf, hps⟩ := (Path.segments path).eq_nil_or_concat.resolve_left hp
  rw [List.concat_eq_append] at hps
  rw [hps, List.dropLast_concat] at hblocks
  let attach (d : Directory) : Except PathConflict Unit × Directory :=
    (.ok (), d.insert leaf (.dir tree))
  obtain ⟨n, hn⟩ := Directory.within_of_blocks path attach hblocks
  have hroot : Directory.within path attach d ps =
      (.error (.fileInPath n path), (Directory.within path attach d ps).2) := Prod.ext hn rfl
  exact ⟨.fileInPath n path, by rw [nest_eq_within hget hps, hroot]⟩

theorem nest_eq_ok : t.nest name path tree = .ok t' ↔
    ∃ d, t.get? name = some d ∧ Path.segments path ≠ [] ∧
      ¬ (Entry.dir d).Blocks (Path.segments path).dropLast ∧
        t' = t.modify
          (fun _ => (Entry.put (.dir tree) (.dir d) (Path.segments path)).asDir) name := by
  constructor
  · intro h
    cases hget : t.get? name with
    | none =>
      rw [nest, hget] at h
      cases h
    | some d =>
      by_cases hclash : Path.segments path = [] ∨
          (Entry.dir d).Blocks (Path.segments path).dropLast
      · obtain ⟨c, hc⟩ := nest_of_clash hget hclash tree
        cases hc.symm.trans h
      · obtain ⟨hp, hfree⟩ := not_or.mp hclash
        have hok := nest_of_free hget hp hfree tree
        exact ⟨d, rfl, hp, hfree, Except.ok.inj (h.symm.trans hok)⟩
  · rintro ⟨d, hget, hp, hfree, rfl⟩
    exact nest_of_free hget hp hfree tree

end MountTable

end Buildbox
