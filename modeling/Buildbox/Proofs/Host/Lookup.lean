import Buildbox.Proofs.Host.Inversion
import Buildbox.Proofs.Tree.Paths

/-! What a host finds behind its descriptors and at the paths of its mounts. -/

namespace Buildbox

namespace DescriptorTable

variable {t : DescriptorTable} {fd other : Fd} {d : Descriptor}

theorem get?_cons (n : Fd) (e : Descriptor) (t : DescriptorTable) (fd : Fd) :
    get? ((n, e) :: t) fd = if n = fd then some e else get? t fd := by
  unfold get?
  rw [List.find?_cons]
  by_cases h : n = fd <;> simp [h]

theorem get?_append (s t : DescriptorTable) (fd : Fd) :
    get? (s ++ t) fd = (s.get? fd).or (t.get? fd) := by
  simp only [get?, List.find?_append, Option.map_or]

theorem mem_of_get? (h : t.get? fd = some d) : (fd, d) ∈ t := by
  obtain ⟨⟨n, e⟩, hfind, he⟩ := Option.map_eq_some_iff.mp h
  have hn : n = fd := by simpa using List.find?_some hfind
  obtain rfl : e = d := he
  exact hn ▸ List.mem_of_find?_eq_some hfind

theorem mem_of_isSome_get? (h : (t.get? fd).isSome) : fd ∈ t.map (·.1) := by
  obtain ⟨d, hd⟩ := Option.isSome_iff_exists.mp h
  exact List.mem_map_of_mem (mem_of_get? hd)

theorem length_set_le (t : DescriptorTable) (fd : Fd) (d : Descriptor) :
    (t.set fd d).length ≤ t.length + 1 := by
  induction t with
  | nil => exact Nat.le_refl 1
  | cons head rest ih =>
    unfold set
    split
    · exact Nat.le_succ _
    · exact Nat.succ_le_succ ih

theorem get?_set (t : DescriptorTable) (fd other : Fd) (d : Descriptor) :
    (t.set fd d).get? other = if fd = other then some d else t.get? other := by
  induction t with
  | nil => simp only [set, get?_cons]
  | cons head rest ih =>
    obtain ⟨n, e⟩ := head
    simp only [set]
    split
    · next heq =>
      simp only [get?_cons, heq]
      split <;> rfl
    · next hne =>
      simp only [get?_cons, ih]
      split
      · next heq => rw [if_neg fun h => hne (heq.trans h.symm)]
      · rfl

theorem set_of_get? (h : t.get? fd = some d) : t.set fd d = t := by
  induction t with
  | nil => cases h
  | cons head rest ih =>
    obtain ⟨n, e⟩ := head
    rw [get?_cons] at h
    unfold set
    by_cases hn : n = fd
    · rw [if_pos hn] at h ⊢
      obtain rfl := Option.some.inj h
      rw [hn]
    · rw [if_neg hn] at h ⊢
      rw [ih h]

theorem set_set (t : DescriptorTable) (fd : Fd) (d e : Descriptor) :
    (t.set fd d).set fd e = t.set fd e := by
  induction t with
  | nil => simp [set]
  | cons head rest ih =>
    unfold set
    by_cases hn : head.1 = fd
    · simp [hn, set]
    · simp only [if_neg hn, set, ih]

theorem get?_erase (t : DescriptorTable) (fd other : Fd) :
    (t.erase fd).get? other = if fd = other then none else t.get? other := by
  induction t with
  | nil => simp [erase, get?]
  | cons head rest ih =>
    obtain ⟨n, e⟩ := head
    have hcons : erase ((n, e) :: rest) fd =
        if n = fd then erase rest fd else (n, e) :: erase rest fd := by
      by_cases h : n = fd <;> simp [erase, h]
    rw [hcons, get?_cons]
    split
    · next heq =>
      rw [ih, heq]
      split <;> rfl
    · next hne =>
      rw [get?_cons, ih]
      split
      · next heq => rw [if_neg fun h => hne (heq.trans h.symm)]
      · rfl

end DescriptorTable

namespace Host

variable {h : Host} {fd : Fd} {d : Directory} {e : Entry} {i j : Nat} {n : String}
  {path ps qs segments : List String} {bytes : Bytes}

def dirAt? (h : Host) (i : Nat) (path : List String) : Option Directory :=
  h.mounts[i]?.bind (·.root.dirAt? path)

/-- What stands at a path of a mount; the empty path is its root. -/
def nodeAt? (h : Host) (i : Nat) (path : List String) : Option Entry :=
  h.mounts[i]?.bind fun m => if path = [] then some (.dir m.root) else m.root.lookup path

section Found

theorem nodeAt?_nil (h : Host) (i : Nat) :
    h.nodeAt? i [] = h.mounts[i]?.map fun m => .dir m.root := by
  unfold nodeAt?
  cases h.mounts[i]? <;> rfl

theorem nodeAt?_append_singleton (h : Host) (i : Nat) (ps : List String) (n : String) :
    h.nodeAt? i (ps ++ [n]) = (h.dirAt? i ps).bind (·.get? n) := by
  unfold nodeAt? dirAt?
  cases h.mounts[i]? with
  | none => rfl
  | some m =>
    have hne : ps ++ [n] ≠ [] := by simp
    simp only [Option.bind_some, if_neg hne]
    exact Directory.lookup_append_singleton ..

theorem descriptor_eq_ok {d : Descriptor} : h.descriptor fd = .ok d ↔ h.fds.get? fd = some d := by
  unfold descriptor
  cases h.fds.get? fd <;> simp

theorem node_eq_ok : h.node i path = .ok e ↔ h.nodeAt? i path = some e := by
  unfold node root nodeAt?
  cases h.mounts[i]? with
  | none => simp [bind, Except.bind]
  | some m =>
    by_cases hp : path = []
    · simp [hp, bind, Except.bind, pure, Except.pure]
    · simp only [hp, bind, Except.bind, Option.bind_some, if_false]
      cases m.root.lookup path <;> simp [pure, Except.pure, throw, throwThe, MonadExceptOf.throw]

theorem fileBytes_eq_ok :
    h.fileBytes i path = .ok bytes ↔ h.nodeAt? i path = some (.file bytes) := by
  unfold fileBytes root nodeAt?
  cases h.mounts[i]? with
  | none => simp [bind, Except.bind]
  | some m =>
    by_cases hp : path = []
    · simp [hp, bind, Except.bind, Directory.lookup, throw, throwThe, MonadExceptOf.throw]
    · simp only [hp, bind, Except.bind, Option.bind_some, if_false]
      cases m.root.lookup path with
      | none => simp [throw, throwThe, MonadExceptOf.throw]
      | some e =>
        cases e <;> simp [pure, Except.pure, throw, throwThe, MonadExceptOf.throw]

theorem existing?_eq_ok_some :
    h.existing? i path = .ok (some e) ↔ h.nodeAt? i path = some e := by
  rw [← node_eq_ok]
  unfold existing?
  cases h.node i path with
  | ok e => simp
  | error c => cases c <;> simp

theorem existing?_eq_ok_none (hn : h.existing? i path = .ok none) :
    h.nodeAt? i path = none := by
  cases he : h.nodeAt? i path with
  | none => rfl
  | some e => rw [existing?_eq_ok_some.mpr he] at hn; cases hn

theorem existing?_of_none (hd : (h.dirAt? i ps).isSome) (hn : h.nodeAt? i path = none) :
    h.existing? i path = .ok none := by
  obtain ⟨q, hq⟩ := Option.isSome_iff_exists.mp hd
  obtain ⟨m, hm, -⟩ := Option.bind_eq_some_iff.mp hq
  rw [nodeAt?, hm, Option.bind_some] at hn
  split at hn
  · cases hn
  · next hpath =>
    have hnode : h.node i path = .error .noent := by
      rw [node, root, hm]
      simp only [bind, Except.bind, if_neg hpath, hn]
      rfl
    rw [existing?, hnode]

theorem parentOf_eq_ok {c : Errno} :
    h.parentOf i path c = .ok (ps, n, d) ↔ path = ps ++ [n] ∧ h.dirAt? i ps = some d := by
  unfold parentOf root dirAt?
  rcases path.eq_nil_or_concat with rfl | ⟨qs, m, rfl⟩
  · simp [throw, throwThe, MonadExceptOf.throw]
  · cases h.mounts[i]? with
    | none => simp [bind, Except.bind]
    | some m =>
      simp only [List.concat_eq_append, List.getLast?_append, List.getLast?_singleton,
        Option.some_or, List.dropLast_concat, bind, Except.bind, Option.bind_some]
      cases hd : m.root.dirAt? qs with
      | none =>
        simp only [throw, throwThe, MonadExceptOf.throw, reduceCtorEq, false_iff]
        rintro ⟨heq, hd'⟩
        obtain ⟨rfl, -⟩ := List.append_inj' heq rfl
        rw [hd] at hd'
        cases hd'
      | some s =>
        simp only [pure, Except.pure, Except.ok.injEq, Prod.mk.injEq]
        constructor
        · rintro ⟨rfl, rfl, rfl⟩
          exact ⟨rfl, hd⟩
        · rintro ⟨heq, hd'⟩
          obtain ⟨rfl, hn⟩ := List.append_inj' heq rfl
          cases hn
          rw [hd] at hd'
          cases hd'
          exact ⟨rfl, rfl, rfl⟩

theorem resolve_eq_ok {path : String} :
    h.resolve fd path = .ok (i, segments) ↔ ∃ base preopen,
      h.fds.get? fd = some (.dir i base preopen) ∧
        walk base (Path.parts path) = .ok segments := by
  unfold resolve descriptor
  generalize Path.parts path = parts
  cases h.fds.get? fd with
  | none => simp [bind, Except.bind]
  | some d =>
    cases d with
    | dir k base preopen =>
      simp only [bind, Except.bind, Option.some.injEq, Descriptor.dir.injEq]
      constructor
      · intro hok
        split at hok
        · cases hok
        · next s hw =>
          cases hok
          exact ⟨base, preopen, ⟨rfl, rfl, rfl⟩, hw⟩
      · rintro ⟨_, _, ⟨rfl, rfl, rfl⟩, hw⟩
        rw [hw]
        rfl
    | stdin | output | file =>
      simp [bind, Except.bind, throw, throwThe, MonadExceptOf.throw]

end Found

end Host

end Buildbox
