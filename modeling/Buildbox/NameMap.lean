/-! Finite maps from names, listed in name order. `get?_insert`, `get?_erase` and `ext` say all
there is to a map. -/

namespace Buildbox

universe u

structure NameMap (α : Type u) where
  entries : List (String × α)
  sorted : entries.Pairwise (fun a b => a.1 < b.1)

namespace NameMap

variable {α : Type u}

def find (name : String) : List (String × α) → Option α
  | [] => none
  | (n, a) :: rest => if n = name then some a else find name rest

def place (name : String) (a : α) : List (String × α) → List (String × α)
  | [] => [(name, a)]
  | (n, b) :: rest =>
    if name < n then (name, a) :: (n, b) :: rest
    else if name = n then (name, a) :: rest
    else (n, b) :: place name a rest

theorem mem_place {name : String} {a : α} {es : List (String × α)} {e : String × α}
    (h : e ∈ place name a es) : e = (name, a) ∨ e ∈ es := by
  induction es with
  | nil => simpa [place] using h
  | cons head rest ih =>
    obtain ⟨n, b⟩ := head
    simp only [place] at h
    split at h
    · simpa using h
    · split at h
      · rcases List.mem_cons.mp h with h | h
        · exact .inl h
        · exact .inr (List.mem_cons_of_mem _ h)
      · rcases List.mem_cons.mp h with h | h
        · exact .inr (h ▸ List.mem_cons_self)
        · exact (ih h).imp_right (List.mem_cons_of_mem _)

theorem sorted_place {name : String} {a : α} {es : List (String × α)}
    (h : es.Pairwise (fun a b => a.1 < b.1)) :
    (place name a es).Pairwise (fun a b => a.1 < b.1) := by
  induction es with
  | nil => simp [place]
  | cons head rest ih =>
    obtain ⟨n, b⟩ := head
    have hrest := (List.pairwise_cons.mp h).2
    have hhead := (List.pairwise_cons.mp h).1
    simp only [place]
    split
    · next hlt =>
      refine List.pairwise_cons.mpr ⟨fun e he => ?_, h⟩
      rcases List.mem_cons.mp he with he | he
      · exact he ▸ hlt
      · exact String.lt_trans hlt (hhead e he)
    · next hnlt =>
      split
      · next heq => exact List.pairwise_cons.mpr ⟨heq ▸ hhead, hrest⟩
      · next hne =>
        refine List.pairwise_cons.mpr ⟨fun e he => ?_, ih hrest⟩
        rcases mem_place he with he | he
        · have : n < name := Decidable.byContradiction fun hn =>
            hne (String.le_antisymm hn hnlt)
          exact he ▸ this
        · exact hhead e he

instance [DecidableEq α] : DecidableEq (NameMap α) := fun a b =>
  if h : a.entries = b.entries then
    isTrue (by cases a; cases b; cases h; rfl)
  else
    isFalse fun e => h (e ▸ rfl)

instance [Repr α] : Repr (NameMap α) := ⟨fun m n => reprPrec m.entries n⟩

def empty : NameMap α := ⟨[], .nil⟩

instance : Inhabited (NameMap α) := ⟨empty⟩

def get? (m : NameMap α) (name : String) : Option α :=
  find name m.entries

def contains (m : NameMap α) (name : String) : Bool :=
  (m.get? name).isSome

def insert (m : NameMap α) (name : String) (a : α) : NameMap α :=
  ⟨place name a m.entries, sorted_place m.sorted⟩

def erase (m : NameMap α) (name : String) : NameMap α :=
  ⟨m.entries.filter (·.1 ≠ name), m.sorted.filter _⟩

def insertAll (m : NameMap α) (pairs : List (String × α)) : NameMap α :=
  pairs.foldl (fun m p => m.insert p.1 p.2) m

def ofList (pairs : List (String × α)) : NameMap α :=
  empty.insertAll pairs

def names (m : NameMap α) : List String :=
  m.entries.map (·.1)

def size (m : NameMap α) : Nat :=
  m.entries.length

def isEmpty (m : NameMap α) : Bool :=
  m.entries.isEmpty

theorem find_place (name other : String) (a : α) (es : List (String × α)) :
    find other (place name a es) = if name = other then some a else find other es := by
  induction es with
  | nil => simp [place, find]
  | cons head rest ih =>
    obtain ⟨n, b⟩ := head
    simp only [place]
    split
    · simp [find]
    · split
      · next heq => by_cases h : name = other <;> simp_all [find]
      · next hne =>
        simp only [find, ih]
        by_cases h : n = other
        · subst h
          simp [hne]
        · simp [h]

theorem get?_insert (m : NameMap α) (name other : String) (a : α) :
    (m.insert name a).get? other = if name = other then some a else m.get? other :=
  find_place ..

theorem find_filter (name other : String) (es : List (String × α)) :
    find other (es.filter (·.1 ≠ name)) = if name = other then none else find other es := by
  induction es with
  | nil => simp [find]
  | cons head rest ih =>
    obtain ⟨n, b⟩ := head
    simp only [List.filter_cons, find]
    by_cases h : n = name
    · simp only [h, ne_eq, not_true_eq_false, decide_false, Bool.false_eq_true, if_false, ih]
      split <;> rfl
    · simp only [ne_eq, h, not_false_eq_true, decide_true, if_true, find, ih]
      by_cases ho : n = other
      · have : name ≠ other := fun e => h (ho.trans e.symm)
        simp [ho, this]
      · simp [ho]

theorem get?_erase (m : NameMap α) (name other : String) :
    (m.erase name).get? other = if name = other then none else m.get? other :=
  find_filter ..

theorem find_eq_none_of_lt {name : String} {es : List (String × α)}
    (h : ∀ e ∈ es, name < e.1) : find name es = none := by
  induction es with
  | nil => rfl
  | cons head rest ih =>
    obtain ⟨n, b⟩ := head
    have hn : name < n := h (n, b) List.mem_cons_self
    have : n ≠ name := fun e => String.lt_irrefl name (e ▸ hn)
    simp only [find, this, if_false]
    exact ih fun e he => h e (List.mem_cons_of_mem _ he)

theorem entries_eq_of_find_eq {es fs : List (String × α)}
    (he : es.Pairwise (fun a b => a.1 < b.1)) (hf : fs.Pairwise (fun a b => a.1 < b.1))
    (h : ∀ name, find name es = find name fs) : es = fs := by
  induction es generalizing fs with
  | nil =>
    cases fs with
    | nil => rfl
    | cons head rest => simpa [find] using h head.1
  | cons head rest ih =>
    obtain ⟨n, a⟩ := head
    have hrest := List.pairwise_cons.mp he
    cases fs with
    | nil => simpa [find] using h n
    | cons head' rest' =>
      obtain ⟨n', a'⟩ := head'
      have hrest' := List.pairwise_cons.mp hf
      have below : ∀ {k l : String} {b c : α} {xs ys : List (String × α)},
          (∀ e ∈ ys, l < e.1) → find k ((k, b) :: xs) = find k ((l, c) :: ys) → ¬ k < l := by
        intro k l b c xs ys hys hfind hlt
        have hne : l ≠ k := fun e => String.lt_irrefl k (e ▸ hlt)
        rw [find, if_pos rfl, find, if_neg hne,
          find_eq_none_of_lt fun e he => String.lt_trans hlt (hys e he)] at hfind
        cases hfind
      have hnn : n = n' := String.le_antisymm
        (below hrest.1 (h n').symm) (below hrest'.1 (h n))
      subst hnn
      have haa : a = a' := by simpa [find] using h n
      subst haa
      congr 1
      refine ih hrest.2 hrest'.2 fun name => ?_
      by_cases hname : n = name
      · subst hname
        rw [find_eq_none_of_lt hrest.1, find_eq_none_of_lt hrest'.1]
      · simpa [find, hname] using h name

theorem ext {m n : NameMap α} (h : ∀ name, m.get? name = n.get? name) : m = n := by
  obtain ⟨es, hes⟩ := m
  obtain ⟨fs, hfs⟩ := n
  cases entries_eq_of_find_eq hes hfs h
  rfl

theorem get?_eq_some {m : NameMap α} {name : String} {a : α} :
    m.get? name = some a ↔ (name, a) ∈ m.entries := by
  obtain ⟨entries, sorted⟩ := m
  change find name entries = some a ↔ (name, a) ∈ entries
  induction entries with
  | nil => exact iff_of_false nofun List.not_mem_nil
  | cons f rest ih =>
    obtain ⟨n, b⟩ := f
    obtain ⟨hfirst, hrest⟩ := List.pairwise_cons.mp sorted
    rw [find, List.mem_cons, Prod.mk.injEq]
    by_cases hn : n = name
    · subst hn
      have hnot : (n, a) ∉ rest := fun hmem => String.lt_irrefl n (hfirst _ hmem)
      rw [if_pos rfl, or_iff_left hnot, and_iff_right rfl, Option.some.injEq, eq_comm]
    · have hne : ¬ (name = n ∧ a = b) := fun h => hn h.1.symm
      rw [if_neg hn, or_iff_right hne]
      exact ih hrest

end NameMap

abbrev NameSet := NameMap Unit

end Buildbox
