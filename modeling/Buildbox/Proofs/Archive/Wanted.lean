import Buildbox.Archive.Decode
import Mathlib.Data.List.Nodup

/-! What the entries of an archive ask for: files and directories at paths of a tree, and when two
of them clash. -/

namespace Buildbox.Archive

/-- What an entry asks for: a file with its data, or a directory, at a path of the tree. -/
structure Wanted where
  path : List String
  data : Option Bytes
  deriving DecidableEq, Repr

def wanted? (only : Option String) (e : Tar.Entry) : Option Wanted :=
  (keptPath? only e.path).bind fun path =>
    if Path.segments path = [] then none
    else match e.kind with
      | .directory => some ⟨Path.segments path, none⟩
      | .file => some ⟨Path.segments path, some e.data⟩
      | _ => none

def wanted (only : Option String) (es : List Tar.Entry) : List Wanted :=
  es.filterMap (wanted? only)

/-- Holds when the first is a file and the second lies below it, or is a directory in its place. -/
def Wanted.Clashes (k l : Wanted) : Prop :=
  k.data.isSome ∧ (k.path <+: l.path ∧ k.path ≠ l.path ∨ l.data = none ∧ k.path = l.path)

def Whole (only : Option String) (es : List Tar.Entry) : Prop :=
  ∀ e ∈ es, ∀ k, wanted? only e = some k → k.data.isSome → e.data.length = e.size

def Wanted.Fits (k : Wanted) (ks : List Wanted) : Prop :=
  ∀ l ∈ ks, ¬ k.Clashes l ∧ ¬ l.Clashes k

/-- Holds when no two of them clash. -/
def Consistent (ks : List Wanted) : Prop :=
  ∀ k ∈ ks, ∀ l ∈ ks, ¬ k.Clashes l

instance (k l : Wanted) : Decidable (k.Clashes l) :=
  inferInstanceAs (Decidable (_ ∧ (_ ∨ _)))

instance (ks : List Wanted) : Decidable (Consistent ks) :=
  inferInstanceAs (Decidable (∀ k ∈ ks, ∀ l ∈ ks, ¬ k.Clashes l))

def lastAt? (ks : List Wanted) (path : List String) : Option Bytes :=
  ((ks.filter (·.path = path)).filterMap (·.data)).getLast?

/-- Holds when a directory has to stand at a path: a file lies below it, or a directory was asked
for there or below. -/
def Covers (ks : List Wanted) (path : List String) : Prop :=
  ∃ k ∈ ks, path <+: k.path ∧ (k.data.isSome → path ≠ k.path)

variable {only : Option String} {e : Tar.Entry} {es es' : List Tar.Entry} {k : Wanted}
  {ks ls : List Wanted} {bytes : Bytes} {p : List String}

theorem wanted?_eq_some : wanted? only e = some k ↔
    ∃ path, keptPath? only e.path = some path ∧ Path.segments path = k.path ∧ k.path ≠ [] ∧
      (e.kind = .directory ∧ k.data = none ∨ e.kind = .file ∧ k.data = some e.data) := by
  unfold wanted?
  rw [Option.bind_eq_some_iff]
  refine exists_congr fun path => and_congr_right fun _ => ?_
  obtain ⟨kpath, kdata⟩ := k
  constructor
  · intro h
    split at h
    · cases h
    · next hne =>
      split at h
      · next hkind =>
        cases h
        exact ⟨rfl, hne, .inl ⟨hkind, rfl⟩⟩
      · next hkind =>
        cases h
        exact ⟨rfl, hne, .inr ⟨hkind, rfl⟩⟩
      · cases h
  · rintro ⟨rfl, hne, ⟨hkind, rfl⟩ | ⟨hkind, rfl⟩⟩
    · rw [if_neg hne, hkind]
    · rw [if_neg hne, hkind]

theorem wanted_cons_of_none (h : wanted? only e = none) : wanted only (e :: es) = wanted only es :=
  List.filterMap_cons_none h

theorem wanted_cons_of_some (h : wanted? only e = some k) :
    wanted only (e :: es) = k :: wanted only es :=
  List.filterMap_cons_some h

theorem lastAt?_snoc (ks : List Wanted) (k : Wanted) (p : List String) :
    lastAt? (ks ++ [k]) p =
      if k.path = p then k.data.or (lastAt? ks p) else lastAt? ks p := by
  unfold lastAt?
  rw [List.filter_append, List.filterMap_append]
  split
  · next heq =>
    cases hdata : k.data with
    | none => simp [heq, hdata]
    | some bytes => simp [heq, hdata]
  · next hne => simp [hne]

theorem mem_of_lastAt? (h : lastAt? ks p = some bytes) : ⟨p, some bytes⟩ ∈ ks := by
  obtain ⟨k, hk, hdata⟩ := List.mem_filterMap.mp (List.mem_of_getLast? h)
  obtain ⟨hmem, hpath⟩ := List.mem_filter.mp hk
  obtain ⟨kpath, kdata⟩ := k
  obtain rfl : kpath = p := by simpa using hpath
  obtain rfl : kdata = some bytes := hdata
  exact hmem

theorem exists_lastAt? (hk : k ∈ ks) (hfile : k.data.isSome) :
    ∃ bytes, lastAt? ks k.path = some bytes := by
  obtain ⟨bytes, hbytes⟩ := Option.isSome_iff_exists.mp hfile
  have hmem : bytes ∈ (ks.filter (·.path = k.path)).filterMap (·.data) :=
    List.mem_filterMap.mpr ⟨k, List.mem_filter.mpr ⟨hk, by simp⟩, hbytes⟩
  cases hlast : lastAt? ks k.path with
  | none => exact absurd hmem (by rw [List.getLast?_eq_none_iff.mp hlast]; exact List.not_mem_nil)
  | some b => exact ⟨b, rfl⟩

theorem lastAt?_of_nodup (hn : (ks.map (·.path)).Nodup) :
    lastAt? ks p = some bytes ↔ ⟨p, some bytes⟩ ∈ ks := by
  refine ⟨mem_of_lastAt?, fun hmem => ?_⟩
  obtain ⟨b, hb⟩ := exists_lastAt? hmem rfl
  have hsame := List.inj_on_of_nodup_map hn (mem_of_lastAt? hb) hmem rfl
  cases hsame
  exact hb

theorem covers_snoc : Covers (ks ++ [k]) p ↔
    Covers ks p ∨ p <+: k.path ∧ (k.data.isSome → p ≠ k.path) := by
  constructor
  · rintro ⟨l, hl, hcovers⟩
    rcases List.mem_append.mp hl with hl | hl
    · exact .inl ⟨l, hl, hcovers⟩
    · cases List.mem_singleton.mp hl
      exact .inr hcovers
  · rintro (⟨l, hl, hcovers⟩ | hcovers)
    · exact ⟨l, List.mem_append_left _ hl, hcovers⟩
    · exact ⟨k, List.mem_append_right _ (List.mem_singleton_self k), hcovers⟩

theorem not_clashes_self (k : Wanted) : ¬ k.Clashes k := by
  rintro ⟨hfile, ⟨-, hne⟩ | ⟨hdir, -⟩⟩
  · exact hne rfl
  · rw [hdir] at hfile
    cases hfile

theorem consistent_snoc : Consistent (ks ++ [k]) ↔
    Consistent ks ∧ k.Fits ks := by
  constructor
  · intro h
    have hk : k ∈ ks ++ [k] := List.mem_append_right _ (List.mem_singleton_self k)
    have hks {l : Wanted} (hl : l ∈ ks) : l ∈ ks ++ [k] := List.mem_append_left _ hl
    exact ⟨fun l hl m hm => h l (hks hl) m (hks hm),
      fun l hl => ⟨h k hk l (hks hl), h l (hks hl) k hk⟩⟩
  · rintro ⟨hks, hk⟩ l hl m hm
    rcases List.mem_append.mp hl with hl | hl <;> rcases List.mem_append.mp hm with hm | hm
    · exact hks l hl m hm
    · cases List.mem_singleton.mp hm
      exact (hk l hl).2
    · cases List.mem_singleton.mp hl
      exact (hk m hm).1
    · cases List.mem_singleton.mp hl
      cases List.mem_singleton.mp hm
      exact not_clashes_self k

theorem Consistent.perm (h : Consistent ks) (hperm : ks.Perm ls) : Consistent ls :=
  fun k hk l hl => h k (hperm.mem_iff.mpr hk) l (hperm.mem_iff.mpr hl)

theorem Covers.perm (h : Covers ks p) (hperm : ks.Perm ls) : Covers ls p :=
  h.imp fun _ hk => ⟨hperm.mem_iff.mp hk.1, hk.2⟩

theorem Whole.perm (h : Whole only es) (hperm : es.Perm es') :
    Whole only es' :=
  fun e he => h e (hperm.mem_iff.mpr he)

theorem lastAt?_perm (hperm : ks.Perm ls) (hn : (ks.map (·.path)).Nodup) :
    lastAt? ks p = some bytes ↔ lastAt? ls p = some bytes := by
  have hn' : (ls.map (·.path)).Nodup := (hperm.map _).nodup_iff.mp hn
  rw [lastAt?_of_nodup hn, lastAt?_of_nodup hn', hperm.mem_iff]

theorem Consistent.of_append (h : Consistent (ks ++ ls)) : Consistent ks :=
  fun k hk l hl => h k (List.mem_append_left _ hk) l (List.mem_append_left _ hl)

end Buildbox.Archive
