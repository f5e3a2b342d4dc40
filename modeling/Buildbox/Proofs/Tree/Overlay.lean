import Buildbox.NameMap
import Buildbox.Proofs.Tree.Placing
import Mathlib.Data.List.Induction
import Mathlib.Data.List.Nodup

/-! Files over a tree. A file takes its path from what was there, with all that is above and below
it; so what stands at a path hangs on the last file whose path is the same, above or below. -/

namespace Buildbox

/-- Holds when a file at the first path decides what stands at the second. A file without a path
decides nothing. -/
def Decides (p q : List String) : Prop :=
  p ≠ [] ∧ (p <+: q ∨ q <+: p)

instance (p q : List String) : Decidable (Decides p q) :=
  inferInstanceAs (Decidable (_ ∧ (_ ∨ _)))

def lastDeciding? {α : Type} (files : List (String × α)) (q : List String) :
    Option (String × α) :=
  (files.filter fun f => Decides (Path.segments f.1) q).getLast?

section Last

variable {α β : Type} {files : List (String × α)} {f : String × α} {q : List String}

theorem lastDeciding?_snoc (files : List (String × α)) (f : String × α) (q : List String) :
    lastDeciding? (files ++ [f]) q =
      if Decides (Path.segments f.1) q then some f else lastDeciding? files q := by
  unfold lastDeciding?
  rw [List.filter_append]
  split
  · next hf => simp [hf]
  · next hf => simp [hf]

theorem lastDeciding?_map (g : α → β) (files : List (String × α)) (q : List String) :
    lastDeciding? (files.map fun f => (f.1, g f.2)) q =
      (lastDeciding? files q).map fun f => (f.1, g f.2) := by
  unfold lastDeciding?
  rw [List.filter_map, List.getLast?_map]
  rfl

theorem lastDeciding?_eq_none :
    lastDeciding? files q = none ↔ ∀ f ∈ files, ¬ Decides (Path.segments f.1) q := by
  unfold lastDeciding?
  rw [List.getLast?_eq_none_iff, List.filter_eq_nil_iff]
  simp

theorem lastDeciding?_eq_some (hsorted : files.Pairwise fun f g => f.1 < g.1) :
    lastDeciding? files q = some f ↔ f ∈ files ∧ Decides (Path.segments f.1) q ∧
      ∀ g ∈ files, f.1 < g.1 → ¬ Decides (Path.segments g.1) q := by
  have hlast {f : String × α} (h : lastDeciding? files q = some f) :
      f ∈ files ∧ Decides (Path.segments f.1) q ∧
        ∀ g ∈ files, f.1 < g.1 → ¬ Decides (Path.segments g.1) q := by
    obtain ⟨hmem, hf⟩ := List.mem_filter.mp (List.mem_of_getLast? h)
    refine ⟨hmem, by simpa using hf, fun g hg hlt hdecides => ?_⟩
    obtain ⟨init, hinit⟩ := List.getLast?_eq_some_iff.mp h
    have hgmem : g ∈ init ++ [f] := by
      rw [← hinit]
      exact List.mem_filter.mpr ⟨hg, by simpa using hdecides⟩
    have horder : (init ++ [f]).Pairwise fun f g => f.1 < g.1 := hinit ▸ hsorted.filter _
    rcases List.mem_append.mp hgmem with hgmem | hgmem
    · have hgt : g.1 < f.1 :=
        (List.pairwise_append.mp horder).2.2 g hgmem f (List.mem_singleton_self f)
      exact String.lt_irrefl _ (String.lt_trans hlt hgt)
    · rw [List.mem_singleton.mp hgmem] at hlt
      exact String.lt_irrefl _ hlt
  refine ⟨hlast, ?_⟩
  rintro ⟨hmem, hf, hlater⟩
  cases hfound : lastDeciding? files q with
  | none => exact absurd hf (lastDeciding?_eq_none.mp hfound f hmem)
  | some g =>
    obtain ⟨hg, hgdecides, hglater⟩ := hlast hfound
    have hnlt : ¬ f.1 < g.1 := fun hlt => hlater g hg hlt hgdecides
    have hngt : ¬ g.1 < f.1 := fun hlt => hglater f hmem hlt hf
    have hname : g.1 = f.1 := String.le_antisymm hnlt hngt
    have hnames : (files.map (·.1)).Nodup := by
      refine List.pairwise_map.mpr (hsorted.imp fun {a b} hlt heq => ?_)
      rw [heq] at hlt
      exact String.lt_irrefl _ hlt
    exact congrArg some (List.inj_on_of_nodup_map hnames hg hmem hname)

end Last

/-- Of the files, the one with this name and text decides what stands at a path: no file with a
later name does. -/
structure Deciding (files : NameMap String) (path : List String) (name text : String) : Prop where
  found : files.get? name = some text
  decides : Decides (Path.segments name) path
  last : ∀ later text', files.get? later = some text' → name < later →
    ¬ Decides (Path.segments later) path

theorem deciding_iff {files : NameMap String} {path : List String} {name text : String} :
    Deciding files path name text ↔ lastDeciding? files.entries path = some (name, text) := by
  rw [lastDeciding?_eq_some files.sorted]
  constructor
  · intro h
    refine ⟨NameMap.get?_eq_some.mp h.found, h.decides, fun f hf hlt => ?_⟩
    exact h.last f.1 f.2 (NameMap.get?_eq_some.mpr hf) hlt
  · rintro ⟨hmem, hdecides, hlast⟩
    refine ⟨NameMap.get?_eq_some.mpr hmem, hdecides, fun later text' hlater hlt => ?_⟩
    exact hlast (later, text') (NameMap.get?_eq_some.mp hlater) hlt

theorem Deciding.unique {files : NameMap String} {path : List String}
    {name text name' text' : String} (h : Deciding files path name text)
    (h' : Deciding files path name' text') : name = name' ∧ text = text' := by
  have heq := (deciding_iff.mp h).symm.trans (deciding_iff.mp h')
  exact Prod.mk.inj (Option.some.inj heq)

namespace Directory

variable {d : Directory} {bytes b : Bytes} {q : List String}

theorem at?_overlayFile (path : String) :
    (Entry.dir (d.overlayFile path bytes)).at? q = some (.file b) ↔
      if Decides (Path.segments path) q then Path.segments path = q ∧ bytes = b
      else (Entry.dir d).at? q = some (.file b) := by
  unfold overlayFile
  by_cases hp : Path.segments path = []
  · have hnot : ¬ Decides [] q := fun h => h.1 rfl
    rw [hp, if_neg hnot]
    rfl
  · have happart : (¬ Path.segments path <+: q ∧ ¬ q <+: Path.segments path) ↔
        ¬ Decides (Path.segments path) q := by
      rw [Decides, and_iff_right hp, not_or]
    rw [overlayAt_eq_put _ _ hp, Entry.at?_put_file_eq_file, happart]
    split
    · next h => simp [h, eq_comm]
    · next h =>
      have hne : q ≠ Path.segments path := fun heq => h ⟨hp, .inl (heq ▸ List.prefix_rfl)⟩
      simp [h, hne]

theorem at?_overlay (d : Directory) (files : List (String × Bytes)) (q : List String) (b : Bytes) :
    (Entry.dir (d.overlay files)).at? q = some (.file b) ↔
      match lastDeciding? files q with
      | some f => Path.segments f.1 = q ∧ f.2 = b
      | none => (Entry.dir d).at? q = some (.file b) := by
  induction files using List.reverseRecOn with
  | nil => rfl
  | append_singleton files f ih =>
    have hover : d.overlay (files ++ [f]) = (d.overlay files).overlayFile f.1 f.2 :=
      List.foldl_concat ..
    rw [hover, at?_overlayFile, lastDeciding?_snoc]
    split
    · rfl
    · exact ih

end Directory

end Buildbox
