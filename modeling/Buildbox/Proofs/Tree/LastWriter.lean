import Buildbox.Proofs.Lists
import Buildbox.Proofs.Tree.Overlay

/-! Files laid over a tree one after the other. At a path there is a file just if one was laid
there or was there before, and none was laid later at, above or below the path; and a directory just
if a file was laid below or a directory was there before, and none was laid later at or above the
path. -/

namespace Buildbox

namespace Directory

variable {d : Directory} {bytes b : Bytes} {q : List String}

theorem exists_dir_overlayFile (path : String) :
    (∃ sub, (Entry.dir (d.overlayFile path bytes)).at? q = some (.dir sub)) ↔
      (q <+: Path.segments path ∧ q ≠ Path.segments path) ∨
        ¬ (Path.segments path ≠ [] ∧ Path.segments path <+: q) ∧
          ∃ sub, (Entry.dir d).at? q = some (.dir sub) := by
  unfold overlayFile
  by_cases hp : Path.segments path = []
  · have hnot : ¬ (q <+: [] ∧ q ≠ []) := fun h => h.2 (List.prefix_nil.mp h.1)
    rw [hp, or_iff_right hnot]
    simp [overlayAt]
  · rw [overlayAt_eq_put _ _ hp, Entry.at?_put_file_eq_dir, and_iff_right hp]
    by_cases habove : q <+: Path.segments path
    · by_cases hself : q = Path.segments path
      · simp [hself]
      · simp [habove, hself]
    · simp [habove]

theorem lookup_overlay_file (d : Directory) (files : List (String × Bytes)) (hq : q ≠ [])
    (b : Bytes) :
    (d.overlay files).lookup q = some (.file b) ↔
      (∃ before f after, files = before ++ f :: after ∧ (Path.segments f.1 = q ∧ f.2 = b) ∧
        ∀ g ∈ after, ¬ Decides (Path.segments g.1) q) ∨
      d.lookup q = some (.file b) ∧ ∀ g ∈ files, ¬ Decides (Path.segments g.1) q := by
  have hstep (d : Directory) (f : String × Bytes) :
      (d.overlayFile f.1 f.2).lookup q = some (.file b) ↔
        (Path.segments f.1 = q ∧ f.2 = b) ∨
          ¬ Decides (Path.segments f.1) q ∧ d.lookup q = some (.file b) := by
    rw [lookup_eq_file, lookup_eq_file, at?_overlayFile]
    split
    · next h => simp only [h, not_true_eq_false, false_and, or_false]
    · next h =>
      have hne : ¬ (Path.segments f.1 = q ∧ f.2 = b) := fun hf =>
        h ⟨hf.1 ▸ hq, .inl (hf.1 ▸ List.prefix_rfl)⟩
      rw [or_iff_right hne, and_iff_right h]
  exact foldl_iff_last (p := fun d : Directory => d.lookup q = some (.file b)) hstep

theorem exists_lookup_overlay_dir (d : Directory) (files : List (String × Bytes)) (hq : q ≠ []) :
    (∃ sub, (d.overlay files).lookup q = some (.dir sub)) ↔
      (∃ before f after, files = before ++ f :: after ∧
        (q <+: Path.segments f.1 ∧ q ≠ Path.segments f.1) ∧
        ∀ g ∈ after, ¬ (Path.segments g.1 ≠ [] ∧ Path.segments g.1 <+: q)) ∨
      (∃ sub, d.lookup q = some (.dir sub)) ∧
        ∀ g ∈ files, ¬ (Path.segments g.1 ≠ [] ∧ Path.segments g.1 <+: q) := by
  have hstep (d : Directory) (f : String × Bytes) :
      (∃ sub, (d.overlayFile f.1 f.2).lookup q = some (.dir sub)) ↔
        (q <+: Path.segments f.1 ∧ q ≠ Path.segments f.1) ∨
          ¬ (Path.segments f.1 ≠ [] ∧ Path.segments f.1 <+: q) ∧
            ∃ sub, d.lookup q = some (.dir sub) := by
    simp only [lookup_eq_at? _ hq]
    exact exists_dir_overlayFile f.1
  exact foldl_iff_last (p := fun d : Directory => ∃ sub, d.lookup q = some (.dir sub)) hstep

end Directory

namespace MountTable

variable {t : MountTable} {d : Directory} {name other : String}

theorem get?_cons (m : Mount) (t : MountTable) (name : String) :
    get? (m :: t) name = if m.name = name then some m.root else get? t name := by
  unfold get?
  rw [List.find?_cons]
  by_cases h : m.name = name <;> simp [h]

theorem get?_modify (f : Directory → Directory) (name other : String) (t : MountTable) :
    (t.modify f name).get? other =
      if name = other then (t.get? other).map f else t.get? other := by
  induction t with
  | nil => simp [modify, get?]
  | cons m rest ih =>
    rw [modify]
    by_cases hm : m.name = name
    · rw [if_pos hm, get?_cons, get?_cons, hm]
      split <;> rfl
    · rw [if_neg hm, get?_cons, get?_cons, ih]
      by_cases hname : name = other
      · rw [hname] at hm
        simp [hname, hm]
      · simp [hname]

/-- Files that go over the tree of a mount, one after the other. A file is found at a path just if
the last one laid there has its bytes and none was laid later above or below, or it was there and
none was laid at, above or below the path. A directory is found there just if one was laid below
and none later at or above the path, or it was there and none was laid at or above. Files without a
path count for nothing. -/
theorem overlay_last_writer (ht : t.get? name = some d) (files : List (String × Bytes)) :
    ∃ t' d', t.overlay name files = .ok t' ∧ t'.get? name = some d' ∧
      (∀ other, other ≠ name → t'.get? other = t.get? other) ∧
      ∀ s, s ≠ [] →
        (∀ b, d'.lookup s = some (.file b) ↔
          (∃ before f after, files = before ++ f :: after ∧ Path.segments f.1 = s ∧ f.2 = b ∧
            ∀ g ∈ after, ¬ Decides (Path.segments g.1) s) ∨
          d.lookup s = some (.file b) ∧ ∀ g ∈ files, ¬ Decides (Path.segments g.1) s) ∧
        ((∃ sub, d'.lookup s = some (.dir sub)) ↔
          (∃ before f after, files = before ++ f :: after ∧
            s <+: Path.segments f.1 ∧ s ≠ Path.segments f.1 ∧
            ∀ g ∈ after, Path.segments g.1 ≠ [] → ¬ Path.segments g.1 <+: s) ∨
          (∃ sub, d.lookup s = some (.dir sub)) ∧
            ∀ g ∈ files, Path.segments g.1 ≠ [] → ¬ Path.segments g.1 <+: s) := by
  have hover : t.overlay name files = .ok (t.modify (·.overlay files) name) := by
    rw [overlay, ht]
  refine ⟨_, d.overlay files, hover, ?_, fun other hne => ?_, fun s hs => ⟨fun b => ?_, ?_⟩⟩
  · rw [get?_modify, if_pos rfl, ht, Option.map_some]
  · rw [get?_modify, if_neg (Ne.symm hne)]
  · rw [Directory.lookup_overlay_file d files hs]
    simp only [and_assoc]
  · rw [Directory.exists_lookup_overlay_dir d files hs]
    simp only [not_and, and_assoc]

theorem overlay_last_writer_twice :
    let base : Directory := .dir "d" (.file "x" [1] .empty) (.file "f" [2] .empty)
    let files := [("d", [3]), ("d/y", [4]), (".", [9]), ("./d//y", [5])]
    get? [⟨".", base⟩] "." = some base ∧
      ∃ t' d', overlay [⟨".", base⟩] "." files = .ok t' ∧ t'.get? "." = some d' ∧
        d'.lookup ["d", "y"] = some (.file [5]) ∧ (∃ sub, d'.lookup ["d"] = some (.dir sub)) ∧
        d'.lookup ["d", "x"] ≠ some (.file [1]) ∧ d'.lookup ["f"] = some (.file [2]) := by
  intro base files
  have hbase : get? [⟨".", base⟩] "." = some base := rfl
  obtain ⟨t', d', hover, hd', -, hfound⟩ := overlay_last_writer hbase files
  refine ⟨hbase, t', d', hover, hd', ?_, ?_, ?_, ?_⟩
  · refine ((hfound ["d", "y"] (by decide)).1 [5]).mpr (.inl ?_)
    exact ⟨[("d", [3]), ("d/y", [4]), (".", [9])], _, [], rfl, by decide⟩
  · refine (hfound ["d"] (by decide)).2.mpr (.inl ?_)
    exact ⟨[("d", [3]), ("d/y", [4]), (".", [9])], _, [], rfl, by decide⟩
  · rw [ne_eq, (hfound ["d", "x"] (by decide)).1 [1]]
    rintro (⟨before, f, after, hsplit, hpath, -⟩ | ⟨-, hnone⟩)
    · have hmem : f ∈ files := hsplit ▸ List.mem_append_right before List.mem_cons_self
      have hpaths : ∀ f ∈ files, Path.segments f.1 ≠ ["d", "x"] := by decide
      exact hpaths f hmem hpath
    · exact absurd hnone (by decide)
  · exact ((hfound ["f"] (by decide)).1 [2]).mpr (.inr ⟨rfl, by decide⟩)

end MountTable

end Buildbox
