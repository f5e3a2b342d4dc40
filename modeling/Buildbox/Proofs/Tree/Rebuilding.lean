import Buildbox.Proofs.Tree.Insertion
import Buildbox.Proofs.Tree.LastWriter
import Buildbox.Proofs.Tree.Pruning

/-! A tree from the list of its files. However a tree was built, its files can be put one by one
into an empty one, in any order; this gives the tree again, but for directories without files. -/

namespace Buildbox

namespace Directory

def insertAll (d : Directory) : List (String × Bytes) → Except PathConflict Directory
  | [] => .ok d
  | f :: rest =>
    match d.insertFile f.1 f.2 with
    | (.ok (), d) => d.insertAll rest
    | (.error c, _) => .error c

variable {d : Directory} {p q : List String} {b : Bytes} {path : String}
  {fs : List (String × Bytes)}

section Inserted

theorem not_refuses_empty (hp : p ≠ []) : ¬ empty.Refuses p := by
  rintro (hnil | ⟨q, b, -, -, hfile⟩ | ⟨sub, hsub⟩)
  · exact hp hnil
  · cases (Entry.at?_empty (fun hq => by rw [hq] at hfile; cases hfile)).symm.trans
      (lookup_eq_file.mp hfile)
  · rw [lookup_eq_at? _ hp, Entry.at?_empty hp] at hsub
    cases hsub

theorem not_refuses_overlayFile (h : ¬ d.Refuses q) (hbelow : ¬ Path.segments path <+: q)
    (habove : ¬ q <+: Path.segments path) (bytes : Bytes) :
    ¬ (d.overlayFile path bytes).Refuses q := by
  rintro (hnil | ⟨p, b, hpre, hne, hfile⟩ | ⟨sub, hsub⟩)
  · exact h (.inl hnil)
  · rw [lookup_eq_file, at?_overlayFile] at hfile
    split at hfile
    · exact hbelow (hfile.1 ▸ hpre)
    · exact h (.inr (.inl ⟨p, b, hpre, hne, lookup_eq_file.mpr hfile⟩))
  · have hq : q ≠ [] := fun hq => h (.inl hq)
    rw [lookup_eq_at? _ hq] at hsub
    obtain ⟨hpre, -⟩ | ⟨-, hdir⟩ := (exists_dir_overlayFile path).mp ⟨sub, hsub⟩
    · exact habove hpre
    · exact h (.inr (.inr (lookup_eq_at? d hq ▸ hdir)))

def Apart (fs : List (String × Bytes)) : Prop :=
  fs.Pairwise fun f g => ¬ Path.segments f.1 <+: Path.segments g.1 ∧
    ¬ Path.segments g.1 <+: Path.segments f.1

theorem insertAll_eq_overlay (h : Apart fs) (hfree : ∀ f ∈ fs, ¬ d.Refuses (Path.segments f.1)) :
    d.insertAll fs = .ok (d.overlay fs) := by
  induction fs generalizing d with
  | nil => rfl
  | cons f fs ih =>
    obtain ⟨hfirst, hrest⟩ := List.pairwise_cons.mp h
    rw [insertAll, insertFile_of_not_refuses (hfree f List.mem_cons_self)]
    refine ih hrest fun g hg => ?_
    obtain ⟨hbelow, habove⟩ := hfirst g hg
    exact not_refuses_overlayFile (hfree g (List.mem_cons_of_mem f hg)) hbelow habove f.2

theorem sorted_overlay (hd : d.Sorted) (fs : List (String × Bytes)) : (d.overlay fs).Sorted := by
  induction fs generalizing d with
  | nil => exact hd
  | cons f fs ih => exact ih (sorted_overlayFile hd f.1 f.2)

theorem exists_last_iff {sets ends : String × Bytes → Prop} (h : Apart fs)
    (hends : ∀ f g, sets f → ends g →
      Path.segments g.1 <+: Path.segments f.1 ∨ Path.segments f.1 <+: Path.segments g.1) :
    (∃ before f after, fs = before ++ f :: after ∧ sets f ∧ ∀ g ∈ after, ¬ ends g) ↔
      ∃ f ∈ fs, sets f := by
  constructor
  · rintro ⟨before, f, after, rfl, hf, -⟩
    exact ⟨f, List.mem_append_right before List.mem_cons_self, hf⟩
  · rintro ⟨f, hmem, hf⟩
    obtain ⟨before, after, rfl⟩ := List.append_of_mem hmem
    refine ⟨before, f, after, rfl, hf, fun g hg hends' => ?_⟩
    obtain ⟨hbelow, habove⟩ := List.rel_of_pairwise_cons (List.pairwise_append.mp h).2.1 hg
    exact (hends f g hf hends').elim habove hbelow

theorem lookup_overlay_of_apart (h : Apart fs) (hq : q ≠ []) :
    (empty.overlay fs).lookup q = some (.file b) ↔
      ∃ f ∈ fs, Path.segments f.1 = q ∧ f.2 = b := by
  have hnone : empty.lookup q ≠ some (.file b) := by
    rw [lookup_eq_at? _ hq, Entry.at?_empty hq]
    nofun
  rw [lookup_overlay_file empty fs hq, or_iff_left fun h => hnone h.1]
  refine exists_last_iff h fun f g hf hg => ?_
  rw [hf.1]
  exact hg.2

theorem exists_dir_overlay_of_apart (h : Apart fs) (hq : q ≠ []) :
    (∃ sub, (Entry.dir (empty.overlay fs)).at? q = some (.dir sub)) ↔
      ∃ f ∈ fs, q <+: Path.segments f.1 ∧ q ≠ Path.segments f.1 := by
  have hnone : ¬ ∃ sub, empty.lookup q = some (.dir sub) := by
    rw [lookup_eq_at? _ hq, Entry.at?_empty hq]
    nofun
  rw [← lookup_eq_at? _ hq, exists_lookup_overlay_dir empty fs hq, or_iff_left fun h => hnone h.1]
  exact exists_last_iff h fun f g hf hg => .inl (hg.2.trans hf.1)

theorem insertAll_eq_pruned (hd : d.Sorted) (hfs : (fs.map fun f => Path.segments f.1).Nodup)
    (hfile : ∀ q b, d.lookup q = some (.file b) ↔ ∃ f ∈ fs, Path.segments f.1 = q ∧ f.2 = b) :
    empty.insertAll fs = .ok d.pruned := by
  have hfound (f) (hf : f ∈ fs) : d.lookup (Path.segments f.1) = some (.file f.2) :=
    (hfile _ _).mpr ⟨f, hf, rfl, rfl⟩
  have hpath (f) (hf : f ∈ fs) : Path.segments f.1 ≠ [] := fun hnil => by
    have hlookup := hfound f hf
    rw [hnil] at hlookup
    cases hlookup
  have hapart : Apart fs := by
    refine (List.pairwise_map.mp hfs).imp_of_mem fun {f g} hf hg hne => ⟨fun h => ?_, fun h => ?_⟩
    · exact hne (eq_of_prefix_of_file (hfound f hf) (hfound g hg) h)
    · exact hne (eq_of_prefix_of_file (hfound g hg) (hfound f hf) h).symm
  rw [insertAll_eq_overlay hapart fun f hf => not_refuses_empty (hpath f hf)]
  have hsorted : (empty.overlay fs).Sorted := sorted_overlay (d := .empty) trivial fs
  refine congrArg Except.ok (ext_of_files_of_dirs hsorted (sorted_pruned hd) (fun q b => ?_)
    fun q hq => ?_)
  · by_cases hq : q = []
    · subst hq
      exact iff_of_false nofun nofun
    · rw [lookup_overlay_of_apart hapart hq, lookup_eq_file, at?_pruned_eq_file hd,
        ← lookup_eq_file, hfile]
  · rw [exists_dir_overlay_of_apart hapart hq, exists_dir_pruned hd, or_iff_right hq]
    constructor
    · rintro ⟨f, hf, hpre, hne⟩
      exact ⟨_, f.2, hpre, hne, lookup_eq_file.mp (hfound f hf)⟩
    · rintro ⟨p, b, hpre, hne, hb⟩
      obtain ⟨f, hf, rfl, -⟩ := (hfile p b).mp (lookup_eq_file.mpr hb)
      exact ⟨f, hf, hpre, hne⟩

end Inserted

section Building

/-- The trees that come of an empty one. -/
inductive Built : Directory → Prop
  | empty : Built .empty
  | insertFile {d : Directory} (hd : Built d) (path : String) (bytes : Bytes) :
    Built (d.insertFile path bytes).2
  | overlayFile {d : Directory} (hd : Built d) (path : String) (bytes : Bytes) :
    Built (d.overlayFile path bytes)
  | ensureDir {d : Directory} (hd : Built d) (place path : String) :
    Built (d.ensureDir (Path.segments place) path).2
  | nest {d tree d' : Directory} {t t' : MountTable} {name path : String} (hd : Built d)
    (htree : Built tree) (hget : t.get? name = some d) (hnest : t.nest name path tree = .ok t')
    (hget' : t'.get? name = some d') : Built d'

structure Tidy (d : Directory) : Prop where
  sorted : d.Sorted
  named : (Entry.dir d).Named

variable {d' tree : Directory} {e : Entry}

theorem Tidy.of_put (hd : d.Tidy) (hsorted : e.Sorted) (hnamed : e.Named) (path : String)
    (hput : Entry.dir d' = Entry.put e (.dir d) (Path.segments path)) : d'.Tidy := by
  have hps : ∀ s ∈ Path.segments path, Path.IsSegment s := fun s hs => Path.of_mem_segments hs
  refine ⟨?_, ?_⟩
  · have hsorted : (Entry.dir d').Sorted := by
      rw [hput]
      exact Entry.sorted_put (x := .dir d) hd.sorted hsorted _
    exact hsorted
  · rw [hput]
    exact hd.named.put hnamed hps

theorem Tidy.overlayFile (hd : d.Tidy) (path : String) (bytes : Bytes) :
    (d.overlayFile path bytes).Tidy := by
  by_cases hp : Path.segments path = []
  · rwa [Directory.overlayFile, hp]
  · exact hd.of_put (e := .file bytes) trivial (Entry.named_file bytes) path
      (overlayAt_eq_put d bytes hp)

theorem Tidy.insertFile (hd : d.Tidy) (path : String) (bytes : Bytes) :
    (d.insertFile path bytes).2.Tidy := by
  by_cases h : d.Refuses (Path.segments path)
  · obtain ⟨c, hc⟩ := insertFile_of_refuses hd.sorted h bytes
    rwa [hc]
  · rw [insertFile_of_not_refuses h]
    exact hd.overlayFile path bytes

theorem Tidy.dirAt (hd : d.Tidy) (p : List String) : (d.dirAt p).Tidy := by
  refine ⟨sorted_dirAt hd.sorted p, ?_⟩
  unfold Directory.dirAt
  cases hp : (Entry.dir d).at? p with
  | none => exact Entry.named_empty
  | some e =>
    cases e with
    | file bytes => exact Entry.named_empty
    | dir sub => exact hd.named.at? hp

theorem Tidy.ensureDir (hd : d.Tidy) (place path : String) :
    (d.ensureDir (Path.segments place) path).2.Tidy := by
  by_cases hblocks : (Entry.dir d).Blocks (Path.segments place)
  · have hstays : (d.ensureDir (Path.segments place) path).2 = d :=
      within_of_blocks_stays hd.sorted hblocks
    rwa [hstays]
  · have hlast := hd.dirAt (Path.segments place)
    exact hd.of_put (e := .dir _) hlast.sorted hlast.named place (ensureDir_of_free hblocks path).2

theorem Tidy.nest {t t' : MountTable} {name : String} (hd : d.Tidy) (htree : tree.Tidy)
    (hget : t.get? name = some d) (hnest : t.nest name path tree = .ok t')
    (hget' : t'.get? name = some d') : d'.Tidy := by
  obtain ⟨_, hroot, hp, -, rfl⟩ := MountTable.nest_eq_ok.mp hnest
  cases hget.symm.trans hroot
  rw [MountTable.get?_modify, if_pos rfl, hget, Option.map_some] at hget'
  cases hget'
  refine hd.of_put (e := .dir tree) htree.sorted htree.named path ?_
  obtain ⟨n, ps, hps⟩ := List.exists_cons_of_ne_nil hp
  rw [hps]
  rfl

theorem Built.tidy (hd : d.Built) : d.Tidy := by
  induction hd with
  | empty => exact ⟨trivial, Entry.named_empty⟩
  | insertFile _ path bytes ih => exact ih.insertFile path bytes
  | overlayFile _ path bytes ih => exact ih.overlayFile path bytes
  | ensureDir _ place path ih => exact ih.ensureDir place path
  | nest _ _ hget hnest hget' ih ihtree => exact ih.nest ihtree hget hnest hget'

end Building

section Paths

variable (hd : d.Tidy)
include hd

theorem mem_filePaths : path ∈ d.filePaths ↔
    ∃ q b, d.lookup q = some (.file b) ∧ Path.join q = path := by
  rw [filePaths_eq hd.sorted hd.named, List.mem_map]
  constructor
  · rintro ⟨f, hf, rfl⟩
    exact ⟨f.1, f.2, (mem_files hd.sorted).mp hf, rfl⟩
  · rintro ⟨q, b, hq, rfl⟩
    exact ⟨(q, b), (mem_files hd.sorted).mpr hq, rfl⟩

theorem read?_join (hq : d.lookup q = some (.file b)) : d.read? (Path.join q) = some b := by
  rw [read?, segments_join_of_file hd.named hq, hq]
  rfl

theorem insertAll_filePaths (hpaths : (fs.map (·.1)).Perm d.filePaths)
    (hread : ∀ f ∈ fs, d.read? f.1 = some f.2) : empty.insertAll fs = .ok d.pruned := by
  have hnodup : (fs.map fun f => Path.segments f.1).Nodup := by
    have hsegments := hpaths.map Path.segments
    rw [segments_filePaths hd.sorted hd.named, List.map_map] at hsegments
    exact hsegments.nodup_iff.mpr (nodup_files hd.sorted)
  refine insertAll_eq_pruned hd.sorted hnodup fun q b => ?_
  constructor
  · intro hq
    have hlisted : Path.join q ∈ d.filePaths := (mem_filePaths hd).mpr ⟨q, b, hq, rfl⟩
    have hmem : Path.join q ∈ fs.map (·.1) := hpaths.mem_iff.mpr hlisted
    obtain ⟨f, hf, hpath⟩ := List.mem_map.mp hmem
    have hbytes := hread f hf
    rw [hpath, read?_join hd hq] at hbytes
    exact ⟨f, hf, by rw [hpath, segments_join_of_file hd.named hq], (Option.some.inj hbytes).symm⟩
  · rintro ⟨f, hf, rfl, rfl⟩
    exact read?_eq_some.mp (hread f hf)

end Paths

/-- However a tree was built: the list of its paths has each of its files once, and is as long as
there are files; the file of a listed path is read there. Put into an empty tree in any order, the
files are never in each other's way and give the tree without the directories that hold none. -/
theorem rebuilt_from_listing (hd : d.Built) :
    (∀ path, path ∈ d.filePaths ↔ ∃ q b, d.lookup q = some (.file b) ∧ Path.join q = path) ∧
    (∀ q b, d.lookup q = some (.file b) →
      Path.segments (Path.join q) = q ∧ d.read? (Path.join q) = some b) ∧
    d.filePaths.Nodup ∧ d.filePaths.length = d.fileCount ∧
    ∀ fs : List (String × Bytes), (fs.map (·.1)).Perm d.filePaths →
      (∀ f ∈ fs, d.read? f.1 = some f.2) → empty.insertAll fs = .ok d.pruned := by
  have h := hd.tidy
  refine ⟨fun path => mem_filePaths h, fun q b hq => ?_, nodup_filePaths h.sorted h.named, ?_,
    fun fs => insertAll_filePaths h⟩
  · exact ⟨segments_join_of_file h.named hq, read?_join h hq⟩
  · rw [filePaths_eq h.sorted h.named, List.length_map, length_files]

theorem rebuilt_from_listing_nested :
    let base := (empty.insertFile "./b/x" [1]).2
    let tree := ((empty.overlayFile "z//b.c" [2]).ensureDir (Path.segments "e/f") "e/f").2
    let d : Directory := .dir "b" (.file "x" [1] (.dir "y" tree .empty)) .empty
    let fs : List (String × Bytes) := [("b/y/z/b.c", [2]), ("b/x", [1])]
    MountTable.nest [⟨".", base⟩] "." "b/y" tree = .ok [⟨".", d⟩] ∧ d.Built ∧
      (fs.map (·.1)).Perm d.filePaths ∧ d.read? "b/y/z/b.c" = some [2] ∧ d.fileCount = 2 ∧
      empty.insertAll fs = .ok d.pruned ∧ d.pruned ≠ d := by
  intro base tree d fs
  have hbase : base.Built := .insertFile .empty "./b/x" [1]
  have htree : tree.Built := .ensureDir (.overlayFile .empty "z//b.c" [2]) "e/f" "e/f"
  have hnest : MountTable.nest [⟨".", base⟩] "." "b/y" tree = .ok [⟨".", d⟩] := by decide
  have hd : d.Built := .nest hbase htree (by decide) hnest (by decide)
  obtain ⟨-, hread, -, hcount, hinsert⟩ := rebuilt_from_listing hd
  have hperm : (fs.map (·.1)).Perm d.filePaths := by decide
  have hfile := (hread ["b", "y", "z", "b.c"] [2] (by decide)).2
  have hrebuilt : empty.insertAll fs = .ok d.pruned := hinsert fs hperm (by decide)
  exact ⟨hnest, hd, hperm, hfile, hcount.symm, hrebuilt, by decide⟩

end Directory

end Buildbox
