import Buildbox.Proofs.Tree.Segments
import Mathlib.Data.List.Nodup

/-! The files of a tree as a list. Each is in it once; its path as a text leads back to it. -/

namespace Buildbox

def Directory.files : Directory → List (List String × Bytes)
  | .empty => []
  | .file name bytes rest => ([name], bytes) :: rest.files
  | .dir name sub rest => sub.files.map (fun f => (name :: f.1, f.2)) ++ rest.files

def Entry.files : Entry → List (List String × Bytes)
  | .file bytes => [([], bytes)]
  | .dir sub => sub.files

namespace Directory

variable {d rest : Directory} {e : Entry} {n : String} {p q : List String} {b : Bytes}

theorem files_cons (n : String) (e : Entry) (rest : Directory) :
    (cons n e rest).files = e.files.map (fun f => (n :: f.1, f.2)) ++ rest.files := by
  cases e <;> rfl

theorem length_files (d : Directory) : d.files.length = d.fileCount := by
  induction d with
  | empty => rfl
  | file name bytes rest ih => rw [files, fileCount, List.length_cons, ih, Nat.add_comm]
  | dir name sub rest ihsub ih =>
    rw [files, fileCount, List.length_append, List.length_map, ihsub, ih]

theorem mem_files (hd : d.Sorted) : (q, b) ∈ d.files ↔ d.lookup q = some (.file b) := by
  rw [lookup_eq_file]
  induction d using treeInduction generalizing q with
  | empty => exact iff_of_false List.not_mem_nil (by cases q <;> intro hfile <;> cases hfile)
  | cons n e rest ihsub ih =>
    obtain ⟨hbelow, he, hrest⟩ := sorted_cons.mp hd
    have hentry (r : List String) : (r, b) ∈ e.files ↔ e.at? r = some (.file b) := by
      cases e with
      | file bytes => cases r <;> simp [Entry.files, Entry.at?, eq_comm]
      | dir sub => exact ihsub sub rfl he
    rw [files_cons, List.mem_append, ih hrest, List.mem_map]
    cases q with
    | nil => simp [Entry.at?]
    | cons m r =>
      rw [at?_rest hd, Entry.at?_cons, Entry.asDir, get?_cons]
      by_cases hm : n = m
      · subst hm
        simp [hentry]
      · simp [hm]

theorem nodup_files (hd : d.Sorted) : (d.files.map (·.1)).Nodup := by
  induction d using treeInduction with
  | empty => exact List.nodup_nil
  | cons n e rest ihsub ih =>
    obtain ⟨hbelow, he, hrest⟩ := sorted_cons.mp hd
    have hentry : (e.files.map (·.1)).Nodup := by
      cases e with
      | file bytes => exact List.nodup_singleton []
      | dir sub => exact ihsub sub rfl he
    have hfirst : ((e.files.map fun f => (n :: f.1, f.2)).map (·.1)).Nodup := by
      have hmap := hentry.map (List.cons_injective (a := n))
      rwa [List.map_map] at hmap ⊢
    rw [files_cons, List.map_append]
    refine hfirst.append (ih hrest) fun p hp hp' => ?_
    obtain ⟨f, hf, rfl⟩ := List.mem_map.mp hp
    obtain ⟨g, -, rfl⟩ := List.mem_map.mp hf
    obtain ⟨⟨q, b⟩, hb, hq⟩ := List.mem_map.mp hp'
    have hnone : rest.get? n = none := get?_eq_none_of_lt hbelow
    have hfile := lookup_eq_file.mp ((mem_files hrest).mp hb)
    rw [show q = n :: g.1 from hq, Entry.at?_cons, Entry.asDir, hnone] at hfile
    cases hfile

theorem eq_of_prefix_of_file {b' : Bytes} (hp : d.lookup p = some (.file b))
    (hq : d.lookup q = some (.file b')) (h : p <+: q) : p = q := by
  obtain ⟨r, rfl⟩ := h
  rw [lookup_eq_file] at hp hq
  rw [Entry.at?_append, hp, Option.bind_some] at hq
  cases r with
  | nil => exact (List.append_nil p).symm
  | cons n r => cases hq

section Paths

theorem childPath_join {ps : List String} (h : ∀ s ∈ ps, Path.IsSegment s) (n : String) :
    childPath (Path.join ps) n = Path.join (ps ++ [n]) := by
  unfold childPath
  by_cases hps : ps = []
  · rw [hps]
    rfl
  · rw [if_neg (Path.join_ne_blank h hps), Path.join_append_singleton hps]

theorem named_cons (hd : (cons n e rest).Sorted) (h : (Entry.dir (cons n e rest)).Named) :
    Path.IsSegment n ∧ e.Named ∧ (Entry.dir rest).Named := by
  have hfirst : (Entry.dir (cons n e rest)).at? [n] = some e := by
    rw [Entry.at?_cons, Entry.asDir, get?_cons, if_pos rfl]
    cases e <;> rfl
  refine ⟨h [n] e hfirst n (List.mem_singleton_self n), h.at? hfirst, ?_⟩
  rintro (_ | ⟨k, q⟩) y hy
  · exact fun s hs => absurd hs List.not_mem_nil
  · rw [at?_rest hd] at hy
    split at hy
    · cases hy
    · exact h (k :: q) y hy

theorem filePathsBelow_join {ps : List String} (hd : d.Sorted) (h : (Entry.dir d).Named)
    (hps : ∀ s ∈ ps, Path.IsSegment s) :
    d.filePathsBelow (Path.join ps) = d.files.map fun f => Path.join (ps ++ f.1) := by
  induction d using treeInduction generalizing ps with
  | empty => rfl
  | cons n e rest ihsub ih =>
    obtain ⟨hn, he, hrest⟩ := named_cons hd h
    obtain ⟨-, hsorted, hd⟩ := sorted_cons.mp hd
    have ih := ih hd hrest hps
    cases e with
    | file bytes =>
      rw [cons, filePathsBelow, files, List.map_cons, childPath_join hps, ih]
    | dir sub =>
      have hbelow : ∀ s ∈ ps ++ [n], Path.IsSegment s := by
        intro s hs
        rcases List.mem_append.mp hs with hs | hs
        · exact hps s hs
        · exact List.mem_singleton.mp hs ▸ hn
      rw [cons, filePathsBelow, files, List.map_append, List.map_map, childPath_join hps, ih,
        ihsub sub rfl hsorted he hbelow]
      simp only [List.append_assoc, List.singleton_append]
      rfl

theorem filePaths_eq (hd : d.Sorted) (h : (Entry.dir d).Named) :
    d.filePaths = d.files.map fun f => Path.join f.1 :=
  have hroot : ∀ s ∈ ([] : List String), Path.IsSegment s := nofun
  filePathsBelow_join hd h hroot

theorem segments_join_of_file (h : (Entry.dir d).Named) (hq : d.lookup q = some (.file b)) :
    Path.segments (Path.join q) = q :=
  Path.segments_join (h q _ (lookup_eq_file.mp hq))

theorem segments_filePaths (hd : d.Sorted) (h : (Entry.dir d).Named) :
    d.filePaths.map Path.segments = d.files.map (·.1) := by
  rw [filePaths_eq hd h, List.map_map]
  refine List.map_congr_left fun f hf => ?_
  exact segments_join_of_file h ((mem_files hd).mp hf)

theorem nodup_filePaths (hd : d.Sorted) (h : (Entry.dir d).Named) : d.filePaths.Nodup :=
  List.Nodup.of_map Path.segments (segments_filePaths hd h ▸ nodup_files hd)

end Paths

end Directory

end Buildbox
