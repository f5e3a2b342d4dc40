import Buildbox.Proofs.Host.Lookup
import Buildbox.Proofs.Tree.Valid

/-! What a change in one directory of one mount does to the trees of a host: where it shows, and
what it does to their summed lengths. -/

namespace Buildbox.Host

variable {h : Host} {d q : Directory} {e : Entry} {f : Directory → Directory} {i j : Nat}
  {n : String} {path ps qs : List String} {bytes : Bytes}

section Paths

theorem exists_of_nodeAt?_file (hb : h.nodeAt? i path = some (.file bytes)) :
    ∃ ps n d, path = ps ++ [n] ∧ h.dirAt? i ps = some d ∧ d.get? n = some (.file bytes) := by
  rcases path.eq_nil_or_concat with rfl | ⟨ps, n, rfl⟩
  · rw [nodeAt?_nil, Option.map_eq_some_iff] at hb
    obtain ⟨m, -, hm⟩ := hb
    cases hm
  · rw [List.concat_eq_append, nodeAt?_append_singleton, Option.bind_eq_some_iff] at hb
    obtain ⟨d, hd, hn⟩ := hb
    exact ⟨ps, n, d, List.concat_eq_append, hd, hn⟩

theorem nodeAt?_of_dirAt? (hq : h.dirAt? i path = some q) : h.nodeAt? i path = some (.dir q) := by
  unfold dirAt? at hq
  obtain ⟨m, hm, hq⟩ := Option.bind_eq_some_iff.mp hq
  rcases path.eq_nil_or_concat with rfl | ⟨ps, n, rfl⟩
  · cases hq
    rw [nodeAt?_nil, hm]
    rfl
  · rw [List.concat_eq_append, Directory.dirAt?_append_singleton, Option.bind_eq_some_iff] at hq
    obtain ⟨e, he, hq⟩ := hq
    cases e with
    | file b => cases hq
    | dir s =>
      cases hq
      rw [nodeAt?, hm, Option.bind_some, List.concat_eq_append, if_neg (by simp), he]

theorem dirAt?_append (h : Host) (i : Nat) (ps qs : List String) :
    h.dirAt? i (ps ++ qs) = (h.dirAt? i ps).bind (·.dirAt? qs) := by
  unfold dirAt?
  rw [Option.bind_assoc]
  exact congrArg _ (funext fun m => Directory.dirAt?_append ..)

/-- The kind of what stands at a path, with the bytes if it is a file. -/
def kindAt? (h : Host) (i : Nat) (path : List String) : Option (Option Bytes) :=
  (h.nodeAt? i path).map Entry.asFile?

theorem kindAt?_eq_file :
    h.kindAt? i path = some (some bytes) ↔ h.nodeAt? i path = some (.file bytes) := by
  unfold kindAt?
  rcases h.nodeAt? i path with _ | ⟨b⟩ | sub <;> simp [Entry.asFile?]

theorem kindAt?_of_dirAt? (hd : (h.dirAt? i path).isSome) : h.kindAt? i path = some none := by
  obtain ⟨q, hq⟩ := Option.isSome_iff_exists.mp hd
  rw [kindAt?, nodeAt?_of_dirAt? hq]
  rfl

theorem not_isEmpty_of_below (hd : h.dirAt? i ps = some d) (hn : d.get? n = some e)
    (hpre : path <+: ps) : ∃ q, h.nodeAt? i path = some (.dir q) ∧ q.isEmpty = false := by
  obtain ⟨rest, rfl⟩ := hpre
  rw [dirAt?_append, Option.bind_eq_some_iff] at hd
  obtain ⟨q, hq, hd⟩ := hd
  refine ⟨q, nodeAt?_of_dirAt? hq, ?_⟩
  cases q with
  | file | dir => rfl
  | empty =>
    cases rest with
    | nil =>
      cases hd
      cases hn
    | cons r rest =>
      rw [Directory.dirAt?_cons, Directory.get?_empty] at hd
      cases hd

end Paths

section Changes

theorem setFile_eq_modifyDir (hd : h.dirAt? i ps = some d) (hn : d.get? n = some (.file bytes))
    (written : Bytes) :
    h.setFile i (ps ++ [n]) written = h.modifyDir i ps (·.insert n (.file written)) := by
  unfold dirAt? at hd
  obtain ⟨m, hm, hd⟩ := Option.bind_eq_some_iff.mp hd
  have hfile : m.root.lookup (ps ++ [n]) = some (.file bytes) := by
    rw [Directory.lookup_append_singleton, hd, Option.bind_some, hn]
  have hroot := Directory.modifyFileAt_append_singleton (fun _ => written) hfile
  have htable : h.mounts.modifyAt (·.modifyFileAt (fun _ => written) (ps ++ [n])) i =
      h.mounts.modifyAt (·.modifyDirAt (·.insert n (.file written)) ps) i :=
    MountTable.modifyAt_congr hm hroot
  rw [setFile, modifyDir, htable]

theorem mounts_modifyDir (h : Host) (i : Nat) (ps : List String) (f : Directory → Directory) :
    (h.modifyDir i ps f).mounts = h.mounts.modifyAt (·.modifyDirAt f ps) i := rfl

section OneName

variable (hf : ∀ sub m, m ≠ n → (f sub).get? m = sub.get? m)
include hf

theorem isSome_dirAt?_modifyDir (h : Host) (hne : ¬ (i = j ∧ ps ++ [n] <+: qs)) :
    ((h.modifyDir i ps f).dirAt? j qs).isSome = (h.dirAt? j qs).isSome := by
  unfold dirAt?
  rw [mounts_modifyDir, MountTable.getElem?_modifyAt]
  split
  · next heq =>
    subst heq
    cases h.mounts[i]? with
    | none => rfl
    | some m => exact Directory.isSome_dirAt?_modifyDirAt hf fun hpre => hne ⟨rfl, hpre⟩
  · rfl

theorem nodeAt?_modifyDir (h : Host) (hne : ¬ (i = j ∧ ps ++ [n] <+: qs))
    (hne' : ¬ (i = j ∧ qs <+: ps ++ [n])) : (h.modifyDir i ps f).nodeAt? j qs = h.nodeAt? j qs := by
  unfold nodeAt?
  rw [mounts_modifyDir, MountTable.getElem?_modifyAt]
  split
  · next heq =>
    subst heq
    have hq : qs ≠ [] := fun hq => hne' ⟨rfl, hq ▸ List.nil_prefix⟩
    cases h.mounts[i]? with
    | none => rfl
    | some m =>
      simp only [Option.map_some, Option.bind_some, if_neg hq]
      exact Directory.lookup_modifyDirAt hf (fun hpre => hne ⟨rfl, hpre⟩)
        fun hpre => hne' ⟨rfl, hpre⟩
  · rfl

theorem kindAt?_modifyDir (hd : (h.dirAt? i ps).isSome) (hne : ¬ (i = j ∧ ps ++ [n] <+: qs)) :
    (h.modifyDir i ps f).kindAt? j qs = h.kindAt? j qs := by
  by_cases habove : i = j ∧ qs <+: ps ++ [n]
  -- Above the name there are directories, before and after.
  · obtain ⟨rfl, hpre⟩ := habove
    have hdir : (h.dirAt? i qs).isSome := by
      rcases List.prefix_concat_iff.mp hpre with rfl | ⟨rest, rfl⟩
      · exact absurd ⟨rfl, List.prefix_rfl⟩ hne
      · rw [dirAt?_append] at hd
        exact Option.isSome_of_isSome_bind hd
    rw [kindAt?_of_dirAt? hdir,
      kindAt?_of_dirAt? ((isSome_dirAt?_modifyDir hf h hne).trans hdir)]
  · rw [kindAt?, nodeAt?_modifyDir hf h hne habove]
    rfl

end OneName

theorem dirAt?_modifyDir_self (h : Host) (i : Nat) (ps : List String)
    (f : Directory → Directory) : (h.modifyDir i ps f).dirAt? i ps = (h.dirAt? i ps).map f := by
  unfold dirAt?
  rw [mounts_modifyDir, MountTable.getElem?_modifyAt, if_pos rfl]
  cases h.mounts[i]? with
  | none => rfl
  | some m => exact Directory.dirAt?_modifyDirAt_self f m.root ps

theorem get?_erase_of_ne (n : String) (sub : Directory) (m : String) (hm : m ≠ n) :
    (sub.erase n).get? m = sub.get? m := by
  rw [Directory.get?_erase, if_neg (Ne.symm hm)]

theorem get?_insert_of_ne (n : String) (e : Entry) (sub : Directory) (m : String) (hm : m ≠ n) :
    (sub.insert n e).get? m = sub.get? m := by
  rw [Directory.get?_insert, if_neg (Ne.symm hm)]

end Changes

section Detached

variable {m : String} (hne : ¬ (i = j ∧ ps ++ [n] <+: qs ++ [m])) (hd : h.dirAt? i ps = some d)
  (hn : d.get? n = some e) (hr : h.checkReplace e j (qs ++ [m]) = .ok ())
include hne hd hn hr

theorem not_above_of_checkReplace : ¬ (i = j ∧ qs ++ [m] <+: ps ++ [n]) := by
  rintro ⟨rfl, hpre⟩
  have habove : qs ++ [m] <+: ps := by
    rcases List.prefix_concat_iff.mp hpre with heq | hpre
    · exact absurd ⟨rfl, heq ▸ List.prefix_rfl⟩ hne
    · exact hpre
  obtain ⟨q, hq, hfull⟩ := not_isEmpty_of_below hd hn habove
  unfold checkReplace at hr
  rw [existing?_eq_ok_some.mpr hq] at hr
  cases e <;> simp [hfull, bind, Except.bind, Entry.isDir, throw, throwThe,
    MonadExceptOf.throw] at hr

theorem nodeAt?_detached :
    (h.modifyDir i ps (·.erase n)).nodeAt? j (qs ++ [m]) = h.nodeAt? j (qs ++ [m]) :=
  nodeAt?_modifyDir (get?_erase_of_ne n) h hne (not_above_of_checkReplace hne hd hn hr)

theorem nodeAt?_moved :
    ((h.modifyDir i ps (·.erase n)).modifyDir j qs (·.insert m e)).nodeAt? i (ps ++ [n]) =
      none := by
  have habove := not_above_of_checkReplace hne hd hn hr
  rw [nodeAt?_modifyDir (get?_insert_of_ne m e) _ (fun ⟨hij, hpre⟩ => habove ⟨hij.symm, hpre⟩)
    (fun ⟨hij, hpre⟩ => hne ⟨hij.symm, hpre⟩), nodeAt?_append_singleton, dirAt?_modifyDir_self,
    hd, Option.map_some, Option.bind_some, Directory.get?_erase, if_pos rfl]

end Detached

section Lengths

variable (hv : h.mounts.Valid)
include hv

theorem names_modifyDir_insert {m : String} (hne : ¬ (j = i ∧ qs = ps))
    (habove : ¬ (j = i ∧ qs ++ [m] <+: ps)) :
    ((h.modifyDir j qs (·.insert m e)).dirAt? i ps).map Directory.names =
      (h.dirAt? i ps).map Directory.names := by
  unfold dirAt?
  rw [mounts_modifyDir, MountTable.getElem?_modifyAt]
  split
  · next heq =>
    subst heq
    cases hm : h.mounts[j]? with
    | none => rfl
    | some k =>
      exact Directory.names_dirAt?_modifyDirAt_insert (hv k (List.mem_of_getElem? hm)).sorted
        (fun hq => hne ⟨rfl, hq⟩) fun hpre => habove ⟨rfl, hpre⟩
  · rfl

theorem valid_of_dirAt? (hd : h.dirAt? i ps = some d) : d.Valid := by
  obtain ⟨m, hm, hd⟩ := Option.bind_eq_some_iff.mp hd
  exact Directory.valid_dirAt? (hv m (List.mem_of_getElem? hm)) hd

theorem length_lt_of_nodeAt? (hb : h.nodeAt? i path = some (.file bytes)) :
    bytes.length < UInt64.size := by
  obtain ⟨ps, n, d, rfl, hd, hn⟩ := exists_of_nodeAt?_file hb
  exact Directory.valid_of_get? (valid_of_dirAt? hv hd) hn

theorem valid_insert (i : Nat) (ps : List String) (n : String) (he : e.Valid) :
    (h.modifyDir i ps (·.insert n e)).mounts.Valid :=
  MountTable.valid_modifyAt hv
    (fun hd => Directory.valid_modifyDirAt (fun hd => Directory.valid_insert hd he) hd ps) i

theorem valid_erase (i : Nat) (ps : List String) (n : String) :
    (h.modifyDir i ps (·.erase n)).mounts.Valid :=
  MountTable.valid_modifyAt hv
    (fun hd => Directory.valid_modifyDirAt (fun hd => Directory.valid_erase hd) hd ps) i

theorem totalLength_modifyDir (hd : h.dirAt? i ps = some d) (f : Directory → Directory) :
    (h.modifyDir i ps f).mounts.totalLength + d.totalLength =
      h.mounts.totalLength + (f d).totalLength := by
  obtain ⟨m, hm, hd⟩ := Option.bind_eq_some_iff.mp hd
  have hroot := Directory.totalLength_modifyDirAt f (hv m (List.mem_of_getElem? hm)).sorted hd
  have htable := MountTable.totalLength_modifyAt (·.modifyDirAt f ps) hm
  rw [mounts_modifyDir]
  omega

theorem totalLength_insert (hd : h.dirAt? i ps = some d) (n : String) (e : Entry) :
    (h.modifyDir i ps (·.insert n e)).mounts.totalLength + Entry.heldLength (d.get? n) =
      h.mounts.totalLength + e.totalLength := by
  have hchange := totalLength_modifyDir hv hd (·.insert n e)
  have hput := Directory.totalLength_insert (valid_of_dirAt? hv hd).sorted n e
  omega

theorem totalLength_erase (hd : h.dirAt? i ps = some d) (n : String) :
    (h.modifyDir i ps (·.erase n)).mounts.totalLength + Entry.heldLength (d.get? n) =
      h.mounts.totalLength := by
  have hchange := totalLength_modifyDir hv hd (·.erase n)
  have hcut := Directory.totalLength_erase (valid_of_dirAt? hv hd).sorted n
  omega

end Lengths

end Buildbox.Host
