import Buildbox.Proofs.Tree.Length

/-! Trees and mount tables as the host keeps them. Whatever builds them or changes them keeps
them so. -/

namespace Buildbox

/-- A tree as the host keeps it: in order, and with files whose lengths are 64-bit numbers. -/
structure Directory.Valid (d : Directory) : Prop where
  sorted : d.Sorted
  fits : d.AllFiles (·.length < UInt64.size)

def Entry.Valid : Entry → Prop
  | .file bytes => bytes.length < UInt64.size
  | .dir sub => sub.Valid

theorem Entry.valid_iff {e : Entry} : e.Valid ↔ e.Sorted ∧ e.AllFiles (·.length < UInt64.size) := by
  cases e with
  | file bytes => exact ⟨fun h => ⟨trivial, h⟩, fun h => h.2⟩
  | dir sub => exact ⟨fun h => ⟨h.sorted, h.fits⟩, fun h => ⟨h.1, h.2⟩⟩

namespace Directory

variable {d sub : Directory} {e : Entry} {f : Directory → Directory} {n : String}
  {ps : List String}

theorem valid_empty : empty.Valid :=
  ⟨trivial, trivial⟩

theorem valid_insert (hd : d.Valid) (he : e.Valid) : (d.insert n e).Valid := by
  obtain ⟨hs, hf⟩ := Entry.valid_iff.mp he
  exact ⟨sorted_insert hd.sorted hs, allFiles_insert hd.fits hf⟩

theorem valid_erase (hd : d.Valid) : (d.erase n).Valid :=
  ⟨sorted_erase hd.sorted, allFiles_erase hd.fits⟩

theorem valid_of_get? (hd : d.Valid) (h : d.get? n = some e) : e.Valid :=
  Entry.valid_iff.mpr ⟨sorted_of_get? hd.sorted h, allFiles_of_get? hd.fits h⟩

theorem valid_modifyDirAt (hf : ∀ {d}, d.Valid → (f d).Valid) (hd : d.Valid)
    (ps : List String) : (d.modifyDirAt f ps).Valid :=
  modifyDirAt_keeps (P := Valid) (fun hd h => valid_of_get? hd h)
    (fun hd _ hsub => valid_insert hd hsub) hf hd ps

theorem valid_dirAt? (hd : d.Valid) (h : d.dirAt? ps = some sub) : sub.Valid :=
  dirAt?_keeps (P := Valid) (fun hd h => valid_of_get? hd h) hd h

section Building

variable {α : Type} {bytes : Bytes} {path : String}

theorem valid_within (path : String) (act : Directory → Except PathConflict α × Directory)
    (hact : ∀ {d}, d.Valid → (act d).2.Valid) (hd : d.Valid) (ps : List String) :
    (within path act d ps).2.Valid := by
  induction ps generalizing d with
  | nil => exact hact hd
  | cons p ps ih =>
    rw [within]
    cases hp : d.get? p with
    | none => exact valid_insert hd (ih valid_empty)
    | some e =>
      cases e with
      | file bytes => exact hd
      | dir sub => exact valid_insert hd (ih (valid_of_get? hd hp))

theorem valid_insertFile (hd : d.Valid) (hb : bytes.length < UInt64.size) :
    (d.insertFile path bytes).2.Valid := by
  simp only [insertFile]
  split
  · exact hd
  · refine valid_within _ _ (fun {d} hd => ?_) hd _
    rw [putFile]
    split
    · exact hd
    · exact valid_insert hd hb

theorem valid_overlayAt (hd : d.Valid) (hb : bytes.length < UInt64.size) (ps : List String) :
    (d.overlayAt bytes ps).Valid := by
  induction ps generalizing d with
  | nil => exact hd
  | cons p ps ih =>
    cases ps with
    | nil => exact valid_insert hd hb
    | cons q ps =>
      rw [overlayAt]
      · split
        · next hp => exact valid_insert hd (ih (valid_of_get? hd hp))
        · exact valid_insert hd (ih valid_empty)
      · simp

theorem valid_overlay {files : List (String × Bytes)} (hd : d.Valid)
    (hf : ∀ f ∈ files, f.2.length < UInt64.size) : (d.overlay files).Valid := by
  induction files generalizing d with
  | nil => exact hd
  | cons f files ih =>
    have hfirst := valid_overlayAt hd (hf f List.mem_cons_self) (Path.segments f.1)
    exact ih hfirst fun g hg => hf g (List.mem_cons_of_mem _ hg)

end Building

end Directory

namespace MountTable

variable {t : MountTable} {m : Mount} {f : Directory → Directory} {i : Nat}

def Valid (t : MountTable) : Prop :=
  ∀ m ∈ t, m.root.Valid

theorem valid_file {name file : String} {bytes : Bytes} (hb : bytes.length < UInt64.size) :
    Valid [⟨name, .file file bytes .empty⟩] := by
  intro m hm
  rw [List.mem_singleton.mp hm]
  exact ⟨⟨fun _ hn => absurd hn List.not_mem_nil, trivial⟩, ⟨hb, trivial⟩⟩

theorem valid_modifyAt (ht : t.Valid) (hf : ∀ {d}, d.Valid → (f d).Valid) (i : Nat) :
    (t.modifyAt f i).Valid :=
  modifyAt_keeps ht hf i

section Building

variable {t' : MountTable} {root tree : Directory} {name path : String}

theorem valid_push (ht : t.Valid) (hr : root.Valid) (h : t.push name root = .ok t') :
    t'.Valid := by
  rw [push] at h
  split at h
  · cases h
  · cases h
    intro m hm
    rcases List.mem_append.mp hm with hm | hm
    · exact ht m hm
    · exact List.mem_singleton.mp hm ▸ hr

theorem valid_modify (ht : t.Valid) (hf : ∀ {d}, d.Valid → (f d).Valid) :
    (t.modify f name).Valid := by
  induction t with
  | nil => exact ht
  | cons k rest ih =>
    have hk := ht k List.mem_cons_self
    have hrest : Valid rest := fun m hm => ht m (List.mem_cons_of_mem _ hm)
    rw [modify]
    split
    · exact List.forall_mem_cons.mpr ⟨hf hk, hrest⟩
    · exact List.forall_mem_cons.mpr ⟨hk, ih hrest⟩

theorem valid_of_get? (ht : t.Valid) (h : t.get? name = some root) : root.Valid := by
  obtain ⟨m, hm, rfl⟩ := Option.map_eq_some_iff.mp h
  exact ht m (List.mem_of_find?_eq_some hm)

theorem valid_overlay {files : List (String × Bytes)} (ht : t.Valid)
    (hf : ∀ f ∈ files, f.2.length < UInt64.size) (h : t.overlay name files = .ok t') :
    t'.Valid := by
  rw [overlay] at h
  split at h
  · cases h
  · cases h
    exact valid_modify ht fun hd => Directory.valid_overlay hd hf

theorem valid_nest (ht : t.Valid) (htree : tree.Valid) (h : t.nest name path tree = .ok t') :
    t'.Valid := by
  rw [nest] at h
  split at h
  · cases h
  · next root hroot =>
    simp only at h
    split at h
    · cases h
    · next leaf hleaf =>
      have hin := Directory.valid_within path (fun d => (.ok (), d.insert leaf (.dir tree)))
        (fun hd => Directory.valid_insert hd htree) (valid_of_get? ht hroot)
        (Path.segments path).dropLast
      split at h
      · next attached hw =>
        cases h
        rw [hw] at hin
        exact valid_modify ht fun _ => hin
      · cases h

end Building

end MountTable

end Buildbox
