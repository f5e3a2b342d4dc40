import Buildbox.Proofs.Tree.Overlay
import Buildbox.Stage.Artifact
import Buildbox.Stage.Derivative

/-! What the compiler and the transpiler are given: the support sources below a directory of their
own, and files over them. -/

namespace Buildbox

/-- The bytes that are found at a path: those of the file that decides it, if this is its path; and
where no file decides it, those of the support sources. -/
inductive Supplied (a : AssetConfig) (support : Directory) (files : NameMap String)
    (path : List String) : Bytes → Prop where
  | file {name text} (hd : Deciding files path name text) (hp : Path.segments name = path) :
    Supplied a support files path (Utf8.encode text)
  | support {rest bytes}
    (hd : ∀ name text, files.get? name = some text → ¬ Decides (Path.segments name) path)
    (hp : Path.segments a.supportDir ++ rest = path)
    (hb : support.lookup rest = some (.file bytes)) : Supplied a support files path bytes

variable {a : AssetConfig} {support : Directory} {files : NameMap String} {path : List String}
  {bytes : Bytes}

def MountTable.file? (t : MountTable) (mount path : String) : Option Bytes :=
  (t.get? mount).bind (·.read? path)

namespace MountTable

open Entry (put)

variable {name dir : String} {tree nested : Directory} {q : List String}

theorem at?_nested (hn : Entry.dir nested = put (.dir tree) (.dir .empty) path) :
    (Entry.dir nested).at? q = some (.file bytes) ↔
      ∃ rest, path ++ rest = q ∧ tree.lookup rest = some (.file bytes) := by
  rw [hn]
  rcases Entry.at?_put_cases (.dir tree) (.dir .empty) path q with
    ⟨rest, rfl, hat⟩ | ⟨habove, hne, sub, hat⟩ | ⟨hbelow, habove, hat⟩
  · rw [hat, ← Directory.lookup_eq_file]
    constructor
    · exact fun hb => ⟨rest, rfl, hb⟩
    · rintro ⟨rest', hrest, hb⟩
      rwa [List.append_cancel_left hrest] at hb
  · rw [hat]
    refine iff_of_false nofun ?_
    rintro ⟨rest, rfl, -⟩
    exact hne (habove.eq_of_length_le (List.prefix_append path rest).length_le)
  · have hne : q ≠ [] := fun heq => habove (heq ▸ List.nil_prefix)
    rw [hat, Entry.at?_empty hne]
    refine iff_of_false nofun ?_
    rintro ⟨rest, rfl, -⟩
    exact hbelow (List.prefix_append path rest)

theorem nest_of_segments (h : Path.segments dir ≠ []) (name : String) (tree : Directory) :
    ∃ nested, nest [⟨name, .empty⟩] name dir tree = .ok [⟨name, nested⟩] ∧
      Entry.dir nested = put (.dir tree) (.dir .empty) (Path.segments dir) := by
  have hget : get? [⟨name, .empty⟩] name = some .empty := by simp [get?]
  refine ⟨(put (.dir tree) (.dir .empty) (Path.segments dir)).asDir, ?_, ?_⟩
  · rw [nest_of_free hget h (Entry.not_blocks_empty _), modify, if_pos rfl]
  · obtain ⟨n, ps, hps⟩ := List.exists_cons_of_ne_nil h
    rw [hps]
    rfl

theorem nest_of_blank (h : Path.segments dir = []) (name : String) (tree : Directory) :
    nest [⟨name, .empty⟩] name dir tree = .error (.conflict (.emptyNestPath name)) := by
  have hget : get? [⟨name, .empty⟩] name = some .empty := by simp [get?]
  unfold nest
  simp only [hget, h, List.getLast?_nil]

theorem overlay_single (name : String) (root : Directory) (files : List (String × Bytes)) :
    overlay [⟨name, root⟩] name files = .ok [⟨name, root.overlay files⟩] := by
  simp [overlay, get?, modify]

end MountTable

def NameMap.encoded (files : NameMap String) : List (String × Bytes) :=
  files.entries.map fun (name, text) => (name, Utf8.encode text)

theorem lookup_overlay_nested {nested : Directory}
    (hn : Entry.dir nested = .put (.dir support) (.dir .empty) (Path.segments a.supportDir)) :
    (nested.overlay files.encoded).lookup path = some (.file bytes) ↔
      Supplied a support files path bytes := by
  have hlast : lastDeciding? files.encoded path =
      (lastDeciding? files.entries path).map fun f => (f.1, Utf8.encode f.2) :=
    lastDeciding?_map Utf8.encode files.entries path
  rw [Directory.lookup_eq_file, Directory.at?_overlay, hlast]
  cases hdecides : lastDeciding? files.entries path with
  | none =>
    have hnone : ∀ name text, files.get? name = some text →
        ¬ Decides (Path.segments name) path := fun name text hfound =>
      lastDeciding?_eq_none.mp hdecides (name, text) (NameMap.get?_eq_some.mp hfound)
    rw [Option.map_none, MountTable.at?_nested hn]
    constructor
    · rintro ⟨rest, hp, hb⟩
      exact .support hnone hp hb
    · rintro (⟨hd, hp⟩ | ⟨-, hp, hb⟩)
      · exact absurd hd.decides (hnone _ _ hd.found)
      · exact ⟨_, hp, hb⟩
  | some f =>
    have hd : Deciding files path f.1 f.2 := deciding_iff.mpr hdecides
    rw [Option.map_some]
    constructor
    · rintro ⟨hp, rfl⟩
      exact .file hd hp
    · rintro (⟨hd', hp⟩ | ⟨hnone, -, -⟩)
      · obtain ⟨hname, htext⟩ := hd.unique hd'
        exact ⟨hname ▸ hp, by rw [htext]⟩
      · exact absurd hd.decides (hnone _ _ hd.found)

section Stages

variable {c : Config} {library : Directory} {t : MountTable} {name filename content : String}

theorem Artifact.mounts_of_segments (h : Path.segments c.assets.supportDir ≠ [])
    (library support : Directory) (files : NameMap String) :
    ∃ root, Artifact.mounts c library support files =
        .ok [⟨".", root⟩, ⟨"/lib", library⟩, ⟨"/cache", .empty⟩] ∧
      ∀ path bytes, root.lookup path = some (.file bytes) ↔
        Supplied c.assets support files path bytes := by
  obtain ⟨nested, hnest, hnested⟩ := MountTable.nest_of_segments h workMount support
  refine ⟨nested.overlay files.encoded, ?_, fun path bytes => lookup_overlay_nested hnested⟩
  change (do
    let t ← MountTable.nest [⟨workMount, .empty⟩] workMount c.assets.supportDir support
    let t ← t.overlay workMount files.encoded
    let t ← t.push libraryMount library
    t.push cacheMount .empty) = _
  rw [hnest]
  change (do
    let t ← MountTable.overlay [⟨workMount, nested⟩] workMount files.encoded
    let t ← t.push libraryMount library
    t.push cacheMount .empty) = _
  rw [MountTable.overlay_single]
  rfl

theorem Artifact.mounts_of_blank (h : Path.segments c.assets.supportDir = [])
    (library support : Directory) (files : NameMap String) :
    Artifact.mounts c library support files = .error (.conflict (.emptyNestPath ".")) := by
  change (MountTable.nest [⟨workMount, .empty⟩] workMount c.assets.supportDir support >>= _) = _
  rw [MountTable.nest_of_blank h]
  rfl

theorem Artifact.exists_mounts_iff :
    (∃ t, Artifact.mounts c library support files = .ok t) ↔
      Path.segments c.assets.supportDir ≠ [] := by
  constructor
  · rintro ⟨t, ht⟩ hblank
    rw [mounts_of_blank hblank] at ht
    cases ht
  · intro h
    obtain ⟨root, ht, -⟩ := mounts_of_segments h library support files
    exact ⟨_, ht⟩

theorem Artifact.file?_mounts (ht : Artifact.mounts c library support files = .ok t) :
    t.file? "." name = some bytes ↔
      Supplied c.assets support files (Path.segments name) bytes := by
  have h : Path.segments c.assets.supportDir ≠ [] := exists_mounts_iff.mp ⟨t, ht⟩
  obtain ⟨root, hroot, hsupplied⟩ := mounts_of_segments h library support files
  cases ht.symm.trans hroot
  rw [← hsupplied, ← Directory.read?_eq_some]
  rfl

theorem Derivative.mounts_of_segments (h : Path.segments c.assets.supportDir ≠ [])
    (support : Directory) (filename content : String) :
    ∃ root, Derivative.mounts c support filename content = .ok [⟨c.transpile.mount, root⟩] ∧
      ∀ path bytes, root.lookup path = some (.file bytes) ↔
        Supplied c.assets support (.ofList [(filename, content)]) path bytes := by
  obtain ⟨nested, hnest, hnested⟩ := MountTable.nest_of_segments h c.transpile.mount support
  refine ⟨nested.overlay (NameMap.ofList [(filename, content)]).encoded, ?_,
    fun path bytes => lookup_overlay_nested hnested⟩
  change (do
    let t ← MountTable.nest [⟨c.transpile.mount, .empty⟩] c.transpile.mount
      c.assets.supportDir support
    t.overlay c.transpile.mount [(filename, Utf8.encode content)]) = _
  rw [hnest]
  exact MountTable.overlay_single ..

theorem Derivative.mounts_of_blank (h : Path.segments c.assets.supportDir = [])
    (support : Directory) (filename content : String) :
    Derivative.mounts c support filename content =
      .error (.conflict (.emptyNestPath c.transpile.mount)) := by
  change (MountTable.nest [⟨c.transpile.mount, .empty⟩] c.transpile.mount c.assets.supportDir
    support >>= _) = _
  rw [MountTable.nest_of_blank h]
  rfl

theorem Derivative.file?_mounts (ht : Derivative.mounts c support filename content = .ok t) :
    t.file? c.transpile.mount name = some bytes ↔
      Supplied c.assets support (.ofList [(filename, content)]) (Path.segments name) bytes := by
  have h : Path.segments c.assets.supportDir ≠ [] := fun hblank => by
    rw [mounts_of_blank hblank] at ht
    cases ht
  obtain ⟨root, hroot, hsupplied⟩ := mounts_of_segments h support filename content
  cases ht.symm.trans hroot
  rw [← hsupplied, ← Directory.read?_eq_some]
  simp [MountTable.file?, MountTable.get?]

end Stages

end Buildbox
