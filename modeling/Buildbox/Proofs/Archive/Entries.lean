import Buildbox.Proofs.Archive.Wanted
import Buildbox.Proofs.Lists
import Buildbox.Proofs.Tree.Placing

/-! What tree an archive is decoded to. Its entries are added one after another, and which clash
is noticed by which check hangs on their order; but whether any is noticed does not, and neither
does the tree, unless two files have one path. -/

namespace Buildbox.Archive

variable {only : Option String} {e : Tar.Entry} {es : List Tar.Entry} {k : Wanted}
  {ks ls : List Wanted} {d : Directory} {bytes : Bytes} {p q : List String}

/-- Holds when a tree shows what was asked for, and nothing else. -/
structure Shows (d : Directory) (ks : List Wanted) : Prop where
  sorted : d.Sorted
  named : ∀ k ∈ ks, k.path ≠ []
  file : ∀ p, p ≠ [] → ∀ bytes,
    (Entry.dir d).at? p = some (.file bytes) ↔ lastAt? ks p = some bytes
  dir : ∀ p, p ≠ [] → ((∃ sub, (Entry.dir d).at? p = some (.dir sub)) ↔ Covers ks p)

theorem shows_empty : Shows .empty [] where
  sorted := trivial
  named := nofun
  file p hp bytes := by
    rw [Entry.at?_empty hp]
    exact iff_of_false nofun nofun
  dir p hp := by
    rw [Entry.at?_empty hp]
    exact iff_of_false nofun nofun

section Blocked

variable (h : Shows d ks)
include h

theorem Shows.blocks_iff :
    (Entry.dir d).Blocks p ↔ ∃ k ∈ ks, k.data.isSome ∧ k.path <+: p := by
  constructor
  · rintro ⟨q, bytes, hq, hfile⟩
    have hne : q ≠ [] := by
      rintro rfl
      cases hfile
    exact ⟨_, mem_of_lastAt? ((h.file q hne bytes).mp hfile), rfl, hq⟩
  · rintro ⟨k, hk, hfile, hpre⟩
    obtain ⟨bytes, hlast⟩ := exists_lastAt? hk hfile
    exact ⟨k.path, bytes, hpre, (h.file k.path (h.named k hk) bytes).mpr hlast⟩

theorem Shows.file_fits_iff (hk : k.path ≠ []) (hfile : k.data.isSome) :
    (¬ (Entry.dir d).Blocks k.path.dropLast ∧
        ∀ sub, (Entry.dir d).at? k.path ≠ some (.dir sub)) ↔
      k.Fits ks := by
  have hnone : k.data ≠ none := Option.isSome_iff_ne_none.mp hfile
  rw [h.blocks_iff]
  constructor
  · rintro ⟨hblocks, hdir⟩ l hl
    constructor
    · rintro ⟨-, hclash⟩
      have hcovers : Covers ks k.path := by
        rcases hclash with ⟨hpre, hne⟩ | ⟨hdata, heq⟩
        · exact ⟨l, hl, hpre, fun _ => hne⟩
        · exact ⟨l, hl, heq ▸ List.prefix_rfl, fun hsome => by rw [hdata] at hsome; cases hsome⟩
      obtain ⟨sub, hsub⟩ := (h.dir k.path hk).mpr hcovers
      exact hdir sub hsub
    · rintro ⟨hl', ⟨hpre, hne⟩ | ⟨hdata, -⟩⟩
      · exact hblocks ⟨l, hl, hl', (prefix_dropLast_iff hk).mpr ⟨hpre, hne⟩⟩
      · exact hnone hdata
  · intro hfits
    constructor
    · rintro ⟨l, hl, hl', hpre⟩
      exact (hfits l hl).2 ⟨hl', .inl ((prefix_dropLast_iff hk).mp hpre)⟩
    · intro sub hsub
      obtain ⟨l, hl, hpre, hne⟩ := (h.dir k.path hk).mp ⟨sub, hsub⟩
      refine (hfits l hl).1 ⟨hfile, ?_⟩
      by_cases heq : k.path = l.path
      · cases hdata : l.data with
        | none => exact .inr ⟨rfl, heq⟩
        | some bytes => exact absurd heq (hne (by rw [hdata]; rfl))
      · exact .inl ⟨hpre, heq⟩

theorem Shows.dir_fits_iff (hdir : k.data = none) :
    ¬ (Entry.dir d).Blocks k.path ↔ k.Fits ks := by
  rw [h.blocks_iff]
  constructor
  · intro hblocks l hl
    constructor
    · rintro ⟨hfile, -⟩
      rw [hdir] at hfile
      cases hfile
    · rintro ⟨hl', ⟨hpre, -⟩ | ⟨-, heq⟩⟩
      · exact hblocks ⟨l, hl, hl', hpre⟩
      · exact hblocks ⟨l, hl, hl', heq ▸ List.prefix_rfl⟩
  · rintro hfits ⟨l, hl, hl', hpre⟩
    refine (hfits l hl).2 ⟨hl', ?_⟩
    by_cases heq : l.path = k.path
    · exact .inr ⟨hdir, heq⟩
    · exact .inl ⟨hpre, heq⟩

end Blocked

section Steps

theorem not_covers_of_fits (hfile : k.data.isSome) (hfits : k.Fits ks)
    (hq : k.path <+: q) : ¬ Covers ks q := by
  rintro ⟨l, hl, hpre, hne⟩
  refine (hfits l hl).1 ⟨hfile, ?_⟩
  by_cases heq : k.path = l.path
  · refine .inr ⟨?_, heq⟩
    have hql : q = l.path := hpre.eq_of_length_le (heq ▸ hq.length_le)
    cases hdata : l.data with
    | none => rfl
    | some b => exact absurd hql (hne (by rw [hdata]; rfl))
  · exact .inl ⟨hq.trans hpre, heq⟩

theorem apart_of_fits (hfile : k.data.isSome) (hfits : k.Fits ks)
    (hlast : lastAt? ks q = some bytes) (hne : q ≠ k.path) :
    ¬ k.path <+: q ∧ ¬ q <+: k.path := by
  have hclash := hfits _ (mem_of_lastAt? hlast)
  exact ⟨fun hq => hclash.1 ⟨hfile, .inl ⟨hq, Ne.symm hne⟩⟩,
    fun hq => hclash.2 ⟨rfl, .inl ⟨hq, hne⟩⟩⟩

theorem Shows.named_snoc (h : Shows d ks) (hk : k.path ≠ []) :
    ∀ l ∈ ks ++ [k], l.path ≠ [] := by
  intro l hl
  rcases List.mem_append.mp hl with hl | hl
  · exact h.named l hl
  · rw [List.mem_singleton.mp hl]
    exact hk

theorem Shows.put_file (h : Shows d ks) (hk : k.path ≠ []) (hdata : k.data = some bytes)
    (hfits : k.Fits ks) {d' : Directory}
    (hd' : Entry.dir d' = Entry.put (.file bytes) (.dir d) k.path) : Shows d' (ks ++ [k]) := by
  have hfile : k.data.isSome := by
    rw [hdata]
    rfl
  have hsorted : (Entry.dir d').Sorted := by
    rw [hd']
    exact Entry.sorted_put (x := .dir d) (e := .file bytes) h.sorted trivial k.path
  refine ⟨hsorted, h.named_snoc hk, fun q hq b => ?_, fun q hq => ?_⟩
  · rw [hd', Entry.at?_put_file_eq_file, h.file q hq, lastAt?_snoc]
    by_cases hself : q = k.path
    · subst hself
      rw [if_pos rfl, hdata]
      simp [eq_comm]
    · rw [if_neg (Ne.symm hself), or_iff_right fun hb => hself hb.1]
      exact and_iff_right_of_imp fun hlast => apart_of_fits hfile hfits hlast hself
  · rw [hd', Entry.at?_put_file_eq_dir, h.dir q hq, covers_snoc]
    constructor
    · rintro (⟨hpre, hne⟩ | ⟨-, hcovers⟩)
      · exact .inr ⟨hpre, fun _ => hne⟩
      · exact .inl hcovers
    · rintro (hcovers | ⟨hpre, hne⟩)
      · have hunder : ¬ k.path <+: q := fun hpre => not_covers_of_fits hfile hfits hpre hcovers
        by_cases habove : q <+: k.path
        · exact .inl ⟨habove, fun heq => hunder (heq ▸ List.prefix_rfl)⟩
        · exact .inr ⟨⟨hunder, habove⟩, hcovers⟩
      · exact .inl ⟨hpre, hne hfile⟩

theorem Shows.put_dir (h : Shows d ks) (hk : k.path ≠ []) (hdata : k.data = none)
    (hfits : k.Fits ks) {d' : Directory}
    (hd' : Entry.dir d' = Entry.put (.dir (d.dirAt k.path)) (.dir d) k.path) :
    Shows d' (ks ++ [k]) := by
  have hblocks : ¬ (Entry.dir d).Blocks k.path := (h.dir_fits_iff hdata).mpr hfits
  have hsorted : (Entry.dir d').Sorted := by
    rw [hd']
    have hsub : (d.dirAt k.path).Sorted := Directory.sorted_dirAt h.sorted k.path
    exact Entry.sorted_put (x := .dir d) (e := .dir _) h.sorted hsub k.path
  refine ⟨hsorted, h.named_snoc hk, fun q hq b => ?_, fun q hq => ?_⟩
  · rw [hd', Directory.at?_put_dirAt_eq_file hblocks, h.file q hq, lastAt?_snoc, hdata,
      Option.none_or, ite_self]
  · rw [hd', Directory.at?_put_dirAt_eq_dir, h.dir q hq, covers_snoc, hdata, or_comm]
    simp

theorem addEntry_of_none (he : wanted? only e = none) : addEntry only d e = .ok d := by
  unfold wanted? at he
  unfold addEntry
  cases hpath : keptPath? only e.path with
  | none => rfl
  | some path =>
    rw [hpath, Option.bind_some] at he
    dsimp only
    split
    · rfl
    · next hne =>
      rw [if_neg hne] at he
      cases hkind : e.kind <;> rw [hkind] at he <;> first | rfl | cases he

def settled {α : Type} : Except PathConflict α × Directory → Except ArchiveFault Directory
  | (.ok _, d) => .ok d
  | (.error c, _) => .error (.conflict c)

theorem settled_of_ok {α : Type} {a : α} {r : Except PathConflict α × Directory}
    (h : r.1 = .ok a) : settled r = .ok r.2 := by
  obtain ⟨_, _⟩ := r
  cases h
  rfl

theorem settled_of_error {α : Type} {c : PathConflict} {r : Except PathConflict α × Directory}
    (h : r.1 = .error c) : settled r = .error (.conflict c) := by
  obtain ⟨_, _⟩ := r
  cases h
  rfl

section Kept

variable {path : String} (hkept : keptPath? only e.path = some path)
  (hne : Path.segments path ≠ [])
include hkept hne

theorem addEntry_of_dir (hkind : e.kind = .directory) :
    addEntry only d e = settled (d.ensureDir (Path.segments path) path) := by
  simp only [addEntry, hkept, if_neg hne, hkind]
  split
  · next hr => rw [hr, settled]
  · next hr => rw [hr, settled]

theorem addEntry_of_file (hkind : e.kind = .file) (hsize : e.data.length = e.size) :
    addEntry only d e = settled (d.insertFile path e.data) := by
  simp only [addEntry, hkept, if_neg hne, hkind, if_neg (not_not_intro hsize)]
  split
  · next hr => rw [hr, settled]
  · next hr => rw [hr, settled]

end Kept

variable (h : Shows d ks) (he : wanted? only e = some k)
  (hsize : k.data.isSome → e.data.length = e.size)
include h he hsize

theorem addEntry_of_fits (hfits : k.Fits ks) :
    ∃ d', addEntry only d e = .ok d' ∧ Shows d' (ks ++ [k]) := by
  obtain ⟨path, hkept, hpath, hne, ⟨hkind, hdata⟩ | ⟨hkind, hdata⟩⟩ := wanted?_eq_some.mp he
  · have hblocks : ¬ (Entry.dir d).Blocks k.path := (h.dir_fits_iff hdata).mpr hfits
    obtain ⟨hok, hput⟩ := Directory.ensureDir_of_free hblocks path
    refine ⟨_, ?_, h.put_dir hne hdata hfits hput⟩
    rw [addEntry_of_dir hkept (hpath ▸ hne) hkind, hpath]
    exact settled_of_ok hok
  · have hfile : k.data.isSome := Option.isSome_of_eq_some hdata
    have hfree := (h.file_fits_iff hne hfile).mpr hfits
    rw [← hpath] at hfree hne
    obtain ⟨hok, hput⟩ := Directory.insertFile_of_free hne hfree.1 hfree.2 e.data
    rw [hpath] at hput
    refine ⟨_, ?_, h.put_file (hpath ▸ hne) hdata hfits hput⟩
    rw [addEntry_of_file hkept hne hkind (hsize hfile)]
    exact settled_of_ok hok

theorem addEntry_of_clash (hclash : ¬ k.Fits ks) : ∃ fault, addEntry only d e = .error fault := by
  obtain ⟨path, hkept, hpath, hne, ⟨hkind, hdata⟩ | ⟨hkind, hdata⟩⟩ := wanted?_eq_some.mp he
  · have hblocks : (Entry.dir d).Blocks k.path :=
      not_not.mp fun hfree => hclash ((h.dir_fits_iff hdata).mp hfree)
    obtain ⟨c, hc⟩ := Directory.ensureDir_of_blocks hblocks path
    rw [addEntry_of_dir hkept (hpath ▸ hne) hkind, hpath]
    exact ⟨_, settled_of_error hc⟩
  · have hfile : k.data.isSome := Option.isSome_of_eq_some hdata
    have hbusy : (Entry.dir d).Blocks k.path.dropLast ∨
        ∃ sub, (Entry.dir d).at? k.path = some (.dir sub) := by
      by_contra hnone
      obtain ⟨hblocks, hdir⟩ := not_or.mp hnone
      exact hclash ((h.file_fits_iff hne hfile).mp ⟨hblocks, not_exists.mp hdir⟩)
    rw [← hpath] at hbusy hne
    obtain ⟨c, hc⟩ := Directory.insertFile_of_clash hne hbusy e.data
    rw [addEntry_of_file hkept hne hkind (hsize hfile)]
    exact ⟨_, settled_of_error hc⟩

end Steps

section Runs

theorem addEntries_of_consistent (h : Shows d ks) (hwhole : Whole only es)
    (hks : Consistent (ks ++ wanted only es)) :
    ∃ d', addEntries only d es = .ok d' ∧ Shows d' (ks ++ wanted only es) := by
  induction es generalizing d ks with
  | nil =>
    refine ⟨d, rfl, ?_⟩
    rw [wanted, List.filterMap_nil, List.append_nil]
    exact h
  | cons e es ih =>
    have hrest : Whole only es := fun e' he' => hwhole e' (List.mem_cons_of_mem e he')
    cases hk : wanted? only e with
    | none =>
      rw [wanted_cons_of_none hk] at hks ⊢
      obtain ⟨d', hd', hshows⟩ := ih h hrest hks
      refine ⟨d', ?_, hshows⟩
      rw [addEntries, List.foldlM_cons, addEntry_of_none hk]
      exact hd'
    | some k =>
      rw [wanted_cons_of_some hk, List.append_cons] at hks ⊢
      have hsize := hwhole e List.mem_cons_self k hk
      have hfits : k.Fits ks := (consistent_snoc.mp hks.of_append).2
      obtain ⟨d₁, hd₁, hshows₁⟩ := addEntry_of_fits h hk hsize hfits
      obtain ⟨d', hd', hshows⟩ := ih hshows₁ hrest hks
      refine ⟨d', ?_, hshows⟩
      rw [addEntries, List.foldlM_cons, hd₁]
      exact hd'

theorem addEntries_of_clash (h : Shows d ks) (hwhole : Whole only es) (hks : Consistent ks)
    (hclash : ¬ Consistent (ks ++ wanted only es)) :
    ∃ fault, addEntries only d es = .error fault := by
  induction es generalizing d ks with
  | nil =>
    rw [wanted, List.filterMap_nil, List.append_nil] at hclash
    exact absurd hks hclash
  | cons e es ih =>
    have hrest : Whole only es := fun e' he' => hwhole e' (List.mem_cons_of_mem e he')
    rw [addEntries, List.foldlM_cons]
    cases hk : wanted? only e with
    | none =>
      rw [wanted_cons_of_none hk] at hclash
      rw [addEntry_of_none hk]
      exact ih h hrest hks hclash
    | some k =>
      rw [wanted_cons_of_some hk, List.append_cons] at hclash
      have hsize := hwhole e List.mem_cons_self k hk
      by_cases hfits : k.Fits ks
      · obtain ⟨d₁, hd₁, hshows₁⟩ := addEntry_of_fits h hk hsize hfits
        rw [hd₁]
        exact ih hshows₁ hrest (consistent_snoc.mpr ⟨hks, hfits⟩) hclash
      · obtain ⟨fault, hfault⟩ := addEntry_of_clash h hk hsize hfits
        rw [hfault]
        exact ⟨fault, rfl⟩

theorem Shows.unique {d' : Directory} (h : Shows d ks) (h' : Shows d' ls)
    (hfile : ∀ p bytes, lastAt? ks p = some bytes ↔ lastAt? ls p = some bytes)
    (hdir : ∀ p, Covers ks p ↔ Covers ls p) : d = d' := by
  refine Directory.ext_of_files_of_dirs h.sorted h'.sorted (fun p b => ?_) fun p hp => ?_
  · by_cases hp : p = []
    · subst hp
      exact iff_of_false nofun nofun
    · rw [Directory.lookup_eq_file, Directory.lookup_eq_file, h.file p hp, h'.file p hp, hfile]
  · rw [h.dir p hp, h'.dir p hp, hdir]

theorem size_of_addEntry {d' : Directory} (h : addEntry only d e = .ok d')
    (he : wanted? only e = some k) (hfile : k.data.isSome) : e.data.length = e.size := by
  obtain ⟨path, hkept, hpath, hne, ⟨-, hdata⟩ | ⟨hkind, -⟩⟩ := wanted?_eq_some.mp he
  · rw [hdata] at hfile
    cases hfile
  · by_contra hsize
    simp only [addEntry, hkept, hpath, if_neg hne, hkind, if_pos hsize] at h
    cases h

theorem whole_of_addEntries {d' : Directory} (h : addEntries only d es = .ok d') :
    Whole only es := by
  induction es generalizing d with
  | nil => exact fun e he => absurd he List.not_mem_nil
  | cons e es ih =>
    rw [addEntries, List.foldlM_cons] at h
    cases hfirst : addEntry only d e with
    | error f =>
      rw [hfirst] at h
      cases h
    | ok d₁ =>
      rw [hfirst] at h
      exact List.forall_mem_cons.mpr ⟨fun k => size_of_addEntry hfirst, ih h⟩

end Runs

section Containers

variable {bs : Bytes} (hes : Tar.entries bs = (es, none)) (hwhole : Whole only es)
include hes hwhole

omit hwhole in
theorem ofTar_eq_addEntries : ofTar bs only = addEntries only .empty es := by
  unfold ofTar
  rw [hes]
  exact bind_pure (addEntries only .empty es)

theorem shows_of_ofTar (hd : ofTar bs only = .ok d) :
    Consistent (wanted only es) ∧ Shows d (wanted only es) := by
  rw [ofTar_eq_addEntries hes] at hd
  have hnil : Consistent [] := fun k hk => absurd hk List.not_mem_nil
  by_cases hks : Consistent (wanted only es)
  · obtain ⟨d', hd', hshows⟩ := addEntries_of_consistent shows_empty hwhole hks
    cases hd.symm.trans hd'
    exact ⟨hks, hshows⟩
  · obtain ⟨fault, hfault⟩ := addEntries_of_clash shows_empty hwhole hnil hks
    cases hd.symm.trans hfault

theorem ofTar_of_consistent (hks : Consistent (wanted only es)) :
    ∃ d, ofTar bs only = .ok d := by
  rw [ofTar_eq_addEntries hes]
  obtain ⟨d, hd, -⟩ := addEntries_of_consistent shows_empty hwhole hks
  exact ⟨d, hd⟩

omit hes hwhole in
theorem whole_of_ofTar (hd : ofTar bs only = .ok d) :
    (Tar.entries bs).2 = none ∧ Whole only (Tar.entries bs).1 := by
  unfold ofTar at hd
  rcases hread : Tar.entries bs with ⟨es, fault⟩
  rw [hread] at hd
  cases hadd : addEntries only .empty es with
  | error f =>
    simp only [hadd] at hd
    cases hd
  | ok d' =>
    simp only [hadd] at hd
    cases fault with
    | none => exact ⟨rfl, whole_of_addEntries hadd⟩
    | some detail => cases hd

theorem ofTar_of_perm {bs' : Bytes} {es' : List Tar.Entry} (hes' : Tar.entries bs' = (es', none))
    (hperm : es.Perm es') (hn : ((wanted only es).map (·.path)).Nodup)
    (hd : ofTar bs only = .ok d) : ofTar bs' only = .ok d := by
  have hwanted : (wanted only es).Perm (wanted only es') := hperm.filterMap _
  obtain ⟨hks, hshows⟩ := shows_of_ofTar hes hwhole hd
  obtain ⟨d', hd'⟩ := ofTar_of_consistent hes' (hwhole.perm hperm) (hks.perm hwanted)
  obtain ⟨-, hshows'⟩ := shows_of_ofTar hes' (hwhole.perm hperm) hd'
  have hsame : d = d' := hshows.unique hshows'
    (fun p bytes => lastAt?_perm hwanted hn)
    fun p => ⟨fun hp => hp.perm hwanted, fun hp => hp.perm hwanted.symm⟩
  rw [hsame]
  exact hd'

/-- An archive is decoded unless a file stands in the way of another entry, wherever the two are
in it. The tree has the last file of each path and the directories that have to be there; so the
order matters only to files of one path. -/
theorem ofTar_any_order :
    ((∃ d, ofTar bs only = .ok d) ↔ Consistent (wanted only es)) ∧
    (∀ d, ofTar bs only = .ok d → ∀ p, p ≠ [] →
      (∀ bytes, d.lookup p = some (.file bytes) ↔ lastAt? (wanted only es) p = some bytes) ∧
      ((∃ sub, d.lookup p = some (.dir sub)) ↔ Covers (wanted only es) p)) ∧
    ∀ bs' es', Tar.entries bs' = (es', none) → es.Perm es' →
      ((wanted only es).map (·.path)).Nodup →
        ∀ d, ofTar bs only = .ok d ↔ ofTar bs' only = .ok d := by
  refine ⟨⟨?_, ofTar_of_consistent hes hwhole⟩, fun d hd p hp => ?_, ?_⟩
  · rintro ⟨d, hd⟩
    exact (shows_of_ofTar hes hwhole hd).1
  · obtain ⟨-, hshows⟩ := shows_of_ofTar hes hwhole hd
    rw [Directory.lookup_eq_at? d hp]
    exact ⟨hshows.file p hp, hshows.dir p hp⟩
  · intro bs' es' hes' hperm hn d
    have hn' : ((wanted only es').map (·.path)).Nodup :=
      ((hperm.filterMap _).map _).nodup_iff.mp hn
    exact ⟨ofTar_of_perm hes hwhole hes' hperm hn,
      ofTar_of_perm hes' (hwhole.perm hperm) hes hperm.symm hn'⟩

end Containers

def filled (n : Nat) (bs : Bytes) : Bytes :=
  bs ++ List.replicate (n - bs.length) 0

def member (name : String) (kind : UInt8) (data : Bytes) : Bytes :=
  let digits (n : Nat) : Bytes := (Nat.toDigits 8 n).map fun c => UInt8.ofNat c.toNat
  let lead := filled 124 (Utf8.encode name) ++ filled 24 (digits data.length)
  let sum := lead.foldl (fun n (b : UInt8) => n + b.toNat) (8 * 0x20 + kind.toNat)
  lead ++ filled 8 (digits sum) ++ filled 356 [kind] ++
    if data.isEmpty then [] else filled Tar.blockSize data

def sampleDirectory : Tar.Entry := ⟨Utf8.encode "./kept/b/", .directory, 0, []⟩

def sampleFile : Tar.Entry := ⟨Utf8.encode "kept/a", .file, 2, [1, 2]⟩

theorem ofTar_any_order_sample :
    ∃ d, ofTar (member "./kept/b/" 0x35 [] ++ member "kept/a" 0x30 [1, 2]) (some "kept/") = .ok d ∧
      ofTar (member "kept/a" 0x30 [1, 2] ++ member "./kept/b/" 0x35 []) (some "kept/") = .ok d ∧
      d.lookup ["a"] = some (.file [1, 2]) ∧ ∃ sub, d.lookup ["b"] = some (.dir sub) := by
  have hwhole : Whole (some "kept/") [sampleDirectory, sampleFile] := by
    intro e he _ _ _
    rcases List.mem_pair.mp he with rfl | rfl <;> rfl
  have hwanted : wanted (some "kept/") [sampleDirectory, sampleFile] =
      [⟨["b"], none⟩, ⟨["a"], some [1, 2]⟩] := by decide +kernel
  obtain ⟨hsuccess, hshown, hperm⟩ := ofTar_any_order
    (show Tar.entries (member "./kept/b/" 0x35 [] ++ member "kept/a" 0x30 [1, 2]) =
      ([sampleDirectory, sampleFile], none) by decide +kernel) hwhole
  rw [hwanted] at hsuccess hshown hperm
  obtain ⟨d, hd⟩ := hsuccess.mpr (by decide)
  refine ⟨d, hd, (hperm _ [sampleFile, sampleDirectory] (by decide +kernel) (.swap ..)
    (by decide) d).mp hd, ?_, ?_⟩
  · exact ((hshown d hd ["a"] (by decide)).1 [1, 2]).mpr (by decide)
  · exact (hshown d hd ["b"] (by decide)).2.mpr ⟨⟨["b"], none⟩, by decide⟩

end Buildbox.Archive
