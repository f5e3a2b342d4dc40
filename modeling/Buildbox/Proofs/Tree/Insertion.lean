import Buildbox.Proofs.Lists
import Buildbox.Proofs.Tree.Overlay

/-! Files put into a tree where there is room for them. One for which there is none is refused and
leaves the tree as it was: a directory that was made on the way to it would have held nothing that
could be in the way. -/

namespace Buildbox

namespace Directory

theorem insert_of_get? {d : Directory} {n : String} {e : Entry} (hd : d.Sorted)
    (h : d.get? n = some e) : d.insert n e = d := by
  induction d using consInduction with
  | empty => cases h
  | cons k b rest ih =>
    obtain ⟨hbelow, -, hrest⟩ := sorted_cons.mp hd
    rw [get?_cons] at h
    rw [insert_cons]
    by_cases hk : k = n
    · subst hk
      rw [if_pos rfl] at h
      rw [if_neg (String.lt_irrefl k), if_pos rfl, Option.some.inj h]
    · rw [if_neg hk] at h
      have hlt : k < n := hbelow n (mem_names_of_get? h)
      rw [if_neg fun hgt => String.lt_irrefl n (String.lt_trans hgt hlt), if_neg (Ne.symm hk),
        ih hrest h]

end Directory

theorem Entry.put_of_at? {e x : Entry} {p : List String} (hx : x.Sorted)
    (h : x.at? p = some e) : put e x p = x := by
  induction p generalizing x with
  | nil => cases x <;> exact (Option.some.inj h).symm
  | cons n p ih =>
    cases x with
    | file bytes => cases h
    | dir d =>
      obtain ⟨y, hy, he⟩ := Option.bind_eq_some_iff.mp h
      rw [put_cons, asDir, hy, Option.getD_some, ih (Directory.sorted_of_get? hx hy) he,
        Directory.insert_of_get? hx hy]

namespace Directory

open Entry (put Blocks)

variable {d d' : Directory} {path : String} {bytes b : Bytes} {p q : List String}

/-- Holds when there is no room for a file at a path: the path has no segment, something above it is
a file, or it is a directory itself. -/
def Refuses (d : Directory) (p : List String) : Prop :=
  p = [] ∨ (∃ q b, q <+: p ∧ q ≠ p ∧ d.lookup q = some (.file b)) ∨
    ∃ sub, d.lookup p = some (.dir sub)

theorem blocks_dropLast_iff (hp : p ≠ []) : (Entry.dir d).Blocks p.dropLast ↔
    ∃ q b, q <+: p ∧ q ≠ p ∧ d.lookup q = some (.file b) := by
  refine exists_congr fun q => exists_congr fun b => ?_
  rw [prefix_dropLast_iff hp, and_assoc, lookup_eq_file]

theorem refuses_iff (hp : p ≠ []) : d.Refuses p ↔
    (Entry.dir d).Blocks p.dropLast ∨ ∃ sub, (Entry.dir d).at? p = some (.dir sub) := by
  rw [Refuses, or_iff_right hp, blocks_dropLast_iff hp, lookup_eq_at? d hp]

theorem within_of_blocks_stays {α : Type} {act : Directory → Except PathConflict α × Directory}
    (hd : d.Sorted) (h : (Entry.dir d).Blocks p) : (within path act d p).2 = d := by
  induction p generalizing d with
  | nil => exact absurd h Entry.blocks_nil.mp
  | cons n p ih =>
    obtain ⟨y, hy, hblocks⟩ := Entry.blocks_cons.mp h
    rw [within, hy]
    cases y with
    | file old => rfl
    | dir sub =>
      have hsub : sub.Sorted := sorted_of_get? hd hy
      change d.insert n (.dir (within path act sub p).2) = d
      rw [ih hsub hblocks, insert_of_get? hd hy]

section Insertion

theorem insertFile_of_refuses (hd : d.Sorted) (h : d.Refuses (Path.segments path))
    (bytes : Bytes) : ∃ c, d.insertFile path bytes = (.error c, d) := by
  by_cases hp : Path.segments path = []
  · exact ⟨.emptyPath path, by simp [insertFile, hp]⟩
  have hclash := (refuses_iff hp).mp h
  obtain ⟨c, hc⟩ := insertFile_of_clash hp hclash bytes
  refine ⟨c, Prod.ext hc ?_⟩
  obtain ⟨ps, n, hps⟩ := (Path.segments path).eq_nil_or_concat.resolve_left hp
  rw [List.concat_eq_append] at hps
  rw [hps, List.dropLast_concat] at hclash
  rw [insertFile_of_segments hps]
  by_cases hblocks : (Entry.dir d).Blocks ps
  · exact within_of_blocks_stays hd hblocks
  -- The directories above are all there, since the last of them holds one of that name.
  · obtain ⟨sub, hsub⟩ := hclash.resolve_left hblocks
    obtain ⟨-, hput⟩ := within_of_free path (putFile n path bytes) hblocks
    rw [putFile, get?_dirAt, hsub] at hput
    have hat : (Entry.dir d).at? ps = some (.dir (d.dirAt ps)) := by
      rw [Entry.at?_append] at hsub
      cases hparent : (Entry.dir d).at? ps with
      | none =>
        rw [hparent] at hsub
        cases hsub
      | some e =>
        rw [hparent, Option.bind_some] at hsub
        cases e with
        | file old => cases hsub
        | dir parent => rw [dirAt_of_dir hparent]
    exact Entry.dir.inj (hput.trans (Entry.put_of_at? (x := .dir d) hd hat))

theorem insertFile_of_not_refuses (h : ¬ d.Refuses (Path.segments path)) (bytes : Bytes) :
    d.insertFile path bytes = (.ok (), d.overlayFile path bytes) := by
  have hp : Path.segments path ≠ [] := fun hp => h (.inl hp)
  rw [refuses_iff hp, not_or, not_exists] at h
  obtain ⟨hok, hput⟩ := insertFile_of_free hp h.1 h.2 bytes
  exact Prod.ext hok (Entry.dir.inj (hput.trans (overlayAt_eq_put d bytes hp).symm))

theorem lookup_overlayFile_of_ne (h : ¬ d.Refuses (Path.segments path))
    (hq : q ≠ Path.segments path) :
    (d.overlayFile path bytes).lookup q = some (.file b) ↔ d.lookup q = some (.file b) := by
  rw [lookup_eq_file, lookup_eq_file, at?_overlayFile]
  split
  · next hdecides =>
    refine iff_of_false (fun heq => hq heq.1.symm) fun hfile => h ?_
    obtain ⟨hp, ⟨rest, rfl⟩ | habove⟩ := hdecides
    · have hrest : rest ≠ [] := fun hnil => hq (by rw [hnil, List.append_nil])
      rw [Entry.at?_append] at hfile
      obtain ⟨x, hx, hfile⟩ := Option.bind_eq_some_iff.mp hfile
      cases x with
      | dir sub => exact (refuses_iff hp).mpr (.inr ⟨sub, hx⟩)
      | file old =>
        obtain ⟨n, rest, rfl⟩ := List.exists_cons_of_ne_nil hrest
        cases hfile
    · exact .inr (.inl ⟨q, b, habove, hq, lookup_eq_file.mpr hfile⟩)
  · rfl

/-- A file is put into a tree unless its path has no segment, something above it is a file or it
is a directory. If it is not, the tree stays as it was. If it is, the tree is what an overlay of the
file makes of it: the file is read at its path, and no other one comes, goes or changes. -/
theorem insertFile_all_or_nothing (hd : d.Sorted) (path : String) (bytes : Bytes) :
    ((∃ c, (d.insertFile path bytes).1 = .error c) ↔ d.Refuses (Path.segments path)) ∧
    (∀ c d', d.insertFile path bytes = (.error c, d') → d' = d) ∧
    ∀ d', d.insertFile path bytes = (.ok (), d') →
      d' = d.overlayFile path bytes ∧ d'.read? path = some bytes ∧
        ∀ q, q ≠ Path.segments path → ∀ b,
          d'.lookup q = some (.file b) ↔ d.lookup q = some (.file b) := by
  by_cases h : d.Refuses (Path.segments path)
  · obtain ⟨c, hc⟩ := insertFile_of_refuses hd h bytes
    rw [hc]
    refine ⟨iff_of_true ⟨c, rfl⟩ h, ?_, nofun⟩
    rintro _ _ ⟨⟩
    rfl
  · rw [insertFile_of_not_refuses h bytes]
    refine ⟨iff_of_false nofun h, nofun, ?_⟩
    rintro _ ⟨⟩
    have hp : Path.segments path ≠ [] := fun hp => h (.inl hp)
    have hself : (d.overlayFile path bytes).lookup (Path.segments path) = some (.file bytes) := by
      rw [lookup_eq_file, at?_overlayFile, if_pos ⟨hp, .inl List.prefix_rfl⟩]
      exact ⟨rfl, rfl⟩
    refine ⟨rfl, ?_, fun q hq b => lookup_overlayFile_of_ne h hq⟩
    rw [read?, hself]
    rfl

theorem insertFile_below_file :
    let d : Directory := .dir "a" (.dir "b" (.file "c" [1] .empty) .empty) (.file "f" [2] .empty)
    d.Sorted ∧ (d.insertFile "a/b/c/x/y" [3]).2 = d ∧
      (d.insertFile "./a//b/x" [3]).2.read? "a/b/x" = some [3] ∧
      (d.insertFile "./a//b/x" [3]).2.lookup ["f"] = some (.file [2]) := by
  intro d
  have hd : d.Sorted :=
    ⟨by decide, ⟨by decide, ⟨by decide, trivial⟩, trivial⟩, by decide, trivial⟩
  obtain ⟨-, hstays, -⟩ := insertFile_all_or_nothing hd "a/b/c/x/y" [3]
  obtain ⟨-, -, hputs⟩ := insertFile_all_or_nothing hd "./a//b/x" [3]
  obtain ⟨-, hread, hother⟩ := hputs _ (Prod.ext (by decide) rfl)
  refine ⟨hd, hstays (.fileInPath "c" "a/b/c/x/y") _ (Prod.ext (by decide) rfl), ?_, ?_⟩
  · have hsame : Path.segments "a/b/x" = Path.segments "./a//b/x" := by decide
    rw [read?, hsame]
    exact hread
  · exact (hother ["f"] (by decide) [2]).mpr rfl

end Insertion

end Directory

end Buildbox
