import Buildbox.Proofs.Host.Reading
import Buildbox.Proofs.Stage.Mounted
import Buildbox.Proofs.Utf8.Reading

/-! The files of a project as the compiler reads them. Each goes over those before it in the order
of names, so a file is lost when a later one takes its path, or lies above or below it. -/

namespace Buildbox.Artifact

open Host (fresh)

variable {c : Config} {library support : Directory} {files : NameMap String} {t : MountTable}
  {path : String} {bytes : Bytes}

theorem reads_iff_supplied (ht : mounts c library support files = .ok t) (args env : List String)
    (stdout stderr : Redirect) (budget : UInt64) (deadline : Deadline) :
    (fresh args env t stdout stderr budget deadline).Reads 3 path bytes ↔
      ∃ segments, Host.walk [] (Path.parts path) = .ok segments ∧
        Supplied c.assets support files segments bytes := by
  obtain ⟨root, hroot, hsupplied⟩ :=
    mounts_of_segments (exists_mounts_iff.mp ⟨t, ht⟩) library support files
  cases ht.symm.trans hroot
  generalize hh : fresh args env _ stdout stderr budget deadline = h
  have hthree : h.fds.get? 3 = some (.dir 0 [] true) := by
    rw [← hh]
    rfl
  have hnode (segments : List String) : h.nodeAt? 0 segments = some (.file bytes) ↔
      root.lookup segments = some (.file bytes) := by
    rw [← hh]
    by_cases hnil : segments = []
    · subst hnil
      exact iff_of_false nofun nofun
    · simp [Host.nodeAt?, fresh, Host.new, hnil]
  simp only [Host.reads_iff, Host.resolve_eq_ok, hthree]
  constructor
  · rintro ⟨i, segments, ⟨base, preopen, hdir, hwalk⟩, hb⟩
    cases hdir
    exact ⟨segments, hwalk, (hsupplied segments bytes).mp ((hnode segments).mp hb)⟩
  · rintro ⟨segments, hwalk, hs⟩
    exact ⟨0, segments, ⟨[], true, rfl, hwalk⟩,
      (hnode segments).mpr ((hsupplied segments bytes).mpr hs)⟩

theorem supplied_self_iff {name text : String} (hfile : files.get? name = some text)
    (hname : Path.segments name ≠ []) :
    Supplied c.assets support files (Path.segments name) (Utf8.encode text) ↔
      ∃ last, Deciding files (Path.segments name) last text ∧
        Path.segments last = Path.segments name := by
  constructor
  · generalize hbytes : Utf8.encode text = bytes
    rintro (⟨hd, hp⟩ | ⟨hd, -, -⟩)
    · rw [Utf8.encode_inj hbytes]
      exact ⟨_, hd, hp⟩
    · exact absurd ⟨hname, .inl List.prefix_rfl⟩ (hd name text hfile)
  · rintro ⟨last, hd, hp⟩
    exact .file hd hp

/-- Whatever files there are: if the support sources have a place, the trees for the compiler are
made, and under the first descriptor of the guest, which is called `.`, it opens and reads the
files. A file whose name has segments, none of which goes up, is read as its text just if the last
name at its path, above it or below it has this path and this text. -/
theorem mounts_read (c : Config) (library support : Directory) (files : NameMap String) :
    ((∃ t, mounts c library support files = .ok t) ↔ Path.segments c.assets.supportDir ≠ []) ∧
    ∀ t, mounts c library support files = .ok t →
      ∀ args env stdout stderr budget deadline,
        let h := fresh args env t stdout stderr budget deadline
        h.fdPrestatName 3 = .ok "." ∧
        ∀ name text, files.get? name = some text →
          Path.segments name ≠ [] → ".." ∉ Path.segments name →
            (h.Reads 3 name (Utf8.encode text) ↔
              ∃ last, Deciding files (Path.segments name) last text ∧
                Path.segments last = Path.segments name) := by
  refine ⟨exists_mounts_iff, fun t ht args env stdout stderr budget deadline => ⟨?_, ?_⟩⟩
  · obtain ⟨root, hroot, -⟩ :=
      mounts_of_segments (exists_mounts_iff.mp ⟨t, ht⟩) library support files
    cases ht.symm.trans hroot
    rfl
  · intro name text hfile hname hups
    rw [reads_iff_supplied ht, ← supplied_self_iff hfile hname]
    constructor
    · rintro ⟨segments, hwalk, hs⟩
      cases (Host.walk_parts hups).symm.trans hwalk
      exact hs
    · exact fun hs => ⟨Path.segments name, Host.walk_parts hups, hs⟩

theorem mounts_read_later :
    let files := NameMap.ofList [("./a", "x"), ("a", "y")]
    ∃ t, mounts {} .empty .empty files = .ok t ∧
      let h := fresh [] [] t .discard .discard 0 none
      h.Reads 3 "a" (Utf8.encode "y") ∧ ¬ h.Reads 3 "./a" (Utf8.encode "x") := by
  intro files
  obtain ⟨hmade, hread⟩ := mounts_read {} .empty .empty files
  obtain ⟨t, ht⟩ := hmade.mpr (by decide)
  obtain ⟨-, hread⟩ := hread t ht [] [] .discard .discard 0 none
  have hdecides : Deciding files ["a"] "a" "y" := deciding_iff.mpr (by decide)
  refine ⟨t, ht, ?_, ?_⟩
  · exact (hread "a" "y" (by decide) (by decide) (by decide)).mpr ⟨"a", hdecides, by decide⟩
  · rw [hread "./a" "x" (by decide) (by decide) (by decide)]
    rintro ⟨last, hd, -⟩
    have htext : "x" = "y" := (hd.unique hdecides).2
    exact absurd htext (by decide)

theorem mounts_lose_files :
    let lost := [("", "v"), ("../e", "w"), ("./a", "x"), ("b", "y")]
    let files := NameMap.ofList (lost ++ [("a", "u"), ("b/c", "z")])
    ∃ t, mounts {} .empty .empty files = .ok t ∧
      ∀ f ∈ lost, files.get? f.1 = some f.2 ∧
        ¬ (fresh [] [] t .discard .discard 0 none).Reads 3 f.1 (Utf8.encode f.2) := by
  refine ⟨_, rfl, ?_⟩
  decide +kernel

end Buildbox.Artifact
