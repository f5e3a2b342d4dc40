import Buildbox.Proofs.Disk.Places

/-! What the accesses to a disk do to its files. Creating directories changes no file, a write
sets the file at its place, and a move does so with the files at its two places. -/

namespace Buildbox.Disk

variable {d d' : Disk} {ps q : List String} {path dir name : String} {bytes b : Bytes}

structure Turns (d d' : Disk) (q : List String) (o : Option Bytes) : Prop where
  file : d'.fileAt? q = o
  others : ∀ r, r ≠ q → d'.fileAt? r = d.fileAt? r
  dirs : KeepsDirs d d'

structure Grows (d d' : Disk) : Prop where
  files : ∀ q, d'.fileAt? q = d.fileAt? q
  dirs : KeepsDirs d d'

theorem Grows.refl (d : Disk) : Grows d d :=
  ⟨fun _ => rfl, .refl d⟩

theorem Grows.trans {d'' : Disk} (h : Grows d d') (h' : Grows d' d'') : Grows d d'' :=
  ⟨fun q => (h'.files q).trans (h.files q), h.dirs.trans h'.dirs⟩

theorem Turns.grows {o : Option Bytes} (h : Turns d d' q o) (ho : d.fileAt? q = o) :
    Grows d d' := by
  refine ⟨fun r => ?_, h.dirs⟩
  by_cases hr : r = q
  · rw [hr, h.file, ho]
  · exact h.others r hr

variable {f : Directory → Directory} {sub : Directory} {n : String}

theorem fileAt?_modifyDirAt (hf : ∀ sub m, m ≠ n → (f sub).get? m = sub.get? m)
    (h : ¬ ps ++ [n] <+: q) : fileAt? (d.modifyDirAt f ps) q = d.fileAt? q := by
  unfold fileAt?
  induction ps generalizing d q with
  | nil =>
    cases q with
    | nil => rfl
    | cons m q =>
      have hm : m ≠ n := fun he => h (he ▸ List.prefix_append [m] q)
      rw [Directory.modifyDirAt, Entry.at?_cons, Entry.at?_cons, Entry.asDir, Entry.asDir,
        hf d m hm]
  | cons p ps ih =>
    rw [Directory.modifyDirAt_cons]
    cases hp : (d.get? p).bind Entry.asDir? with
    | none => rfl
    | some s =>
      cases q with
      | nil => rfl
      | cons m q =>
        simp only [Entry.at?_cons, Entry.asDir, Directory.get?_insert]
        split
        · next heq =>
          subst heq
          obtain ⟨x, hx, hs⟩ := Option.bind_eq_some_iff.mp hp
          cases x with
          | file bytes => cases hs
          | dir t =>
            cases hs
            rw [hx]
            exact ih fun hpre => h (List.prefix_cons_inj p |>.mpr hpre)
        · rfl

theorem bind_at?_cons_eq_none {o : Option Entry} (ho : ∀ s, o = some (.dir s) → s = .empty)
    (m : String) (rs : List String) : o.bind (·.at? (m :: rs)) = none := by
  cases o with
  | none => rfl
  | some e =>
    cases e with
    | file bytes => rfl
    | dir s =>
      rw [ho s rfl]
      rfl

theorem turns_modifyDirAt (hf : ∀ sub m, m ≠ n → (f sub).get? m = sub.get? m)
    (hd : d.dirAt? ps = some sub) (hbefore : ∀ s, sub.get? n ≠ some (.dir s))
    (hafter : ∀ s, (f sub).get? n = some (.dir s) → s = .empty) :
    Turns d (d.modifyDirAt f ps) (ps ++ [n]) (((f sub).get? n).bind Entry.asFile?) := by
  have hmodified : (d.modifyDirAt f ps).dirAt? ps = some (f sub) := by
    rw [Directory.dirAt?_modifyDirAt_self, hd]
    rfl
  refine ⟨?_, fun r hr => ?_, fun r hr => ?_⟩
  · rw [fileAt?, Directory.at?_below hmodified]
    cases (f sub).get? n with
    | none => rfl
    | some e => cases e <;> rfl
  · by_cases hbelow : ps ++ [n] <+: r
    -- Neither before nor afterwards is there anything below the name.
    · obtain ⟨rs, rfl⟩ := hbelow
      cases rs with
      | nil => exact absurd (List.append_nil _) hr
      | cons m rs =>
        rw [List.append_assoc, List.singleton_append, fileAt?, fileAt?,
          Directory.at?_below hmodified, Directory.at?_below hd]
        have hold := bind_at?_cons_eq_none (fun s hs => absurd hs (hbefore s)) m rs
        have hnew := bind_at?_cons_eq_none hafter m rs
        rw [hold, hnew]
    · exact fileAt?_modifyDirAt hf hbelow
  · by_cases hbelow : ps ++ [n] <+: r
    · have hat := Directory.isSome_dirAt?_of_prefix hr hbelow
      rw [Directory.dirAt?_eq_at?, Directory.at?_below hd] at hat
      obtain ⟨s, hs⟩ := Option.isSome_iff_exists.mp hat
      obtain ⟨x, hx, hs⟩ := Option.bind_eq_some_iff.mp hs
      obtain ⟨y, hy, hx⟩ := Option.bind_eq_some_iff.mp hx
      cases y with
      | file bytes =>
        cases hx
        cases hs
      | dir t => exact absurd hy (hbefore t)
    · rw [Directory.isSome_dirAt?_modifyDirAt hf hbelow]
      exact hr

theorem get?_insert_of_ne {e : Entry} {m : String} (h : m ≠ n) (sub : Directory) :
    (sub.insert n e).get? m = sub.get? m := by
  rw [Directory.get?_insert, if_neg (Ne.symm h)]

theorem grows_makeDir (h : makeDir d ps = .ok d') : Grows d d' := by
  unfold makeDir at h
  cases hparent : parentOfParts d (ps.reverse.dropWhile (· = "")).reverse with
  | error fault =>
    rw [hparent] at h
    cases h
  | ok found =>
    obtain ⟨parents, name, parent⟩ := found
    obtain ⟨-, -, hdir, -⟩ := parentOfParts_eq_ok.mp hparent
    rw [hparent] at h
    simp only [bind, Except.bind] at h
    split at h
    · cases h
    · next hfree =>
      cases h
      have hnone : parent.get? name = none := by
        simpa using (not_or.mp (not_or.mp hfree).2).2
      have hturns := turns_modifyDirAt (f := (·.insert name (.dir .empty)))
        (fun _ _ hm => get?_insert_of_ne hm _) hdir (by simp [hnone])
        (fun s hs => by simpa [Directory.get?_insert, eq_comm] using hs)
      refine hturns.grows ?_
      rw [fileAt?, Directory.at?_below hdir, hnone, Directory.get?_insert, if_pos rfl]
      rfl

theorem grows_makeDirBelow {above : Disk → Except Fault Unit × Disk}
    (habove : ∀ d, Grows d (above d).2) (ps : List String) (d : Disk) :
    Grows d (makeDirBelow above ps d).2 := by
  unfold makeDirBelow
  split
  · have hgrows := habove d
    split
    · next mid hok =>
      rw [hok] at hgrows
      refine hgrows.trans ?_
      cases hmade : makeDir mid ps with
      | ok made => exact grows_makeDir hmade
      | error fault => exact .refl mid
    · exact hgrows
  · cases hmade : makeDir d ps with
    | ok made => exact grows_makeDir hmade
    | error fault => exact .refl d

theorem grows_makeDirs (names : List String) (d : Disk) : Grows d (makeDirs names d).2 := by
  induction names generalizing d with
  | nil => exact .refl d
  | cons name above ih => exact grows_makeDirBelow ih _ d

theorem grows_createDirs (d : Disk) (path : String) : Grows d (createDirs d path).2 := by
  unfold createDirs
  cases usableParts path with
  | error fault => exact .refl d
  | ok ps =>
    dsimp only
    split
    · exact .refl d
    · exact grows_makeDirBelow (grows_makeDirs _) ps d

theorem writeFile_joinPath_eq_ok (hn : Path.IsName name) :
    writeFile d (joinPath dir name) bytes = .ok d' ↔ Follows d (joinPath dir name) ∧
      ∃ parent, d.dirAt? (place dir) = some parent ∧ (∀ s, parent.get? name ≠ some (.dir s)) ∧
        d' = d.modifyDirAt (·.insert name (.file bytes)) (place dir) := by
  unfold writeFile
  cases hparent : parentOf d (joinPath dir name) with
  | error fault =>
    refine iff_of_false nofun ?_
    rintro ⟨hfollows, parent, hdir, -⟩
    rw [(parentOf_joinPath_eq_ok hn).mpr ⟨hfollows, rfl, rfl, hdir⟩] at hparent
    cases hparent
  | ok found =>
    obtain ⟨parents, n, parent⟩ := found
    obtain ⟨hfollows, rfl, rfl, hdir⟩ := (parentOf_joinPath_eq_ok hn).mp hparent
    obtain ⟨hblank, -, hdot, hup⟩ := hn
    have hname : ¬ (n = "" ∨ n = "." ∨ n = "..") :=
      not_or.mpr ⟨hblank, not_or.mpr ⟨hdot, hup⟩⟩
    simp only [bind, Except.bind, if_neg hname, hfollows, hdir, true_and, Option.some.injEq,
      exists_eq_left']
    cases hget : parent.get? n with
    | none => simp [pure, Except.pure, eq_comm]
    | some e =>
      cases e <;> simp [pure, Except.pure, throw, throwThe, MonadExceptOf.throw, eq_comm]

theorem turns_writeFile (hn : Path.IsName name)
    (h : writeFile d (joinPath dir name) bytes = .ok d') :
    Turns d d' (place (joinPath dir name)) (some bytes) := by
  obtain ⟨-, parent, hdir, hfree, rfl⟩ := (writeFile_joinPath_eq_ok hn).mp h
  have hturns := turns_modifyDirAt (f := (·.insert name (.file bytes)))
    (fun _ _ hm => get?_insert_of_ne hm _) hdir hfree
    (fun s hs => by simp [Directory.get?_insert] at hs)
  rw [Directory.get?_insert, if_pos rfl] at hturns
  rw [place_joinPath hn]
  exact hturns

theorem readFile_writeFile (hn : Path.IsName name)
    (h : writeFile d (joinPath dir name) bytes = .ok d') :
    readFile d' (joinPath dir name) = .ok bytes := by
  have hturns := turns_writeFile hn h
  obtain ⟨hfollows, -⟩ := (writeFile_joinPath_eq_ok hn).mp h
  exact readFile_eq_ok.mpr ⟨hturns.dirs.follows hfollows, hturns.file⟩

theorem turns_erase (hn : Path.IsName name) (hfile : d.fileAt? (place (joinPath dir name)) = some b) :
    Turns d (d.modifyDirAt (·.erase name) (place dir)) (place (joinPath dir name)) none := by
  rw [place_joinPath hn] at hfile ⊢
  obtain ⟨x, hx, hat⟩ := Option.bind_eq_some_iff.mp
    ((Entry.at?_append (.dir d) (place dir) [name]).symm.trans (fileAt?_eq_some.mp hfile))
  cases x with
  | file bytes => cases hat
  | dir sub =>
    obtain ⟨e, he, hat⟩ := Option.bind_eq_some_iff.mp hat
    have hthere : sub.get? name = some (.file b) := by
      have heq : some e = some (.file b) := by
        rw [← hat]
        cases e <;> rfl
      rw [he, heq]
    have hgone {s : Directory} : (s.erase name).get? name = none := by
      rw [Directory.get?_erase, if_pos rfl]
    have hturns := turns_modifyDirAt (f := (·.erase name))
      (fun s m hm => by rw [Directory.get?_erase, if_neg (Ne.symm hm)])
      (Directory.dirAt?_eq_some.mpr hx)
      (fun s hs => by rw [hthere] at hs; cases hs) (fun s hs => by rw [hgone] at hs; cases hs)
    rw [hgone] at hturns
    exact hturns

theorem renameFile_joinPath {source target : String} (hs : Path.IsName source)
    (ht : Path.IsName target) (hne : source ≠ target)
    (h : renameFile d (joinPath dir source) (joinPath dir target) = .ok d') :
    ∃ b mid, readFile d (joinPath dir source) = .ok b ∧
      writeFile d (joinPath dir target) b = .ok mid ∧
        Turns mid d' (place (joinPath dir source)) none := by
  unfold renameFile at h
  cases hread : readFile d (joinPath dir source) with
  | error fault =>
    rw [hread] at h
    cases h
  | ok b =>
    cases hparent : parentOf d (joinPath dir source) with
    | error fault =>
      rw [hread, hparent] at h
      cases h
    | ok found =>
      obtain ⟨parents, n, parent⟩ := found
      obtain ⟨-, rfl, rfl, -⟩ := (parentOf_joinPath_eq_ok hs).mp hparent
      cases hwrite : writeFile d (joinPath dir target) b with
      | error fault =>
        rw [hread, hparent] at h
        simp only [bind, Except.bind, hwrite] at h
        cases h
      | ok mid =>
        rw [hread, hparent] at h
        simp only [bind, Except.bind, hwrite, pure, Except.pure, Except.ok.injEq] at h
        refine ⟨b, mid, rfl, hwrite, ?_⟩
        have hplaces : place (joinPath dir n) ≠ place (joinPath dir target) := by
          rw [place_joinPath hs, place_joinPath ht]
          exact fun heq => hne (by simpa using heq)
        have hkept := (turns_writeFile ht hwrite).others _ hplaces
        rw [(readFile_eq_ok.mp hread).2] at hkept
        rw [← h]
        exact turns_erase hs hkept

theorem exists_renameFile {source target : String} {mid : Disk} (hs : Path.IsName source)
    (hread : readFile d (joinPath dir source) = .ok b)
    (hwrite : writeFile d (joinPath dir target) b = .ok mid) :
    ∃ d', renameFile d (joinPath dir source) (joinPath dir target) = .ok d' := by
  obtain ⟨hfollows, -⟩ := readFile_eq_ok.mp hread
  obtain ⟨parent, hdir⟩ := Option.isSome_iff_exists.mp ((follows_joinPath hs dir).mp hfollows).2.1
  have hparent := (parentOf_joinPath_eq_ok hs).mpr ⟨hfollows, rfl, rfl, hdir⟩
  refine ⟨mid.modifyDirAt (·.erase source) (place dir), ?_⟩
  unfold renameFile
  rw [hread, hparent]
  simp only [bind, Except.bind, hwrite, pure, Except.pure]

end Buildbox.Disk
