import Buildbox.Disk
import Buildbox.Proofs.Text.LineBuffers
import Buildbox.Proofs.Tree.Placing

/-! The places that paths mean on a disk, told by their parts alone, and what is found there. A
path leads to its place when the directories on the way are there. -/

namespace Buildbox

namespace Directory

variable {d sub : Directory} {ps qs : List String}

theorem at?_below (hd : d.dirAt? ps = some sub) (n : String) (qs : List String) :
    (Entry.dir d).at? (ps ++ n :: qs) = (sub.get? n).bind (·.at? qs) := by
  rw [Entry.at?_append, dirAt?_eq_some.mp hd, Option.bind_some, Entry.at?_cons, Entry.asDir]

theorem isSome_dirAt?_of_prefix (hd : (d.dirAt? ps).isSome) (h : qs <+: ps) :
    (d.dirAt? qs).isSome := by
  obtain ⟨rs, rfl⟩ := h
  obtain ⟨sub, hsub⟩ := Option.isSome_iff_exists.mp hd
  rw [dirAt?_append, Option.bind_eq_some_iff] at hsub
  obtain ⟨mid, hmid, -⟩ := hsub
  exact Option.isSome_iff_exists.mpr ⟨mid, hmid⟩

end Directory

namespace Disk

variable {d d' : Disk} {here there ps qs q : List String} {path dir name : String} {bytes b : Bytes}

section Places

def locate : (here : List String) → List String → List String
  | here, [] => here
  | here, part :: parts =>
    if part = "" ∨ part = "." then locate here parts
    else if part = ".." then locate here.dropLast parts
    else locate (here ++ [part]) parts

def place (path : String) : List String :=
  locate [] (parts path)

def fileAt? (d : Disk) (q : List String) : Option Bytes :=
  ((Entry.dir d).at? q).bind Entry.asFile?

theorem fileAt?_eq_some : d.fileAt? q = some b ↔ (Entry.dir d).at? q = some (.file b) := by
  unfold fileAt?
  cases (Entry.dir d).at? q with
  | none => simp
  | some e => cases e <;> simp [Entry.asFile?]

theorem locate_append (here ps qs : List String) :
    locate here (ps ++ qs) = locate (locate here ps) qs := by
  induction ps generalizing here with
  | nil => rfl
  | cons part ps ih =>
    rw [List.cons_append, locate, locate]
    split
    · exact ih here
    · split
      · exact ih here.dropLast
      · exact ih (here ++ [part])

theorem locate_name (hn : Path.IsName name) (here : List String) :
    locate here [name] = here ++ [name] := by
  obtain ⟨hblank, -, hdot, hup⟩ := hn
  rw [locate, if_neg (not_or.mpr ⟨hblank, hdot⟩), if_neg hup, locate]

theorem follow_cons_eq_ok {part : String} : follow d here (part :: ps) = .ok there ↔
    (d.dirAt? here).isSome ∧ part.utf8ByteSize ≤ maxName ∧
      follow d (locate here [part]) ps = .ok there := by
  rw [follow, locate]
  cases d.dirAt? here with
  | none =>
    dsimp only
    split <;> simp
  | some sub =>
    simp only [Option.isSome_some, true_and, locate]
    by_cases hskip : part = "" ∨ part = "."
    · have hshort : part.utf8ByteSize ≤ maxName := by rcases hskip with rfl | rfl <;> decide
      simp only [if_pos hskip, hshort, true_and]
    by_cases hup : part = ".."
    · have hshort : part.utf8ByteSize ≤ maxName := by rw [hup]; decide
      simp only [if_neg hskip, if_pos hup, hshort, true_and]
    · simp only [if_neg hskip, if_neg hup]
      split
      · next hlong => exact iff_of_false nofun fun h => absurd h.1 (Nat.not_le_of_lt hlong)
      · next hlong => simp only [Nat.le_of_not_lt hlong, true_and]

theorem follow_eq_locate (h : follow d here ps = .ok there) : there = locate here ps := by
  induction ps generalizing here with
  | nil =>
    cases h
    rfl
  | cons part ps ih =>
    obtain ⟨-, -, h⟩ := follow_cons_eq_ok.mp h
    rw [← List.singleton_append, locate_append]
    exact ih h

theorem follow_append_eq_ok : follow d here (ps ++ qs) = .ok there ↔
    follow d here ps = .ok (locate here ps) ∧ follow d (locate here ps) qs = .ok there := by
  induction ps generalizing here with
  | nil => exact (and_iff_right rfl).symm
  | cons part ps ih =>
    have hlocate : locate here (part :: ps) = locate (locate here [part]) ps :=
      locate_append here [part] ps
    rw [List.cons_append, follow_cons_eq_ok, follow_cons_eq_ok, hlocate, ih]
    simp only [and_assoc]

theorem head?_toList_of_isName (hn : Path.IsName name) (suffix : String) :
    (name ++ suffix).toList.head? ≠ some '/' := by
  intro h
  rw [String.toList_append, List.head?_append] at h
  cases hhead : name.toList.head? with
  | none =>
    have hblank : name.toList = [] := List.head?_eq_none_iff.mp hhead
    exact hn.1 (String.toList_inj.mp hblank)
  | some ch =>
    rw [hhead] at h
    cases h
    exact hn.2.1 (List.mem_of_head? hhead)

theorem joinPath_of_head (h : path.toList.head? ≠ some '/') (dir : String) : joinPath dir path =
    if dir = "" then path else if dir.toList.getLast? = some '/' then dir ++ path
    else dir ++ "/" ++ path := by
  rw [joinPath, if_neg h]

theorem joinPath_of_isName (hn : Path.IsName name) (dir : String) : joinPath dir name =
    if dir = "" then name else if dir.toList.getLast? = some '/' then dir ++ name
    else dir ++ "/" ++ name := by
  have hhead := head?_toList_of_isName hn ""
  rw [String.append_empty] at hhead
  exact joinPath_of_head hhead dir

theorem joinPath_append (hn : Path.IsName name) (dir suffix : String) :
    joinPath dir (name ++ suffix) = joinPath dir name ++ suffix := by
  rw [joinPath_of_isName hn, joinPath_of_head (head?_toList_of_isName hn suffix)]
  by_cases hempty : dir = ""
  · rw [if_pos hempty, if_pos hempty]
  rw [if_neg hempty, if_neg hempty]
  by_cases hslash : dir.toList.getLast? = some '/'
  · rw [if_pos hslash, if_pos hslash, String.append_assoc]
  · rw [if_neg hslash, if_neg hslash, ← String.append_assoc]

theorem exists_parts_joinPath (dir : String) : ∃ ps, locate [] ps = place dir ∧
    (∀ d, follow d [] (parts dir) = .ok (place dir) → follow d [] ps = .ok (place dir)) ∧
      ∀ name, Path.IsName name → parts (joinPath dir name) = ps ++ [name] := by
  have hname {name : String} (hn : Path.IsName name) : parts name = [name] := by
    rw [parts, Text.splitAt_of_not_mem hn.2.1, List.map_singleton, String.ofList_toList]
  have hbelow {name : String} (hn : Path.IsName name) (cs : List Char) :
      (Text.splitAt '/' (cs ++ '/' :: name.toList)).map String.ofList =
        (Text.splitAt '/' cs).map String.ofList ++ [name] := by
    rw [Text.splitAt_append, List.map_append]
    exact congrArg _ (hname hn)
  by_cases hempty : dir = ""
  · refine ⟨[], ?_, fun d hd => ?_, fun name hn => ?_⟩
    · rw [hempty]
      rfl
    · rw [hempty]
      rfl
    · rw [joinPath_of_isName hn, if_pos hempty, hname hn, List.nil_append]
  by_cases hslash : dir.toList.getLast? = some '/'
  -- The blank part behind the last slash leads nowhere.
  · obtain ⟨cs, hcs⟩ := List.getLast?_eq_some_iff.mp hslash
    have hparts : parts dir = (Text.splitAt '/' cs).map String.ofList ++ [""] := by
      rw [parts, hcs, Text.splitAt_append, List.map_append]
      rfl
    have hplace : locate [] ((Text.splitAt '/' cs).map String.ofList) = place dir := by
      rw [place, hparts, locate_append]
      rfl
    refine ⟨(Text.splitAt '/' cs).map String.ofList, hplace, fun d hd => ?_, fun name hn => ?_⟩
    · rw [hparts] at hd
      have hfirst := (follow_append_eq_ok.mp hd).1
      rw [hplace] at hfirst
      exact hfirst
    · rw [joinPath_of_isName hn, if_neg hempty, if_pos hslash, parts, String.toList_append, hcs,
        List.append_assoc]
      exact hbelow hn cs
  · refine ⟨parts dir, rfl, fun _ hd => hd, fun name hn => ?_⟩
    rw [joinPath_of_isName hn, if_neg hempty, if_neg hslash, parts, String.toList_append,
      String.toList_append, List.append_assoc]
    exact hbelow hn dir.toList

theorem place_joinPath (hn : Path.IsName name) (dir : String) :
    place (joinPath dir name) = place dir ++ [name] := by
  obtain ⟨ps, hps, -, hparts⟩ := exists_parts_joinPath dir
  rw [place, hparts name hn, locate_append, hps, locate_name hn]

end Places

section Kept

def KeepsDirs (d d' : Disk) : Prop :=
  ∀ q, (d.dirAt? q).isSome → (d'.dirAt? q).isSome

theorem KeepsDirs.refl (d : Disk) : KeepsDirs d d :=
  fun _ h => h

theorem KeepsDirs.trans {d'' : Disk} (h : KeepsDirs d d') (h' : KeepsDirs d' d'') :
    KeepsDirs d d'' :=
  fun q hq => h' q (h q hq)

theorem KeepsDirs.follow (hk : KeepsDirs d d') (h : follow d here ps = .ok there) :
    follow d' here ps = .ok there := by
  induction ps generalizing here with
  | nil => exact h
  | cons part ps ih =>
    obtain ⟨hdir, hshort, h⟩ := follow_cons_eq_ok.mp h
    exact follow_cons_eq_ok.mpr ⟨hk here hdir, hshort, ih h⟩

def Follows (d : Disk) (path : String) : Prop :=
  ∃ ps, usableParts path = .ok ps ∧ Disk.follow d [] ps = .ok (place path)

theorem KeepsDirs.follows (hk : KeepsDirs d d') (h : Follows d path) : Follows d' path := by
  obtain ⟨ps, hps, hfollow⟩ := h
  exact ⟨ps, hps, hk.follow hfollow⟩

theorem usableParts_eq_ok : usableParts path = .ok ps ↔
    '\x00' ∉ path.toList ∧ path.utf8ByteSize ≤ maxPath ∧ ps = parts path := by
  unfold usableParts
  by_cases hzero : '\x00' ∈ path.toList
  · simp [hzero]
  by_cases hlong : maxPath < path.utf8ByteSize
  · simp [hzero, hlong, Nat.not_le_of_lt hlong]
  · simp [hzero, hlong, Nat.le_of_not_lt hlong, eq_comm]

theorem follows_joinPath (hn : Path.IsName name) (dir : String) : Follows d (joinPath dir name) ↔
    (∃ ps, usableParts (joinPath dir name) = .ok ps ∧
      follow d [] ps.dropLast = .ok (place dir) ∧ ps.getLast? = some name) ∧
      (d.dirAt? (place dir)).isSome ∧ name.utf8ByteSize ≤ maxName := by
  obtain ⟨qs, hqs, -, hparts⟩ := exists_parts_joinPath dir
  have hparts := hparts name hn
  rw [Follows, place_joinPath hn]
  constructor
  · rintro ⟨ps, hps, hfollow⟩
    have heq : ps = qs ++ [name] := (usableParts_eq_ok.mp hps).2.2.trans hparts
    rw [heq, follow_append_eq_ok, follow_cons_eq_ok, hqs] at hfollow
    obtain ⟨hfollow, hdir, hshort, -⟩ := hfollow
    refine ⟨⟨ps, hps, ?_, ?_⟩, hdir, hshort⟩
    · rw [heq, List.dropLast_concat]
      exact hfollow
    · rw [heq, List.getLast?_concat]
  · rintro ⟨⟨ps, hps, hfollow, -⟩, hdir, hshort⟩
    have heq : ps = qs ++ [name] := (usableParts_eq_ok.mp hps).2.2.trans hparts
    rw [heq, List.dropLast_concat] at hfollow
    refine ⟨ps, hps, ?_⟩
    rw [heq, follow_append_eq_ok, follow_cons_eq_ok, hqs, locate_name hn]
    exact ⟨hfollow, hdir, hshort, rfl⟩

theorem follows_of_dir (hn : Path.IsName name) (hzero : '\x00' ∉ name.toList)
    (hd : Follows d dir) (hdir : (d.dirAt? (place dir)).isSome)
    (hlong : dir.utf8ByteSize + 1 + name.utf8ByteSize ≤ maxPath)
    (hshort : name.utf8ByteSize ≤ maxName) : Follows d (joinPath dir name) := by
  obtain ⟨ps, hps, hfollow⟩ := hd
  obtain ⟨hzero', -, rfl⟩ := usableParts_eq_ok.mp hps
  obtain ⟨qs, -, hlead, hparts⟩ := exists_parts_joinPath dir
  have husable : usableParts (joinPath dir name) = .ok (qs ++ [name]) := by
    refine usableParts_eq_ok.mpr ⟨?_, ?_, (hparts name hn).symm⟩
    · rw [joinPath_of_isName hn]
      split
      · exact hzero
      split
      · simp [hzero, hzero']
      · simp [hzero, hzero']
    · rw [joinPath_of_isName hn]
      split
      · omega
      split
      · rw [String.utf8ByteSize_append]
        omega
      · rw [String.utf8ByteSize_append, String.utf8ByteSize_append]
        exact hlong
  refine (follows_joinPath hn dir).mpr ⟨⟨qs ++ [name], husable, ?_, ?_⟩, hdir, hshort⟩
  · rw [List.dropLast_concat]
    exact hlead d hfollow
  · exact List.getLast?_concat

end Kept

section Found

theorem parentOfParts_eq_ok {parents : List String} {parent : Directory} :
    parentOfParts d ps = .ok (parents, name, parent) ↔
      follow d [] ps.dropLast = .ok parents ∧ ps.getLast? = some name ∧
        d.dirAt? parents = some parent ∧ name.utf8ByteSize ≤ maxName := by
  unfold parentOfParts
  cases hfollow : follow d [] ps.dropLast with
  | error fault => simp [bind, Except.bind]
  | ok found =>
    simp only [bind, Except.bind, Except.ok.injEq]
    cases hlast : ps.getLast? with
    | none => cases hdir : d.dirAt? found <;> simp [throw, throwThe, MonadExceptOf.throw]
    | some last =>
      cases hdir : d.dirAt? found with
      | none =>
        refine iff_of_false nofun ?_
        rintro ⟨rfl, -, hparent, -⟩
        rw [hdir] at hparent
        cases hparent
      | some sub =>
        by_cases hlong : maxName < last.utf8ByteSize
        · simp only [if_pos hlong]
          refine iff_of_false nofun ?_
          rintro ⟨-, hname, -, hshort⟩
          cases hname
          omega
        · simp only [if_neg hlong, pure, Except.pure, Except.ok.injEq, Prod.mk.injEq]
          constructor
          · rintro ⟨rfl, rfl, rfl⟩
            exact ⟨rfl, rfl, hdir, Nat.le_of_not_lt hlong⟩
          · rintro ⟨rfl, hname, hparent, -⟩
            cases hname
            rw [hdir] at hparent
            cases hparent
            exact ⟨rfl, rfl, rfl⟩

theorem parentOf_joinPath_eq_ok (hn : Path.IsName name) {parents : List String} {n : String}
    {parent : Directory} : parentOf d (joinPath dir name) = .ok (parents, n, parent) ↔
      Follows d (joinPath dir name) ∧ parents = place dir ∧ n = name ∧
        d.dirAt? (place dir) = some parent := by
  obtain ⟨qs, hqs, -, hparts⟩ := exists_parts_joinPath dir
  have hparts := hparts name hn
  rw [follows_joinPath hn]
  unfold parentOf
  cases husable : usableParts (joinPath dir name) with
  | error fault => simp [bind, Except.bind]
  | ok ps =>
    have heq : ps = qs ++ [name] := (usableParts_eq_ok.mp husable).2.2.trans hparts
    simp only [bind, Except.bind, Except.ok.injEq, parentOfParts_eq_ok]
    constructor
    · rintro ⟨hfollow, hlast, hdir, hshort⟩
      have hplace : parents = place dir := by
        rw [heq, List.dropLast_concat] at hfollow
        exact (follow_eq_locate hfollow).trans hqs
      have hname : n = name := by
        rw [heq, List.getLast?_concat] at hlast
        exact (Option.some.inj hlast).symm
      subst hplace hname
      have hsome : (d.dirAt? (place dir)).isSome := Option.isSome_iff_exists.mpr ⟨parent, hdir⟩
      exact ⟨⟨⟨ps, rfl, hfollow, hlast⟩, hsome, hshort⟩, rfl, rfl, hdir⟩
    · rintro ⟨⟨⟨ps', heq', hfollow, hlast⟩, -, hshort⟩, rfl, rfl, hdir⟩
      subst heq'
      exact ⟨hfollow, hlast, hdir, hshort⟩

theorem readFile_eq_ok :
    readFile d path = .ok b ↔ Follows d path ∧ d.fileAt? (place path) = some b := by
  rw [fileAt?_eq_some, ← Directory.lookup_eq_file]
  unfold readFile find findParts Follows
  cases husable : usableParts path with
  | error fault => simp [bind, Except.bind]
  | ok ps =>
    have heq := (usableParts_eq_ok.mp husable).2.2
    simp only [bind, Except.bind, Except.ok.injEq, exists_eq_left']
    cases hfollow : follow d [] ps with
    | error fault => simp
    | ok found =>
      have hfound : found = place path := by
        rw [follow_eq_locate hfollow, heq, place]
      subst hfound
      simp only [true_and]
      by_cases hroot : place path = []
      · simp [hroot, Directory.lookup, pure, Except.pure, throw, throwThe, MonadExceptOf.throw]
      · simp only [if_neg hroot]
        cases d.lookup (place path) with
        | none => simp [throw, throwThe, MonadExceptOf.throw]
        | some e =>
          cases e <;> simp [pure, Except.pure, throw, throwThe, MonadExceptOf.throw]

end Found

end Disk

end Buildbox
