import Buildbox.Proofs.Host.Confinement
import Buildbox.Proofs.Host.Dirents
import Buildbox.Proofs.Host.Opening
import Buildbox.Proofs.Tree.Segments
import Buildbox.Proofs.Tree.Spelling
import Buildbox.Proofs.Utf8.Reading

/-! Listings beside paths. A listing of a directory, a question about a path below it and a
question about that path once it is open give the same identity and the same kind, for the same
names. -/

namespace Buildbox

namespace Dirent

def encode (e : Dirent) : Bytes :=
  Bytes.ofNatLE 8 e.next.toNat ++ Bytes.ofNatLE 8 e.ino.toNat ++ Bytes.ofNatLE 4 e.nameLength ++
    e.kind :: e.padding ++ e.name

variable {mount : Nat} {path : List String} {index : Nat} {c : String × Entry} {n : String}
  {cs : List (String × Entry)} {e : Dirent}

theorem encode_ofChild (mount : Nat) (path : List String) (index : Nat) (c : String × Entry) :
    (ofChild mount path index c).encode = Host.dirent mount path index c.1 c.2 := by
  have hnext : Bytes.ofNatLE 8 (UInt64.ofNat (index + 1)).toNat = Bytes.ofNatLE 8 (index + 1) := by
    rw [UInt64.toNat_ofNat']
    exact Bytes.ofNatLE_mod 8 (index + 1)
  rw [encode, ofChild, hnext, Host.dirent]
  simp

theorem mem_ofChildren (he : e ∈ ofChildren mount path index cs) :
    ∃ c ∈ cs, ∃ k, e = ofChild mount path k c := by
  induction cs generalizing index with
  | nil => cases he
  | cons c cs ih =>
    rcases List.mem_cons.mp he with rfl | he
    · exact ⟨c, List.mem_cons_self, index, rfl⟩
    · obtain ⟨c', hc, hk⟩ := ih he
      exact ⟨c', List.mem_cons_of_mem c hc, hk⟩

theorem filter_ofChildren_of_not_mem (hn : n ∉ cs.map (·.1)) :
    (ofChildren mount path index cs).filter (·.name = Utf8.encode n) = [] := by
  refine List.filter_eq_nil_iff.mpr fun e he hname => hn ?_
  obtain ⟨c, hc, k, rfl⟩ := mem_ofChildren he
  rw [← Utf8.encode_inj (of_decide_eq_true hname)]
  exact List.mem_map_of_mem hc

theorem filter_ofChildren (hnames : (cs.map (·.1)).Nodup) (hc : c ∈ cs) :
    ∃ k, (ofChildren mount path index cs).filter (·.name = Utf8.encode c.1) =
      [ofChild mount path k c] := by
  induction cs generalizing index with
  | nil => cases hc
  | cons d cs ih =>
    obtain ⟨hd, hrest⟩ := List.nodup_cons.mp hnames
    rw [ofChildren, List.filter_cons]
    rcases List.mem_cons.mp hc with rfl | hc
    · refine ⟨index, ?_⟩
      rw [if_pos (by simp [ofChild]), filter_ofChildren_of_not_mem hd]
    · have hne : (ofChild mount path index d).name ≠ Utf8.encode c.1 := fun hname =>
        hd (List.mem_map.mpr ⟨c, hc, (Utf8.encode_inj hname).symm⟩)
      rw [if_neg (by simpa using hne)]
      exact ih hrest hc

theorem dirents_eq {limit used : Nat}
    (hroom : used + ((ofChildren mount path index cs).flatMap encode).length ≤ limit) :
    Host.dirents mount path limit index used cs =
      (ofChildren mount path index cs).flatMap encode := by
  induction cs generalizing index used with
  | nil => rfl
  | cons c cs ih =>
    have hlength := length_dirent mount path index c.1 c.2
    rw [ofChildren, List.flatMap_cons, encode_ofChild, List.length_append] at hroom
    have hfree : ¬ limit ≤ used := by
      simp only [headerSize] at hlength
      omega
    have hrest := @ih (index + 1) (used + (Host.dirent mount path index c.1 c.2).length)
      (by rwa [Nat.add_assoc])
    rw [Host.dirents, if_neg hfree, ofChildren, List.flatMap_cons, encode_ofChild, ← hrest]

theorem read_ofChildren (hnames : ∀ c ∈ cs, (Utf8.encode c.1).length < UInt32.size) :
    (Listing.read ((ofChildren mount path index cs).flatMap encode)).1 =
      ofChildren mount path index cs := by
  induction cs generalizing index with
  | nil => exact Listing.read_of_none rfl
  | cons c cs ih =>
    have hread := read?_dirent mount path index c.1 c.2
      ((ofChildren mount path (index + 1) cs).flatMap encode) (hnames c List.mem_cons_self)
    rw [ofChildren, List.flatMap_cons, encode_ofChild, Listing.read_of_some hread,
      ih fun d hd => hnames d (List.mem_cons_of_mem c hd)]

end Dirent

namespace Host

variable {h h' : Host} {c : Call} {r : Reply} {fd : Fd} {name n : String} {i : Nat}
  {base path ps : List String} {preopen : Bool} {d : Directory} {e : Entry} {st : Filestat}

section Spelling

theorem spelled_insert (hs : h.mounts.Spelled) (i : Nat) (ps : List String) (hn : Path.IsName n)
    (he : e.Spelled) : (h.modifyDir i ps (·.insert n e)).mounts.Spelled :=
  MountTable.modifyAt_keeps hs (fun hd =>
    Directory.spelled_modifyDirAt (fun hd => Directory.spelled_insert hd hn he) hd ps) i

theorem spelled_erase (hs : h.mounts.Spelled) (i : Nat) (ps : List String) (n : String) :
    (h.modifyDir i ps (·.erase n)).mounts.Spelled :=
  MountTable.modifyAt_keeps hs (fun hd =>
    Directory.spelled_modifyDirAt (fun hd => Directory.spelled_erase hd) hd ps) i

theorem spelled_of_dirAt? (hs : h.mounts.Spelled) (hd : h.dirAt? i ps = some d) : d.Spelled := by
  obtain ⟨m, hm, hd⟩ := Option.bind_eq_some_iff.mp hd
  exact Directory.spelled_dirAt? (hs m (List.mem_of_getElem? hm)) hd

theorem spelled_setFile {bytes written : Bytes} (hs : h.mounts.Spelled)
    (hb : h.nodeAt? i path = some (.file bytes)) : (h.setFile i path written).mounts.Spelled := by
  obtain ⟨ps, n, d, rfl, hd, hn⟩ := exists_of_nodeAt?_file hb
  rw [setFile_eq_modifyDir hd hn]
  exact spelled_insert hs i ps (Directory.spelled_of_get? (spelled_of_dirAt? hs hd) hn).1 trivial

theorem spelled_effect (hs : h.mounts.Spelled) (hn : h.Named) (heff : Effect h c r h') :
    h'.mounts.Spelled := by
  have hlast {fd : Fd} {name n : String} {i : Nat} {ps : List String}
      (hp : h.resolve fd name = .ok (i, ps ++ [n])) : Path.IsName n :=
    hn.resolve hp n (List.mem_append_right ps List.mem_cons_self)
  cases heff with
  | look | readInput | noAppend | renameSame | random | poll | read | seek | setAppend | close
  | renumber | openDir | openFile => exact hs
  | @output fd data stream => cases stream <;> exact hs
  | pwrite hd hb | write hd hb | setSize hd hb | openCut hp hb => exact spelled_setFile hs hb
  | create hp | createDirectory hp => exact spelled_insert hs _ _ (hlast hp) trivial
  | unlinkFile | removeDirectory => exact spelled_erase hs _ _ _
  | rename hp ht hne hd hget =>
    have he := (Directory.spelled_of_get? (spelled_of_dirAt? hs hd) hget).2
    exact spelled_insert (spelled_erase hs _ _ _) _ _ (hlast ht) he

end Spelling

section Stats

def filestatOf (i : Nat) (path : List String) (e : Entry) : Filestat :=
  ⟨inode i path, (entryKind e).code, UInt64.ofNat (entrySize e)⟩

theorem statOf_eq_ok :
    h.statOf i path = .ok st ↔ ∃ e, h.nodeAt? i path = some e ∧ filestatOf i path e = st := by
  unfold statOf
  simp only [← node_eq_ok]
  cases h.node i path with
  | ok e => simp [bind, Except.bind, pure, Except.pure, filestatOf]
  | error c => simp [bind, Except.bind]

theorem step_pathFilestat_iff (hp : h.resolve fd name = .ok (i, path)) :
    (h.step (.pathFilestat fd name)).1 = .ok (.filestat st) ↔
      ∃ e, h.nodeAt? i path = some e ∧ filestatOf i path e = st := by
  have hstat : h.pathFilestat fd name = h.statOf i path := by
    rw [pathFilestat, hp]
    rfl
  rw [step_of_read (c := .pathFilestat fd name) rfl, hstat, ← statOf_eq_ok]
  cases h.statOf i path with
  | ok s =>
    change Except.ok (Reply.filestat s) = .ok (.filestat st) ↔ _
    simp
  | error e => exact iff_of_false nofun nofun

theorem step_fdFilestat {append : Bool} (he : h.nodeAt? i path = some e)
    (hfd : h.fds.get? fd = some (descriptorFor i path append e)) :
    h.step (.fdFilestat fd) = (.ok (.filestat (filestatOf i path e)), h) := by
  have hstat : h.fdFilestat fd = .ok (filestatOf i path e) := by
    rw [← statOf_eq_ok.mpr ⟨e, he, rfl⟩, fdFilestat, descriptor_eq_ok.mpr hfd]
    cases e <;> rfl
  rw [step_of_read (c := .fdFilestat fd) rfl, hstat]
  rfl

end Stats

/-- The answers for a path below a descriptor: when a guest asks for it, and when it opens it and
asks for what it has opened. -/
structure Shows (h : Host) (fd : Fd) (name : String) (st : Filestat) : Prop where
  asked : (h.step (.pathFilestat fd name)).1 = .ok (.filestat st)
  opened : ∀ append, ∃ opened h', h.step (.pathOpen fd name {} append) = (.ok (.fd opened), h') ∧
    (h'.step (.fdFilestat opened)).1 = .ok (.filestat st)

/-- What a guest is shown of the directory that a descriptor stands for. -/
structure Listed (h : Host) (fd : Fd) (i : Nat) (base : List String) (seen : List Dirent) :
    Prop where
  answer : ∀ limit, (seen.flatMap Dirent.encode).length ≤ limit →
    (h.step (.fdReaddir fd 0 limit)).1 = .ok (.bytes (seen.flatMap Dirent.encode))
  read : (∀ e ∈ seen, e.name.length < UInt32.size) →
    (Listing.read (seen.flatMap Dirent.encode)).1 = seen
  shown : ∀ e ∈ seen, ∃ name st, e.name = Utf8.encode name ∧ Path.IsName name ∧
    h.resolve fd name = .ok (i, base ++ [name]) ∧ h.Shows fd name st ∧ e.ino = st.ino ∧
      e.kind = st.kind
  /-- A path that leads to a child leads to just one of them. -/
  once : ∀ path name st, h.resolve fd path = .ok (i, base ++ [name]) →
    (h.step (.pathFilestat fd path)).1 = .ok (.filestat st) →
      ∃ e, seen.filter (·.name = Utf8.encode name) = [e] ∧ e.ino = st.ino ∧ e.kind = st.kind

theorem dirAt?_of_nodeAt? (he : h.nodeAt? i path = some (.dir d)) : h.dirAt? i path = some d := by
  rw [nodeAt?_eq_at?, Option.bind_eq_some_iff] at he
  obtain ⟨m, hm, he⟩ := he
  rw [dirAt?, hm, Option.bind_some]
  exact Directory.dirAt?_eq_some.mpr he

section Directories

variable (hfd : h.fds.get? fd = some (.dir i base preopen))
include hfd

theorem resolve_name (hn : Path.IsName name) : h.resolve fd name = .ok (i, base ++ [name]) := by
  obtain ⟨hblank, hslash, hdot, hup⟩ := hn
  refine resolve_eq_ok.mpr ⟨base, preopen, hfd, ?_⟩
  rw [Path.parts_of_not_mem hslash, walk, if_neg (not_or.mpr ⟨hblank, hdot⟩), if_neg hup, walk]

theorem shows_child (hv : h.mounts.Valid) (hn : Path.IsName name)
    (he : h.nodeAt? i (base ++ [name]) = some e) :
    h.Shows fd name (filestatOf i (base ++ [name]) e) := by
  have hp := resolve_name hfd hn
  refine ⟨(step_pathFilestat_iff hp).mpr ⟨e, he, rfl⟩, fun append => ?_⟩
  have hopenable : h.Openable {} i (base ++ [name]) := by
    cases e with
    | dir d => exact .dir he nofun rfl
    | file bytes => exact .file he nofun rfl
  obtain ⟨opened, h', hs⟩ := step_pathOpen_of_openable hv hp hopenable append
  obtain ⟨j, path, new, hp', hr, hopened⟩ := opened_of_effect hv (effect_of_step hs)
  cases hp.symm.trans hp'
  cases hr
  -- An open without flags leaves the trees as they are.
  have hmounts : h'.mounts = h.mounts := by
    cases hopened.trees with
    | found _ hm => exact hm
    | made hc => cases hc
    | cut ht => cases ht
  have hsame : h'.nodeAt? i (base ++ [name]) = some e := by
    rw [nodeAt?, hmounts]
    exact he
  obtain ⟨e', he', htable⟩ := hopened.table
  cases hsame.symm.trans he'
  have hget := (htable opened).trans (if_pos rfl)
  exact ⟨opened, h', hs, by rw [step_fdFilestat hsame hget]⟩

theorem listed_of_dirAt? (hv : h.mounts.Valid) (hs : h.mounts.Spelled)
    (hd : h.dirAt? i base = some d) :
    h.Listed fd i base (Dirent.ofChildren i base 0 d.children) := by
  have hsorted := (valid_of_dirAt? hv hd).sorted
  have hnode (n : String) : h.nodeAt? i (base ++ [n]) = d.get? n := by
    rw [nodeAt?_append_singleton, hd, Option.bind_some]
  refine ⟨fun limit hroom => ?_, fun hnames => ?_, fun e he => ?_, fun path name st hp hst => ?_⟩
  · have hread := fdReaddir_eq hfd hd 0 limit
    rw [UInt64.toNat_zero, List.drop_zero, Dirent.dirents_eq (by rwa [Nat.zero_add])] at hread
    rw [step_of_read (c := .fdReaddir fd 0 limit) rfl, hread]
    rfl
  · refine Dirent.read_ofChildren fun c hc => ?_
    obtain ⟨k, hk⟩ := Dirent.filter_ofChildren (Directory.nodup_names hsorted) hc
    have hmem := List.mem_singleton_self (Dirent.ofChild i base k c)
    rw [← hk] at hmem
    exact hnames _ (List.mem_filter.mp hmem).1
  · obtain ⟨⟨n, x⟩, hc, k, rfl⟩ := Dirent.mem_ofChildren he
    have hget := (Directory.mem_children hsorted).mp hc
    have hn := (Directory.spelled_of_get? (spelled_of_dirAt? hs hd) hget).1
    exact ⟨n, _, rfl, hn, resolve_name hfd hn, shows_child hfd hv hn ((hnode n).trans hget), rfl,
      rfl⟩
  · obtain ⟨x, hx, rfl⟩ := (step_pathFilestat_iff hp).mp hst
    have hc := (Directory.mem_children hsorted).mpr ((hnode name).symm.trans hx)
    obtain ⟨k, hk⟩ := Dirent.filter_ofChildren (Directory.nodup_names hsorted) hc
    exact ⟨_, hk, rfl, rfl⟩

theorem gone_of_dirAt? (hd : h.dirAt? i base = none) :
    (∀ cookie limit r, (h.step (.fdReaddir fd cookie limit)).1 ≠ .ok r) ∧
      ∀ path name st, h.resolve fd path = .ok (i, base ++ [name]) →
        (h.step (.pathFilestat fd path)).1 ≠ .ok (.filestat st) := by
  refine ⟨fun cookie limit r hread => ?_, fun path name st hp hst => ?_⟩
  · have hnode {e : Entry} (he : h.node i base = .ok e) : ∃ bytes, e = .file bytes := by
      cases e with
      | file bytes => exact ⟨bytes, rfl⟩
      | dir q => cases hd.symm.trans (dirAt?_of_nodeAt? (node_eq_ok.mp he))
    obtain ⟨c, herr⟩ : ∃ c, h.fdReaddir fd cookie limit = .error c := by
      simp only [fdReaddir, descriptor_eq_ok.mpr hfd, bind, Except.bind]
      cases hfound : h.node i base with
      | error c => exact ⟨c, rfl⟩
      | ok e =>
        obtain ⟨bytes, rfl⟩ := hnode hfound
        exact ⟨.notdir, rfl⟩
    rw [step_of_read (c := .fdReaddir fd cookie limit) rfl, herr] at hread
    cases hread
  · obtain ⟨e, he, -⟩ := (step_pathFilestat_iff hp).mp hst
    rw [nodeAt?_append_singleton, hd] at he
    cases he

end Directories

/-- After any calls on a fresh host with trees of names, all that is in the trees is called by
names. A directory descriptor either stands for a directory, whose listing and whose paths then
agree, or its directory is gone, and then it has neither. -/
theorem runCalls_fresh_listed (args env : List String) {mounts : MountTable} (hv : mounts.Valid)
    (hs : mounts.Spelled) (stdout stderr : Redirect) (budget : UInt64) (deadline : Deadline)
    (calls : List Call) :
    let h := (fresh args env mounts stdout stderr budget deadline).runCalls calls
    h.mounts.Spelled ∧
      ∀ fd i base preopen, h.fds.get? fd = some (.dir i base preopen) →
        (∃ seen, h.Listed fd i base seen) ∨
          (∀ cookie limit r, (h.step (.fdReaddir fd cookie limit)).1 ≠ .ok r) ∧
            ∀ path name st, h.resolve fd path = .ok (i, base ++ [name]) →
              (h.step (.pathFilestat fd path)).1 ≠ .ok (.filestat st) := by
  intro h
  have hvalid : h.mounts.Valid := valid_runCalls hv calls
  have hnamed := named_fresh args env mounts stdout stderr budget deadline
  obtain ⟨hspelled, -⟩ : h.mounts.Spelled ∧ h.Named :=
    runCalls_keeps (P := fun g => g.mounts.Spelled ∧ g.Named)
      (fun ⟨hs, hn⟩ heff => ⟨spelled_effect hs hn heff, hn.effect heff⟩) ⟨hs, hnamed⟩ calls
  refine ⟨hspelled, fun fd i base preopen hfd => ?_⟩
  cases hd : h.dirAt? i base with
  | some d => exact .inl ⟨_, listed_of_dirAt? hfd hvalid hspelled hd⟩
  | none => exact .inr (gone_of_dirAt? hfd hd)

theorem listed_after_rename :
    let mounts : MountTable := [⟨".", .dir "d" (.file "a" [1] .empty) .empty⟩]
    let h := (fresh [] [] mounts .discard .discard 10 none).runCalls
      [.pathRename 3 "d" 3 "e", .pathOpen 3 "e" {} false]
    mounts.Valid ∧ mounts.Spelled ∧ h.fds.get? 4 = some (.dir 0 ["e"] false) ∧
      ∃ seen e, h.Listed 4 0 ["e"] seen ∧ seen.filter (·.name = Utf8.encode "a") = [e] ∧
        e.ino = inode 0 ["e", "a"] ∧ e.kind = FileKind.regular.code := by
  intro mounts h
  have hvalid : mounts.Valid := by
    intro m hm
    rw [List.mem_singleton.mp hm]
    refine ⟨?_, ?_⟩
    · simp [Directory.Sorted, Directory.names, Directory.children]
    · simp [Directory.AllFiles, UInt64.size]
  have hspelled : mounts.Spelled := by
    intro m hm
    rw [List.mem_singleton.mp hm]
    decide
  have hfd : h.fds.get? 4 = some (.dir 0 ["e"] false) := by rfl
  obtain ⟨seen, hlisted⟩ | ⟨hnone, -⟩ := (runCalls_fresh_listed [] [] hvalid hspelled .discard
    .discard 10 none [.pathRename 3 "d" 3 "e", .pathOpen 3 "e" {} false]).2 4 0 ["e"] false hfd
  · have hstat : (h.step (.pathFilestat 4 "a")).1 =
        .ok (.filestat (filestatOf 0 ["e", "a"] (.file [1]))) := by rfl
    obtain ⟨e, hone, hino, hkind⟩ := hlisted.once "a" "a" _ (by rfl) hstat
    exact ⟨hvalid, hspelled, hfd, seen, e, hlisted, hone, hino, hkind⟩
  · exact absurd (by rfl) (hnone 0 0 (.bytes []))

end Host

end Buildbox
