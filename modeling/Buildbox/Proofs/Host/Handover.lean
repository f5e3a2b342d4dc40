import Buildbox.Proofs.Host.Confinement
import Buildbox.Proofs.Host.Reading
import Buildbox.Proofs.Stage.Mounted
import Buildbox.Proofs.Tree.Tables

/-! What is handed to a guest and handed back. A descriptor that was open from the start stays at
the root of its mount, under whatever number, so its paths are those of the tree that is found by
the name of the mount when the run is over. -/

namespace Buildbox.Host

section Rooted

variable {h h' : Host} {c : Call} {r : Reply} {d : Descriptor} {fd : Fd}

def Rooted (h : Host) : Prop :=
  ∀ fd i path, h.fds.get? fd = some (.dir i path true) → path = [] ∧ i < h.mounts.length

theorem Effect.descriptor (heff : Effect h c r h') (hd : h'.fds.get? fd = some d) :
    (∃ source, h.fds.get? source = some d) ∨ ∀ i path, d ≠ .dir i path true := by
  have hset {n : Fd} {new : Descriptor} (hnew : ∀ i path, new ≠ .dir i path true)
      (hd : (h.fds.set n new).get? fd = some d) :
      (∃ source, h.fds.get? source = some d) ∨ ∀ i path, d ≠ .dir i path true := by
    rw [DescriptorTable.get?_set] at hd
    split at hd
    · exact .inr (Option.some.inj hd ▸ hnew)
    · exact .inl ⟨fd, hd⟩
  cases heff with
  | look | readInput | noAppend | renameSame | random | poll | pwrite | setSize
  | createDirectory | unlinkFile | removeDirectory | rename => exact .inl ⟨fd, hd⟩
  | @output _ _ stream => cases stream <;> exact .inl ⟨fd, hd⟩
  | write | read | seek | setAppend | openDir | openFile | openCut | create =>
    exact hset (by nofun) hd
  | @close closed =>
    rw [DescriptorTable.get?_erase] at hd
    split at hd
    · cases hd
    · exact .inl ⟨fd, hd⟩
  | @renumber source _ _ _ hsource =>
    rw [DescriptorTable.get?_set, DescriptorTable.get?_erase] at hd
    split at hd
    · exact .inl ⟨source, hsource.trans hd⟩
    · split at hd
      · cases hd
      · exact .inl ⟨fd, hd⟩

theorem Rooted.effect (hr : h.Rooted) (heff : Effect h c r h') : h'.Rooted := by
  intro fd i path hd
  have hlength : h'.mounts.length = h.mounts.length := by
    simpa using congrArg List.length heff.names
  obtain ⟨source, hsource⟩ | hnew := heff.descriptor hd
  · rw [hlength]
    exact hr source i path hsource
  · exact absurd rfl (hnew i path)

theorem rooted_fresh (args env : List String) (mounts : MountTable) (stdout stderr : Redirect)
    (budget : UInt64) (deadline : Deadline) :
    (fresh args env mounts stdout stderr budget deadline).Rooted := by
  intro fd i path hd
  obtain ⟨-, heq | ⟨stream, heq⟩⟩ | ⟨k, hk, -, heq⟩ := fresh_descriptor hd
  · cases heq
  · cases heq
  · cases heq
    exact ⟨rfl, hk⟩

end Rooted

section Preopens

variable {first n k : Nat}

theorem ofNat_ne {a b : Nat} (hlt : a < b) (hb : b < UInt32.size) :
    UInt32.ofNat a ≠ UInt32.ofNat b := by
  intro heq
  have hnat := congrArg UInt32.toNat heq
  rw [UInt32.toNat_ofNat_of_lt' (Nat.lt_trans hlt hb), UInt32.toNat_ofNat_of_lt' hb] at hnat
  exact Nat.ne_of_lt hlt hnat

theorem get?_preopens (hfits : first + n ≤ UInt32.size) (hk : k < n) :
    DescriptorTable.get? (preopens first n) (UInt32.ofNat (first + k)) =
      some (.dir k [] true) := by
  induction n with
  | zero => exact absurd hk (Nat.not_lt_zero k)
  | succ n ih =>
    rw [preopens, DescriptorTable.get?_append]
    rcases Nat.lt_succ_iff_lt_or_eq.mp hk with hk | rfl
    · rw [ih (by omega) hk, Option.some_or]
    · have hnew : DescriptorTable.get? (preopens first k) (UInt32.ofNat (first + k)) = none := by
        refine Option.eq_none_iff_forall_not_mem.mpr fun d hd => ?_
        obtain ⟨l, hl, heq⟩ := mem_preopens.mp (DescriptorTable.mem_of_get? hd)
        exact ofNat_ne (by omega) (by omega) (Prod.mk.inj heq).1.symm
      rw [hnew, Option.none_or, DescriptorTable.get?_cons, if_pos rfl]

theorem get?_fds_fresh (args env : List String) {mounts : MountTable} (stdout stderr : Redirect)
    (budget : UInt64) (deadline : Deadline) (hfits : firstPreopen + mounts.length ≤ UInt32.size)
    (hk : k < mounts.length) :
    (fresh args env mounts stdout stderr budget deadline).fds.get?
      (UInt32.ofNat (firstPreopen + k)) = some (.dir k [] true) := by
  have hstream {a : Nat} (ha : a < firstPreopen) :
      UInt32.ofNat a ≠ UInt32.ofNat (firstPreopen + k) :=
    ofNat_ne (by omega) (by omega)
  have hfds : (fresh args env mounts stdout stderr budget deadline).fds =
      (UInt32.ofNat 0, .stdin) :: (UInt32.ofNat 1, .output .stdout) ::
        (UInt32.ofNat 2, .output .stderr) :: preopens firstPreopen mounts.length := rfl
  rw [hfds, DescriptorTable.get?_cons, if_neg (hstream (by decide)), DescriptorTable.get?_cons,
    if_neg (hstream (by decide)), DescriptorTable.get?_cons, if_neg (hstream (by decide)),
    get?_preopens hfits hk]

end Preopens

section Trees

variable {h : Host} {fd : Fd} {i : Nat} {m : Mount} {path : String} {bytes : Bytes}

theorem step_pathFilestat (h : Host) (fd : Fd) (path : String) :
    (h.step (.pathFilestat fd path)).1 =
      ((h.pathFilestat fd path).mapError .errno).map .filestat := by
  rw [step_of_read rfl]

variable (hd : h.fds.get? fd = some (.dir i [] true)) (hups : ".." ∉ Path.segments path)
include hd hups

theorem resolve_segments : h.resolve fd path = .ok (i, Path.segments path) :=
  resolve_eq_ok.mpr ⟨[], true, hd, walk_parts hups⟩

theorem step_filestat_segments : (h.step (.pathFilestat fd path)).1 =
    ((h.node i (Path.segments path)).mapError .errno).map fun e =>
      .filestat ⟨inode i (Path.segments path), (entryKind e).code, UInt64.ofNat (entrySize e)⟩ := by
  rw [step_pathFilestat, pathFilestat, resolve_segments hd hups]
  change ((h.statOf i (Path.segments path)).mapError _).map _ = _
  rw [statOf]
  cases h.node i (Path.segments path) <;> rfl

omit hd hups in
theorem node_file_iff (hm : h.mounts[i]? = some m) :
    h.node i (Path.segments path) = .ok (.file bytes) ↔ m.root.read? path = some bytes := by
  rw [node_eq_ok, Directory.read?_eq_some, nodeAt?, hm, Option.bind_some]
  split
  · next hroot => simp [hroot, Directory.lookup]
  · exact Iff.rfl

theorem reads_root_iff (hm : h.mounts[i]? = some m) :
    h.Reads fd path bytes ↔ m.root.read? path = some bytes := by
  rw [← node_file_iff hm, node_eq_ok, reads_iff]
  constructor
  · rintro ⟨j, segments, hp, hb⟩
    cases (resolve_segments hd hups).symm.trans hp
    exact hb
  · exact fun hb => ⟨i, _, resolve_segments hd hups, hb⟩

theorem filestat_root_iff (hm : h.mounts[i]? = some m) {size : UInt64} :
    (∃ s, (h.step (.pathFilestat fd path)).1 = .ok (.filestat s) ∧
      s.kind = FileKind.regular.code ∧ s.size = size) ↔
      ∃ bytes, m.root.read? path = some bytes ∧ UInt64.ofNat bytes.length = size := by
  simp only [← node_file_iff hm, step_filestat_segments hd hups]
  cases h.node i (Path.segments path) with
  | error e => exact iff_of_false (fun ⟨_, hs, _⟩ => by cases hs) nofun
  | ok e =>
    cases e with
    | file bytes =>
      change (∃ s, Except.ok (Reply.filestat _) = .ok (.filestat s) ∧ _) ↔ _
      simp [entryKind, entrySize]
    | dir sub =>
      change (∃ s, Except.ok (Reply.filestat _) = .ok (.filestat s) ∧ _) ↔ _
      simp [entryKind, FileKind.code]

end Trees

/-- After any calls on a fresh host, over a table that was made by its operations: the table that
is handed back has the same names, all different. A descriptor that was open from the start is for
a path without steps up what the mount of its name is for a stage: the guest reads the file there
just if the stage does, and is told its size. At the start these are the files that were placed. -/
theorem runCalls_fresh_handover (args env : List String) {mounts : MountTable}
    (hb : mounts.Built) (stdout stderr : Redirect) (budget : UInt64) (deadline : Deadline)
    (calls : List Call) :
    let start := fresh args env mounts stdout stderr budget deadline
    let h := start.runCalls calls
    let left := h.finish.mounts
    left.map (·.name) = mounts.map (·.name) ∧ (left.map (·.name)).Nodup ∧
    (∀ fd i base, h.fds.get? fd = some (.dir i base true) →
      ∃ name tree, mounts[i]?.map (·.name) = some name ∧ left.get? name = some tree ∧
        ∀ path, ".." ∉ Path.segments path →
          h.resolve fd path = .ok (i, Path.segments path) ∧
          (∀ bytes, h.Reads fd path bytes ↔ tree.read? path = some bytes) ∧
          ∀ size, (∃ s, (h.step (.pathFilestat fd path)).1 = .ok (.filestat s) ∧
              s.kind = FileKind.regular.code ∧ s.size = size) ↔
            ∃ bytes, tree.read? path = some bytes ∧ UInt64.ofNat bytes.length = size) ∧
    ∀ i m, mounts[i]? = some m → firstPreopen + mounts.length ≤ UInt32.size →
      ∀ path, ".." ∉ Path.segments path → ∀ bytes,
        (start.Reads (UInt32.ofNat (firstPreopen + i)) path bytes ↔
          m.root.read? path = some bytes) := by
  intro start h left
  have hnames : left.map (·.name) = mounts.map (·.name) := names_runCalls start calls
  have hnodup : (left.map (·.name)).Nodup := hnames ▸ hb.nodup_names
  have hrooted : h.Rooted := runCalls_keeps (fun hr heff => hr.effect heff)
    (rooted_fresh args env mounts stdout stderr budget deadline) calls
  refine ⟨hnames, hnodup, fun fd i base hd => ?_, fun i m hm hfits path hups bytes => ?_⟩
  · obtain ⟨rfl, hi⟩ := hrooted fd i base hd
    have hm : h.mounts[i]? = some h.mounts[i] := List.getElem?_eq_getElem hi
    have hname : mounts[i]?.map (·.name) = some h.mounts[i].name := by
      rw [← List.getElem?_map, ← hnames, List.getElem?_map]
      exact congrArg _ hm
    exact ⟨_, _, hname, MountTable.get?_of_getElem? hnodup hm, fun path hups =>
      ⟨resolve_segments hd hups, fun bytes => reads_root_iff hd hups hm,
        fun size => filestat_root_iff hd hups hm⟩⟩
  · obtain ⟨hi, -⟩ := List.getElem?_eq_some_iff.mp hm
    exact reads_root_iff (get?_fds_fresh args env stdout stderr budget deadline hfits hi) hups hm

theorem handover_renumbered :
    let mounts : MountTable := [⟨".", .empty⟩, ⟨"lib", .file "b" [1, 2] .empty⟩]
    let calls : List Call := [.pathCreateDirectory 4 "d",
      .pathOpen 4 "d/a" { create := true } false, .fdWrite 5 [7], .fdRenumber 4 0]
    let h := (fresh [] [] mounts .discard .discard 10 none).runCalls calls
    mounts.Built ∧ h.fds.get? 0 = some (.dir 1 [] true) ∧ h.Reads 0 "./d//a" [7] ∧
      (h.finish.mounts.get? "lib").bind (·.read? "./d//a") = some [7] := by
  intro mounts calls h
  have hbuilt : mounts.Built := MountTable.built_iff_nodup.mpr (by decide)
  have hd : h.fds.get? 0 = some (.dir 1 [] true) := by decide
  obtain ⟨-, -, hpreopen, -⟩ :=
    runCalls_fresh_handover [] [] hbuilt .discard .discard 10 none calls
  obtain ⟨name, tree, hname, htree, hpaths⟩ := hpreopen 0 1 [] hd
  obtain ⟨-, hreads, -⟩ := hpaths "./d//a" (by decide)
  have hread : h.Reads 0 "./d//a" [7] := by decide
  obtain rfl : "lib" = name := Option.some.inj hname
  refine ⟨hbuilt, hd, hread, ?_⟩
  rw [htree, Option.bind_some]
  exact (hreads [7]).mp hread

end Buildbox.Host
