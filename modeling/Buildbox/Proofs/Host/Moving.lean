import Buildbox.Proofs.Host.Budget
import Buildbox.Proofs.Host.Carrying
import Buildbox.Proofs.Host.Confinement
import Buildbox.Proofs.Host.Reading

/-! Moves of whole trees. An entry is taken out of one directory and put into another: all that is
below it goes along, nothing else changes but what it replaces, and it can be moved back. -/

namespace Buildbox

theorem MountTable.eq_of_kinds {t u : MountTable} (hnames : t.map (·.name) = u.map (·.name))
    (ht : t.Valid) (hu : u.Valid)
    (hk : ∀ (i : Nat) path,
      (t[i]?.bind fun m : Mount => (Entry.dir m.root).at? path).map Entry.asFile? =
        (u[i]?.bind fun m : Mount => (Entry.dir m.root).at? path).map Entry.asFile?) : t = u := by
  apply List.ext_getElem?
  intro i
  have hname : t[i]?.map (·.name) = u[i]?.map (·.name) := by
    rw [← List.getElem?_map, hnames, List.getElem?_map]
  have hroots := hk i
  cases hm : t[i]? with
  | none =>
    rw [hm, Option.map_none, eq_comm, Option.map_eq_none_iff] at hname
    rw [hname]
  | some m =>
    rw [hm, Option.map_some, eq_comm, Option.map_eq_some_iff] at hname
    obtain ⟨⟨_, root⟩, hn, rfl⟩ := hname
    rw [hm, hn] at hroots
    have hroot : m.root = root := Directory.ext_of_at? (ht m (List.mem_of_getElem? hm)).sorted
      (hu _ (List.mem_of_getElem? hn)).sorted hroots
    rw [hn, ← hroot]

namespace Host

open HostM

variable {h h' : Host} {fd newFd : Fd} {source target : String} {i j : Nat}
  {ps qs src dst path : List String} {n m : String} {d : Directory} {e : Entry}

theorem mounts_eq_of_kinds (hv : h.mounts.Valid) (hv' : h'.mounts.Valid)
    (hnames : h'.mounts.map (·.name) = h.mounts.map (·.name))
    (hk : ∀ i path, h'.kindAt? i path = h.kindAt? i path) : h'.mounts = h.mounts :=
  MountTable.eq_of_kinds hnames hv' hv fun i path => by
    simpa only [kindAt?, nodeAt?_eq_at?] using hk i path

/-- What a move between two places has done: everything below the source is below the target, and
nothing else has changed but that a file or an empty directory was replaced. -/
structure Moved (h : Host) (source target : Nat × List String) (h' : Host) : Prop where
  found : ∃ e, h.nodeAt? source.1 source.2 = some e
  carried : ∀ rest, h'.nodeAt? target.1 (target.2 ++ rest) = h.nodeAt? source.1 (source.2 ++ rest)
  vacated : ∀ rest, h'.nodeAt? source.1 (source.2 ++ rest) = none
  kept : ∀ i path, ¬ (source.1 = i ∧ source.2 <+: path) → ¬ (target.1 = i ∧ target.2 <+: path) →
    h'.kindAt? i path = h.kindAt? i path
  replaced : ∀ rest x, h.nodeAt? target.1 (target.2 ++ rest) = some x → rest = [] ∧
    ((∃ b b', x = .file b ∧ h.nodeAt? source.1 source.2 = some (.file b')) ∨
      ∃ sub, x = .dir .empty ∧ h.nodeAt? source.1 source.2 = some (.dir sub))
  others : h' = { h with mounts := h'.mounts }

section Moves

theorem replaced_of_checkReplace {x : Entry} (hr : h.checkReplace e i path = .ok ())
    (hx : h.nodeAt? i path = some x) :
    (∃ b b', x = .file b ∧ e = .file b') ∨ ∃ sub, x = .dir .empty ∧ e = .dir sub := by
  unfold checkReplace at hr
  rw [existing?_eq_ok_some.mpr hx] at hr
  cases x with
  | file b =>
    cases e with
    | file b' => exact .inl ⟨b, b', rfl, rfl⟩
    | dir sub => cases hr
  | dir q =>
    cases e with
    | file b' => cases hr
    | dir sub =>
      cases q with
      | empty => exact .inr ⟨sub, rfl, rfl⟩
      | file | dir => cases hr

theorem checkReplace_of_none (hd : (h.dirAt? i ps).isSome) (hn : h.nodeAt? i path = none)
    (e : Entry) : h.checkReplace e i path = .ok () := by
  rw [checkReplace, existing?_of_none hd hn]
  rfl

variable (hne : ¬ (i = j ∧ ps ++ [n] <+: qs ++ [m])) (hd : h.dirAt? i ps = some d)
  (hn : d.get? n = some e) (hr : h.checkReplace e j (qs ++ [m]) = .ok ())
  (hparent : ((h.modifyDir i ps (·.erase n)).dirAt? j qs).isSome)
include hne hd hn hr hparent

theorem moved_of_checkReplace : Moved h (i, ps ++ [n]) (j, qs ++ [m])
    ((h.modifyDir i ps (·.erase n)).modifyDir j qs (·.insert m e)) := by
  have hsource : h.nodeAt? i (ps ++ [n]) = some e := by
    rw [nodeAt?_append_singleton, hd, Option.bind_some, hn]
  obtain ⟨q, hq⟩ := Option.isSome_iff_exists.mp hparent
  refine ⟨⟨e, hsource⟩, fun rest => ?_, fun rest => ?_, fun k path hsrc hdst => ?_,
    fun rest x hx => ?_, rfl⟩
  · rw [nodeAt?_append h, hsource, nodeAt?_append, nodeAt?_insert hq]
  · rw [nodeAt?_append, nodeAt?_moved hne hd hn hr, Option.bind_none]
  · have hdir : (h.dirAt? i ps).isSome := by
      rw [hd]
      rfl
    rw [kindAt?_modifyDir (get?_insert_of_ne m e) hparent hdst,
      kindAt?_modifyDir (get?_erase_of_ne n) hdir hsrc]
  · obtain rfl := eq_nil_of_checkReplace hr hx
    rw [List.append_nil] at hx
    rw [hsource]
    refine ⟨rfl, ?_⟩
    obtain ⟨b, b', rfl, rfl⟩ | ⟨sub, rfl, rfl⟩ := replaced_of_checkReplace hr hx
    · exact .inl ⟨b, b', rfl, rfl⟩
    · exact .inr ⟨sub, rfl, rfl⟩

theorem step_pathRename (hs : h.resolve fd source = .ok (i, ps ++ [n]))
    (ht : h.resolve newFd target = .ok (j, qs ++ [m])) :
    h.step (.pathRename fd source newFd target) =
      (.ok .done, (h.modifyDir i ps (·.erase n)).modifyDir j qs (·.insert m e)) := by
  have hbelow : ¬ (i = j ∧ ps ++ [n] <+: qs) := fun ⟨hij, hpre⟩ =>
    hne ⟨hij, hpre.trans (List.prefix_append qs [m])⟩
  have hsame : ¬ (i = j ∧ ps ++ [n] = qs ++ [m]) := fun ⟨hij, heq⟩ =>
    hne ⟨hij, heq ▸ List.prefix_rfl⟩
  obtain ⟨q, hq⟩ := Option.isSome_iff_exists.mp hparent
  rw [isSome_dirAt?_modifyDir (get?_erase_of_ne n) h hbelow] at hparent
  obtain ⟨q₀, hq₀⟩ := Option.isSome_iff_exists.mp hparent
  have hnode : h.node i (ps ++ [n]) = .ok e := by
    rw [node_eq_ok, nodeAt?_append_singleton, hd, Option.bind_some, hn]
  have hrename : pathRename fd source newFd target h =
      .ok () ((h.modifyDir i ps (·.erase n)).modifyDir j qs (·.insert m e)) := by
    unfold pathRename
    simp only [bind_eq_ok, read_eq_ok, unless_eq_ok]
    refine ⟨_, h, ⟨hs, rfl⟩, _, h, ⟨ht, rfl⟩, by simp, ?_⟩
    rw [if_neg hsame]
    simp only [unless_eq_ok, bind_eq_ok, read_eq_ok, modify_eq_ok, detach_eq_ok]
    refine ⟨fun hpre => hne ⟨hpre.1, List.isPrefixOf_iff_prefix.mp hpre.2.2⟩, e, h, ⟨hnode, rfl⟩,
      (), h, ⟨hr, rfl⟩, _, h, ⟨parentOf_eq_ok.mpr ⟨rfl, hq₀⟩, rfl⟩, e, _,
      ⟨ps, n, d, rfl, hd, hn, rfl⟩, _, _, ⟨parentOf_eq_ok.mpr ⟨rfl, hq⟩, rfl⟩, rfl⟩
  exact step_of_perform (map_eq_ok.mpr ⟨(), hrename, rfl⟩)

theorem step_pathRename_back (hs : h.resolve fd source = .ok (j, qs ++ [m]))
    (ht : h.resolve newFd target = .ok (i, ps ++ [n])) :
    let g := (h.modifyDir i ps (·.erase n)).modifyDir j qs (·.insert m e)
    g.step (.pathRename fd source newFd target) =
      (.ok .done, (g.modifyDir j qs (·.erase m)).modifyDir i ps (·.insert n e)) := by
  intro g
  have habove := not_above_of_checkReplace hne hd hn hr
  have hne' : ¬ (j = i ∧ qs ++ [m] <+: ps ++ [n]) := fun ⟨hij, hpre⟩ => habove ⟨hij.symm, hpre⟩
  have hbelow : ¬ (j = i ∧ qs ++ [m] <+: ps) := fun ⟨hij, hpre⟩ =>
    hne' ⟨hij, hpre.trans (List.prefix_append ps [n])⟩
  obtain ⟨q, hq⟩ := Option.isSome_iff_exists.mp hparent
  have hq' : g.dirAt? j qs = some (q.insert m e) := by
    rw [dirAt?_modifyDir_self, hq]
    rfl
  have hput : (q.insert m e).get? m = some e := by
    rw [Directory.get?_insert, if_pos rfl]
  have hdir : (g.dirAt? i ps).isSome := by
    rw [isSome_dirAt?_modifyDir (get?_insert_of_ne m e) _ hbelow, dirAt?_modifyDir_self, hd]
    rfl
  have hfree : g.checkReplace e i (ps ++ [n]) = .ok () :=
    checkReplace_of_none hdir (nodeAt?_moved hne hd hn hr) e
  exact step_pathRename hne' hq' hput hfree
    ((isSome_dirAt?_modifyDir (get?_erase_of_ne m) g hbelow).trans hdir) hs ht

end Moves

theorem Moved.kinds_back {src dst : Nat × List String} {h'' : Host} (hm : Moved h src dst h')
    (hback : Moved h' dst src h'') (hnone : h.nodeAt? dst.1 dst.2 = none) (i : Nat)
    (path : List String) : h''.kindAt? i path = h.kindAt? i path := by
  by_cases hsrc : src.1 = i ∧ src.2 <+: path
  · obtain ⟨rfl, rest, rfl⟩ := hsrc
    rw [kindAt?, hback.carried, hm.carried, kindAt?]
  by_cases hdst : dst.1 = i ∧ dst.2 <+: path
  · obtain ⟨rfl, rest, rfl⟩ := hdst
    rw [kindAt?, hback.vacated, kindAt?, nodeAt?_append, hnone, Option.bind_none]
  · rw [hback.kept i path hdst hsrc, hm.kept i path hsrc hdst]

section Renames

variable {r : Reply} (hs : h.resolve fd source = .ok (i, src))
  (ht : h.resolve newFd target = .ok (j, dst)) (hne : (i, src) ≠ (j, dst))
  (hok : h.step (.pathRename fd source newFd target) = (.ok r, h'))
include hs ht hne hok

theorem moved_of_step : Moved h (i, src) (j, dst) h' ∧
    ∀ {fd' newFd' : Fd} {source' target' : String}, h'.resolve fd' source' = .ok (j, dst) →
      h'.resolve newFd' target' = .ok (i, src) →
        ∃ h'', h'.step (.pathRename fd' source' newFd' target') = (.ok .done, h'') := by
  cases effect_of_step hok with
  | look hc => cases hc
  | renameSame hs' ht' =>
    cases hs.symm.trans hs'
    cases ht.symm.trans ht'
    exact absurd rfl hne
  | rename hs' ht' hapart hd hn hr hparent =>
    cases hs.symm.trans hs'
    cases ht.symm.trans ht'
    exact ⟨moved_of_checkReplace hapart hd hn hr hparent, fun hback hforth =>
      ⟨_, step_pathRename_back hapart hd hn hr hparent hback hforth⟩⟩

theorem step_pathRename_restores (hv : h.mounts.Valid) (hnone : h.nodeAt? j dst = none)
    {fd' newFd' : Fd} {source' target' : String} (hback : h'.resolve fd' source' = .ok (j, dst))
    (hforth : h'.resolve newFd' target' = .ok (i, src)) :
    h'.step (.pathRename fd' source' newFd' target') = (.ok .done, h) := by
  have hkeeps {g g' : Host} {c : Call} {r : Reply} (hv : g.mounts.Valid)
      (hok : g.step c = (.ok r, g')) :
      g'.mounts.Valid ∧ g'.mounts.map (·.name) = g.mounts.map (·.name) := by
    have hvalid := (step_balanced hv c).1
    rw [hok] at hvalid
    exact ⟨hvalid, (effect_of_step hok).names⟩
  obtain ⟨hmoved, hreturn⟩ := moved_of_step hs ht hne hok
  obtain ⟨h'', hok'⟩ := hreturn hback hforth
  obtain ⟨hmoved', -⟩ := moved_of_step hback hforth hne.symm hok'
  obtain ⟨hv', hnames⟩ := hkeeps hv hok
  obtain ⟨hv'', hnames'⟩ := hkeeps hv' hok'
  have hmounts : h''.mounts = h.mounts := mounts_eq_of_kinds hv hv'' (hnames'.trans hnames)
    (hmoved.kinds_back hmoved' hnone)
  have hsame : h'' = h := by
    rw [hmoved'.others, hmounts, hmoved.others]
  rw [hok', hsame]

end Renames

/-- After any calls on a fresh host: a rename that succeeds between two different places moves all
that stands at and below the source to the target, empties the source, and keeps the rest of the
trees but for a file or an empty directory that it replaces, and the rest of the host. If nothing
was at the target, a rename back succeeds and leaves the host as it was before both. -/
theorem runCalls_fresh_moved (args env : List String) {mounts : MountTable}
    (hv : mounts.Valid) (stdout stderr : Redirect) (budget : UInt64) (deadline : Deadline)
    (calls : List Call) :
    let h := (fresh args env mounts stdout stderr budget deadline).runCalls calls
    ∀ fd source newFd target i src j dst r h', h.resolve fd source = .ok (i, src) →
      h.resolve newFd target = .ok (j, dst) → (i, src) ≠ (j, dst) →
        h.step (.pathRename fd source newFd target) = (.ok r, h') →
          Moved h (i, src) (j, dst) h' ∧
          (h.nodeAt? j dst = none → ∀ fd' source' newFd' target',
            h'.resolve fd' source' = .ok (j, dst) → h'.resolve newFd' target' = .ok (i, src) →
              h'.step (.pathRename fd' source' newFd' target') = (.ok .done, h)) := by
  intro h fd source newFd target i src j dst r h' hs ht hne hok
  have hvalid : h.mounts.Valid := valid_runCalls hv calls
  refine ⟨(moved_of_step hs ht hne hok).1, fun hnone fd' source' newFd' target' hback hforth => ?_⟩
  exact step_pathRename_restores hs ht hne hok hvalid hnone hback hforth

theorem moved_and_back :
    let mounts : MountTable := [⟨".", .dir "d" (.file "a" [1] .empty) .empty⟩, ⟨"lib", .empty⟩]
    let h := (fresh [] [] mounts .discard .discard 10 none).runCalls [.pathCreateDirectory 4 "x"]
    let h' := (h.step (.pathRename 3 "d" 4 "x/y")).2
    mounts.Valid ∧ (h.step (.pathRename 3 "d" 4 "x/y")).1 = .ok .done ∧
      h'.nodeAt? 1 ["x", "y", "a"] = some (.file [1]) ∧ h'.nodeAt? 0 ["d"] = none ∧
      h'.step (.pathRename 4 "x/../x/y" 3 "./d") = (.ok .done, h) := by
  intro mounts h h'
  have hv : mounts.Valid := by
    intro m hm
    rcases List.mem_cons.mp hm with rfl | hm
    · refine ⟨?_, ?_⟩
      · simp [Directory.Sorted, Directory.names, Directory.children]
      · simp [Directory.AllFiles, UInt64.size]
    · rw [List.mem_singleton.mp hm]
      exact Directory.valid_empty
  have hok : h.step (.pathRename 3 "d" 4 "x/y") = (.ok .done, h') := Prod.ext (by rfl) rfl
  obtain ⟨hmoved, hrestores⟩ := runCalls_fresh_moved [] [] hv .discard .discard 10 none
    [.pathCreateDirectory 4 "x"] 3 "d" 4 "x/y" 0 ["d"] 1 ["x", "y"] .done h' (by rfl) (by rfl)
    (by decide) hok
  have hfile : h.nodeAt? 0 ["d", "a"] = some (.file [1]) := by rfl
  have hback := hrestores (by rfl) 4 "x/../x/y" 3 "./d" (by rfl) (by rfl)
  exact ⟨hv, by rw [hok], (hmoved.carried ["a"]).trans hfile, hmoved.vacated [], hback⟩

end Host

end Buildbox
