import Buildbox.Proofs.Host.Budget
import Buildbox.Proofs.Host.Dirents
import Buildbox.Proofs.Host.Reading
import Buildbox.Proofs.Utf8.Reading

/-! Listing a directory while children that were listed are taken out of it. A cookie is a place in
the directory as it is when it is read, so whatever is taken out moves the rest up. -/

namespace Buildbox.Host

def TakesOut (h : Host) (i : Nat) (ps : List String) (n : String) : Call → Prop
  | .pathUnlinkFile fd path | .pathRemoveDirectory fd path => h.resolve fd path = .ok (i, ps ++ [n])
  | .pathRename fd source newFd target =>
    h.resolve fd source = .ok (i, ps ++ [n]) ∧ ∀ m, h.resolve newFd target ≠ .ok (i, ps ++ [m])
  | _ => False

/-- A guest lists a directory, one entry a read, each read from the cookie of the entry shown last.
It takes out children that it was shown, and it may do other things that concern neither the names
in the directory nor its descriptor. The list is of the names shown so far, and the number counts
those taken out. -/
inductive Clearing (fd : Fd) (i : Nat) (ps : List String) (start : Host) :
    UInt64 → List String → Nat → Host → Prop where
  | start : Clearing fd i ps start 0 [] 0 start
  | read {cookie shown taken h limit bs e rest name}
    (hc : Clearing fd i ps start cookie shown taken h) (hlimit : 0 < limit)
    (hread : h.fdReaddir fd cookie limit = .ok bs) (he : Dirent.read? bs = some (e, rest))
    (hname : e.name = Utf8.encode name) :
    Clearing fd i ps start e.next (shown ++ [name]) taken h
  | take {cookie shown taken h c h' n} (hc : Clearing fd i ps start cookie shown taken h)
    (hstep : h.step c = (.ok .done, h')) (hout : h.TakesOut i ps n c) (hn : n ∈ shown) :
    Clearing fd i ps start cookie shown (taken + 1) h'
  | aside {cookie shown taken h h' c} (hc : Clearing fd i ps start cookie shown taken h)
    (hstep : (h.step c).2 = h') (hfd : h'.fds.get? fd = h.fds.get? fd)
    (hnames : (h'.dirAt? i ps).map Directory.names = (h.dirAt? i ps).map Directory.names) :
    Clearing fd i ps start cookie shown taken h'

section TakesOut

variable {h h' : Host} {c : Call} {r : Reply} {i : Nat} {ps : List String} {n : String}
  {d : Directory}

theorem not_takesOut_of_looks (hc : c.looks = true) : ¬ h.TakesOut i ps n c := by
  cases c <;> first | exact id | cases hc

theorem names_of_takesOut (hv : h.mounts.Valid) (ht : h.TakesOut i ps n c)
    (hs : h.step c = (.ok r, h')) (hd : h.dirAt? i ps = some d) :
    n ∈ d.names ∧ h'.fds = h.fds ∧
      (h'.dirAt? i ps).map Directory.names = some (d.names.filter (· ≠ n)) := by
  have herased : ((h.modifyDir i ps (·.erase n)).dirAt? i ps).map Directory.names =
      some (d.names.filter (· ≠ n)) := by
    rw [dirAt?_modifyDir_self, hd]
    exact congrArg some (Directory.names_erase n d)
  cases effect_of_step hs with
  | unlinkFile hp hd' hn | removeDirectory hp hd' hn =>
    obtain ⟨rfl, hpath⟩ := Prod.mk.inj (Except.ok.inj (hp.symm.trans ht))
    obtain ⟨rfl, rfl⟩ := List.append_singleton_inj.mp hpath
    obtain rfl := Option.some.inj (hd.symm.trans hd')
    exact ⟨Directory.mem_names_of_get? hn, rfl, herased⟩
  | @rename _ _ _ _ _ j _ qs _ m _ e hp hq hne hd' hn hr =>
    obtain ⟨ht, haway⟩ := ht
    obtain ⟨rfl, hpath⟩ := Prod.mk.inj (Except.ok.inj (hp.symm.trans ht))
    obtain ⟨rfl, rfl⟩ := List.append_singleton_inj.mp hpath
    obtain rfl := Option.some.inj (hd.symm.trans hd')
    have habove := not_above_of_checkReplace hne hd hn hr
    refine ⟨Directory.mem_names_of_get? hn, rfl, ?_⟩
    rw [names_modifyDir_insert (valid_erase hv _ _ _), herased]
    · rintro ⟨rfl, rfl⟩
      exact haway m hq
    · rintro ⟨rfl, hpre⟩
      exact habove ⟨rfl, hpre.trans (List.prefix_append _ _)⟩
  | renameSame hp hq =>
    obtain ⟨ht, haway⟩ := ht
    exact absurd (hq.trans (hp.symm.trans ht)) (haway n)
  | look hc => exact absurd ht (not_takesOut_of_looks hc)
  | output | write | pwrite | readInput | read | seek | close | renumber | setAppend
  | noAppend | setSize | openDir | openFile | openCut | create | createDirectory | random
  | poll => exact ht.elim

end TakesOut

theorem drop_filter_not_mem {names removed : List String} {k : Nat} (hnames : names.Nodup)
    (hremoved : removed.Nodup) (hsub : ∀ n ∈ removed, n ∈ names.take (k + removed.length)) :
    (names.filter (· ∉ removed)).drop k = names.drop (k + removed.length) := by
  have hsplit := List.take_append_drop (k + removed.length) names
  have hback : (names.drop (k + removed.length)).filter (· ∉ removed) =
      names.drop (k + removed.length) := by
    refine List.filter_eq_self.mpr fun n hn => decide_eq_true fun hmem => ?_
    rw [← hsplit] at hnames
    exact (List.nodup_append.mp hnames).2.2 n (hsub n hmem) n hn rfl
  have hgone : ((names.take (k + removed.length)).filter (· ∈ removed)).length =
      removed.length := by
    refine List.Perm.length_eq ?_
    refine (List.perm_ext_iff_of_nodup ((hnames.sublist (List.take_sublist _ _)).filter _)
      hremoved).mpr fun n => ?_
    simpa using fun hn => hsub n hn
  have hfront : ((names.take (k + removed.length)).filter (· ∉ removed)).length +
      removed.length = (names.take (k + removed.length)).length := by
    have hboth := List.length_eq_countP_add_countP (· ∈ removed)
      (l := names.take (k + removed.length))
    simp only [decide_eq_true_eq, List.countP_eq_length_filter] at hboth
    omega
  have hcut : (names.take (k + removed.length)).length ≤ k + removed.length :=
    List.length_take_le _ _
  rw [← hsplit, List.filter_append, hback, hsplit, List.drop_append,
    List.drop_of_length_le (by omega), List.nil_append]
  by_cases hlong : k + removed.length ≤ names.length
  · rw [List.length_take, Nat.min_eq_left hlong] at hfront
    have hzero : k - ((names.take (k + removed.length)).filter (· ∉ removed)).length = 0 := by omega
    rw [hzero, List.drop_zero]
  · rw [List.drop_of_length_le (Nat.le_of_not_le hlong), List.drop_nil]

variable {fd : Fd} {i : Nat} {ps : List String} {preopen : Bool} {start h : Host} {d : Directory}
  {cookie : UInt64} {shown : List String} {taken : Nat}

structure Cleared (fd : Fd) (i : Nat) (ps : List String) (preopen : Bool) (names : List String)
    (cookie : UInt64) (shown : List String) (taken : Nat) (h : Host) : Prop where
  valid : h.mounts.Valid
  descriptor : h.fds.get? fd = some (.dir i ps preopen)
  cookie : cookie.toNat = shown.length
  passed : shown.Sublist (names.take (shown.length + taken))
  left : ∃ removed : List String, removed.Nodup ∧ removed.length = taken ∧ (∀ n ∈ removed, n ∈ shown) ∧
    (h.dirAt? i ps).map Directory.names = some (names.filter (· ∉ removed))

theorem Cleared.next {names : List String} (hc : Cleared fd i ps preopen names cookie shown taken h)
    (hnames : names.Nodup) (hshort : ∀ n ∈ names, (Utf8.encode n).length < UInt32.size)
    {limit : Nat} (hlimit : 0 < limit) :
    ∃ bs, h.fdReaddir fd cookie limit = .ok bs ∧
      (Dirent.read? bs).map (fun p => (p.1.name, p.1.next)) =
        (names[shown.length + taken]?).map
          fun n => (Utf8.encode n, UInt64.ofNat (shown.length + 1)) := by
  obtain ⟨removed, hnodup, rfl, hsub, hleft⟩ := hc.left
  obtain ⟨d, hd, hd'⟩ := Option.map_eq_some_iff.mp hleft
  have hdrop := drop_filter_not_mem hnames hnodup fun n hn => hc.passed.subset (hsub n hn)
  have hread := fdReaddir_eq hc.descriptor hd cookie limit
  rw [hc.cookie] at hread
  refine ⟨_, hread, ?_⟩
  rw [← hd', Directory.names, ← List.map_drop] at hdrop
  rw [← List.head?_drop, ← hdrop]
  cases hrest : d.children.drop shown.length with
  | nil => rfl
  | cons c cs =>
    obtain ⟨name, e⟩ := c
    have hmem : name ∈ names := by
      have hchild : name ∈ d.names :=
        List.mem_map_of_mem (List.mem_of_mem_drop (hrest ▸ List.mem_cons_self))
      rw [hd'] at hchild
      exact (List.mem_filter.mp hchild).1
    have hname := hshort name hmem
    rw [dirents, if_neg (Nat.not_le.mpr hlimit)]
    simp only
    rw [Dirent.read?_dirent _ _ _ _ _ _ hname]
    rfl

theorem cleared_of_clearing (hv : start.mounts.Valid)
    (hfd : start.fds.get? fd = some (.dir i ps preopen)) (hd : start.dirAt? i ps = some d)
    (hsize : d.size < UInt64.size) (hshort : ∀ n ∈ d.names, (Utf8.encode n).length < UInt32.size)
    (hnames : d.names.Nodup) (hc : Clearing fd i ps start cookie shown taken h) :
    Cleared fd i ps preopen d.names cookie shown taken h := by
  induction hc with
  | start =>
    refine ⟨hv, hfd, rfl, List.nil_sublist _, [], List.nodup_nil, rfl, nofun, ?_⟩
    have hall : d.names.filter (· ∉ ([] : List String)) = d.names :=
      List.filter_eq_self.mpr fun _ _ => decide_eq_true List.not_mem_nil
    rw [hall, hd]
    rfl
  | @read cookie shown taken h limit bs e rest name _ hlimit hread he hname ih =>
    obtain ⟨bs', hread', hnext⟩ := ih.next hnames hshort hlimit
    obtain rfl := Except.ok.inj (hread.symm.trans hread')
    rw [he] at hnext
    obtain ⟨n, hn, heq⟩ := Option.map_eq_some_iff.mp hnext.symm
    obtain ⟨hsame, hcookie⟩ := Prod.mk.inj heq
    obtain rfl : n = name := Utf8.encode_inj (hsame.trans hname)
    have hlt : shown.length + taken < d.names.length := (List.getElem?_eq_some_iff.mp hn).1
    have hbound : d.names.length < UInt64.size := by rwa [Directory.names, List.length_map]
    have hlast : (shown ++ [n]).length + taken = shown.length + taken + 1 := by
      rw [List.length_append, List.length_singleton]
      omega
    obtain ⟨removed, hnodup, hlength, hsub, hleft⟩ := ih.left
    refine ⟨ih.valid, ih.descriptor, ?_, ?_, removed, hnodup, hlength, ?_, hleft⟩
    · rw [← hcookie, List.length_append, List.length_singleton]
      exact UInt64.toNat_ofNat_of_lt (Nat.lt_of_le_of_lt (by omega) hbound)
    · rw [hlast, List.take_add_one, hn]
      exact ih.passed.append (List.Sublist.refl _)
    · exact fun m hm => List.mem_append_left _ (hsub m hm)
  | @take cookie shown taken h c h' n _ hstep hout hn ih =>
    obtain ⟨removed, hnodup, hlength, hsub, hleft⟩ := ih.left
    obtain ⟨d', hd', hd''⟩ := Option.map_eq_some_iff.mp hleft
    obtain ⟨hmem, hfds, hnames'⟩ := names_of_takesOut ih.valid hout hstep hd'
    have hvalid := (step_balanced ih.valid c).1
    rw [hstep] at hvalid
    rw [hd''] at hmem hnames'
    have hfresh : n ∉ removed := of_decide_eq_true (List.mem_filter.mp hmem).2
    refine ⟨hvalid, hfds ▸ ih.descriptor, ih.cookie, ?_, n :: removed,
      List.nodup_cons.mpr ⟨hfresh, hnodup⟩, congrArg Nat.succ hlength,
      List.forall_mem_cons.mpr ⟨hn, hsub⟩, ?_⟩
    · exact ih.passed.trans (List.take_sublist_take_left (by omega))
    · rw [hnames', List.filter_filter]
      refine congrArg some (List.filter_congr fun m _ => ?_)
      simp
  | @aside cookie shown taken h h' c _ hstep hfd hnames' ih =>
    have hvalid := (step_balanced ih.valid c).1
    rw [hstep] at hvalid
    obtain ⟨removed, hnodup, hlength, hsub, hleft⟩ := ih.left
    exact ⟨hvalid, hfd.trans ih.descriptor, ih.cookie, ih.passed, removed, hnodup, hlength, hsub,
      hnames'.trans hleft⟩

/-- The read after some entries were shown and some children were taken out shows the child that
has that many before it in the directory as it was at first: no entry is shown twice, they come in
order, and for every child that is taken out the listing passes over one that is still there. -/
theorem clearing_passes_over (hv : start.mounts.Valid)
    (hfd : start.fds.get? fd = some (.dir i ps preopen)) (hd : start.dirAt? i ps = some d)
    (hsize : d.size < UInt64.size) (hshort : ∀ n ∈ d.names, (Utf8.encode n).length < UInt32.size)
    (hc : Clearing fd i ps start cookie shown taken h) :
    shown.Pairwise (· < ·) ∧ (taken = 0 → shown = d.names.take shown.length) ∧
      ∀ limit, 0 < limit → ∃ bs, h.fdReaddir fd cookie limit = .ok bs ∧
        (Dirent.read? bs).map (·.1.name) =
          (d.names[shown.length + taken]?).map Utf8.encode := by
  have horder := Directory.pairwise_names (valid_of_dirAt? hv hd).sorted
  have hnames : d.names.Nodup := horder.imp fun hlt => String.ne_of_lt hlt
  have hcleared := cleared_of_clearing hv hfd hd hsize hshort hnames hc
  refine ⟨?_, ?_, fun limit hlimit => ?_⟩
  · exact horder.sublist (hcleared.passed.trans (List.take_sublist _ _))
  · rintro rfl
    refine hcleared.passed.eq_of_length_le ?_
    exact List.length_take_le _ _
  · obtain ⟨bs, hread, hnext⟩ := hcleared.next hnames hshort hlimit
    refine ⟨bs, hread, ?_⟩
    have hfirst := congrArg (Option.map (·.1)) hnext
    rwa [Option.map_map, Option.map_map] at hfirst

section Three

def threeFiles : Directory :=
  .file "a" [] (.file "b" [] (.file "c" [] .empty))

def ofThreeFiles : Host :=
  new [] [] [⟨".", threeFiles⟩] .discard .discard

def ofTwoFiles : Host :=
  (ofThreeFiles.step (.pathUnlinkFile 3 "a")).2

theorem clearing_first : Clearing 3 0 [] ofThreeFiles 1 ["a"] 1 ofTwoFiles := by
  have hfd : ofThreeFiles.fds.get? 3 = some (.dir 0 [] true) := rfl
  have hread := fdReaddir_eq hfd (d := threeFiles) rfl 0 1
  have hfirst := Dirent.read?_dirent 0 [] 0 "a" (.file []) [] (by decide)
  have hshown : Clearing 3 0 [] ofThreeFiles 1 ["a"] 0 ofThreeFiles :=
    Clearing.start.read Nat.one_pos hread hfirst rfl
  have hstep : ofThreeFiles.step (.pathUnlinkFile 3 "a") = (.ok .done, ofTwoFiles) := rfl
  have hout : ofThreeFiles.TakesOut 0 [] "a" (.pathUnlinkFile 3 "a") := rfl
  exact hshown.take hstep hout List.mem_cons_self

theorem clearing_passes_over_second :
    ∃ bs, ofTwoFiles.fdReaddir 3 1 1 = .ok bs ∧
      (Dirent.read? bs).map (·.1.name) = some (Utf8.encode "c") := by
  have hv : ofThreeFiles.mounts.Valid := by
    intro m hm
    obtain rfl := List.mem_singleton.mp hm
    exact ⟨⟨by decide, by decide, by decide, trivial⟩, ⟨by decide, by decide, by decide, trivial⟩⟩
  exact (clearing_passes_over (d := threeFiles) hv rfl rfl (by decide) (by decide)
    clearing_first).2.2 1 Nat.one_pos

theorem clearing_never_shows_second :
    ∃ cookie, Clearing 3 0 [] ofThreeFiles cookie ["a", "c"] 1 ofTwoFiles ∧
      ofTwoFiles.fdReaddir 3 cookie 1 = .ok [] ∧
      (ofTwoFiles.dirAt? 0 []).map Directory.names = some ["b", "c"] := by
  have hfd : ofTwoFiles.fds.get? 3 = some (.dir 0 [] true) := rfl
  have hread (cookie : UInt64) := fdReaddir_eq hfd
    (d := .file "b" [] (.file "c" [] .empty)) rfl cookie 1
  have hsecond := Dirent.read?_dirent 0 [] 1 "c" (.file []) [] (by decide)
  exact ⟨2, clearing_first.read Nat.one_pos (hread 1) hsecond rfl, hread 2, rfl⟩

end Three

end Buildbox.Host
