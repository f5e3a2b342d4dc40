import Buildbox.Proofs.Archive.Entries
import Buildbox.Proofs.Tree.Segments

/-! The part of an archive below a prefix. The prefix is text: what starts with it is kept, and cut
behind it. Where such cuts fall between two segments, and all that lies below is written with this
text in front, the part is the subtree of the whole. -/

namespace Buildbox

def Tar.Entry.shown (e : Tar.Entry) : String :=
  String.ofList (Archive.trimDots (Utf8.lossy e.path))

namespace Archive

/-- Holds when a prefix that is taken as text is to an entry what its segments are: the name that it
ends in does not go on, and the entry starts with its text if it lies below its segments. -/
structure Divides (lead : String) (e : Tar.Entry) : Prop where
  cuts : ∀ rest, e.shown = lead ++ rest → Path.segments rest ≠ [] → Path.CutsAtSlash lead rest
  starts : Path.segments lead <+: Path.segments e.shown →
    Path.segments lead ≠ Path.segments e.shown →
      ∃ rest, e.shown = lead ++ rest ∧ Path.segments rest ≠ []

variable {lead path : String} {e : Tar.Entry} {es : List Tar.Entry} {rest : List String}
  {data : Option Bytes} {d : Directory} {bs : Bytes}

theorem keptPath?_none (e : Tar.Entry) : keptPath? none e.path = some e.shown :=
  rfl

theorem keptPath?_eq_some : keptPath? (some lead) e.path = some path ↔ e.shown = lead ++ path := by
  simp only [keptPath?, Option.map_eq_some_iff, Text.dropLeading?_eq_some, Tar.Entry.shown]
  constructor
  · rintro ⟨rest, hrest, rfl⟩
    rw [hrest, String.ofList_append, String.ofList_toList]
  · intro h
    refine ⟨path.toList, ?_, String.ofList_toList⟩
    rw [← String.toList_append, ← h, String.toList_ofList]

/-- Holds when an entry is kept if and only if its segments start with those of the prefix; its path
is what follows. An entry of which nothing is left counts for nothing. -/
def KeptBySegments (lead : String) (e : Tar.Entry) : Prop :=
  ∀ rest, rest ≠ [] →
    ((∃ path, keptPath? (some lead) e.path = some path ∧ Path.segments path = rest) ↔
      Path.segments e.shown = Path.segments lead ++ rest)

theorem Divides.keptBySegments (h : Divides lead e) : KeptBySegments lead e := by
  intro rest hrest
  simp only [keptPath?_eq_some]
  constructor
  · rintro ⟨path, hpath, rfl⟩
    rw [hpath, Path.segments_of_cutsAtSlash (h.cuts path hpath hrest)]
  · intro hsegments
    have hbelow : Path.segments lead <+: Path.segments e.shown := ⟨rest, hsegments.symm⟩
    have hne : Path.segments lead ≠ Path.segments e.shown := fun heq =>
      hrest (List.append_right_eq_self.mp (hsegments.symm.trans heq.symm))
    obtain ⟨path, hpath, hleft⟩ := h.starts hbelow hne
    rw [hpath, Path.segments_of_cutsAtSlash (h.cuts path hpath hleft)] at hsegments
    exact ⟨path, hpath, List.append_cancel_left hsegments⟩

theorem divides_iff (hlead : Path.segments lead ≠ []) :
    Divides lead e ↔ KeptBySegments lead e := by
  have hne : lead ≠ "" := fun heq => hlead (by rw [heq]; rfl)
  refine ⟨Divides.keptBySegments, fun h => ⟨fun rest hshown hrest => ?_, fun hbelow hsame => ?_⟩⟩
  · have hsegments := (h (Path.segments rest) hrest).mp ⟨rest, keptPath?_eq_some.mpr hshown, rfl⟩
    rw [hshown] at hsegments
    exact (Path.segments_append_iff hne).mp hsegments
  · obtain ⟨r, hr⟩ := hbelow
    have hrest : r ≠ [] := by
      rintro rfl
      exact hsame ((List.append_nil _).symm.trans hr)
    obtain ⟨path, hkept, hpath⟩ := (h r hrest).mpr hr.symm
    exact ⟨path, keptPath?_eq_some.mp hkept, hpath ▸ hrest⟩

theorem divides_of_plain {ps : List String} (hps : ps ≠ []) (hseg : ∀ s ∈ ps, Path.IsSegment s)
    (he : Path.IsPlain e.shown) : Divides (Path.join ps ++ "/") e where
  cuts _ _ _ := .inl ⟨Path.join ps, rfl⟩
  starts hbelow hne := by
    obtain ⟨qs, hqs, hshown⟩ := he
    have hpath : Path.segments e.shown = qs := by
      rcases hshown with hshown | hshown
      · rw [hshown, Path.segments_join hqs]
      · rw [hshown, Path.segments_append_slash, Path.segments_join hqs]
    rw [hpath, Path.segments_append_slash, Path.segments_join hseg] at hbelow hne
    obtain ⟨r, rfl⟩ := hbelow
    have hr : r ≠ [] := by
      rintro rfl
      exact hne (List.append_nil ps).symm
    have hrest : Path.segments (Path.join r) = r :=
      Path.segments_join fun s hs => hqs s (List.mem_append_right ps hs)
    rw [Path.join_append hps hr] at hshown
    rcases hshown with hshown | hshown
    · exact ⟨Path.join r, hshown, hrest.symm ▸ hr⟩
    · refine ⟨Path.join r ++ "/", by rw [hshown, String.append_assoc], ?_⟩
      rw [Path.segments_append_slash, hrest]
      exact hr

section Below

variable {p : List String} (h : ∀ e ∈ es, Divides lead e)
include h

theorem wanted?_below (he : e ∈ es) : wanted? (some lead) e = some ⟨rest, data⟩ ↔
    rest ≠ [] ∧ wanted? none e = some ⟨Path.segments lead ++ rest, data⟩ := by
  rw [wanted?_eq_some, wanted?_eq_some]
  constructor
  · rintro ⟨path, hkept, hpath, hrest, hkind⟩
    have hshown := ((h e he).keptBySegments rest hrest).mp ⟨path, hkept, hpath⟩
    have hne : Path.segments lead ++ rest ≠ [] := List.append_ne_nil_of_right_ne_nil _ hrest
    exact ⟨hrest, e.shown, keptPath?_none e, hshown, hne, hkind⟩
  · rintro ⟨hrest, path, hkept, hpath, -, hkind⟩
    cases (keptPath?_none e).symm.trans hkept
    obtain ⟨path, hkept, hpath⟩ := ((h e he).keptBySegments rest hrest).mpr hpath
    exact ⟨path, hkept, hpath, hrest, hkind⟩

theorem mem_wanted_below : ⟨rest, data⟩ ∈ wanted (some lead) es ↔
    rest ≠ [] ∧ ⟨Path.segments lead ++ rest, data⟩ ∈ wanted none es := by
  rw [wanted, wanted, List.mem_filterMap, List.mem_filterMap]
  constructor
  · rintro ⟨e, he, hk⟩
    obtain ⟨hrest, hk⟩ := (wanted?_below h he).mp hk
    exact ⟨hrest, e, he, hk⟩
  · rintro ⟨hrest, e, he, hk⟩
    exact ⟨e, he, (wanted?_below h he).mpr ⟨hrest, hk⟩⟩

theorem lastAt?_below (hp : p ≠ []) :
    lastAt? (wanted (some lead) es) p = lastAt? (wanted none es) (Path.segments lead ++ p) := by
  have hat {o : Option Wanted} {p : List String} {bytes : Bytes} :
      (o.filter (·.path = p)).bind (·.data) = some bytes ↔ o = some ⟨p, some bytes⟩ := by
    cases o with
    | none => exact iff_of_false nofun nofun
    | some k =>
      obtain ⟨path, data⟩ := k
      by_cases hpath : path = p <;> simp [Option.filter, hpath]
  unfold lastAt? wanted
  rw [List.filter_filterMap, List.filter_filterMap, List.filterMap_filterMap,
    List.filterMap_filterMap]
  refine congrArg List.getLast? (List.filterMap_congr fun e he => Option.ext fun bytes => ?_)
  rw [hat, hat, wanted?_below h he, and_iff_right hp]

theorem covers_below (hp : p ≠ []) :
    Covers (wanted (some lead) es) p ↔ Covers (wanted none es) (Path.segments lead ++ p) := by
  constructor
  · rintro ⟨⟨path, data⟩, hk, hpre, hne⟩
    have hpre' := (List.prefix_append_right_inj (Path.segments lead)).mpr hpre
    refine ⟨_, ((mem_wanted_below h).mp hk).2, hpre', fun hfile heq => ?_⟩
    exact hne hfile (List.append_cancel_left heq)
  · rintro ⟨⟨_, data⟩, hk, ⟨r, rfl⟩, hne⟩
    rw [List.append_assoc] at hk hne
    have hpr : p ++ r ≠ [] := List.append_ne_nil_of_left_ne_nil hp r
    refine ⟨⟨p ++ r, data⟩, (mem_wanted_below h).mpr ⟨hpr, hk⟩, List.prefix_append p r, ?_⟩
    exact fun hfile heq => hne hfile (congrArg _ heq)

theorem consistent_below (hks : Consistent (wanted none es)) :
    Consistent (wanted (some lead) es) := by
  rintro ⟨p, data⟩ hk ⟨q, other⟩ hl ⟨hfile, hclash⟩
  refine hks _ ((mem_wanted_below h).mp hk).2 _ ((mem_wanted_below h).mp hl).2 ⟨hfile, ?_⟩
  refine hclash.imp (fun hbelow => ?_) fun hsame =>
    ⟨hsame.1, congrArg (Path.segments lead ++ ·) hsame.2⟩
  exact ⟨(List.prefix_append_right_inj _).mpr hbelow.1,
    fun heq => hbelow.2 (List.append_cancel_left heq)⟩

theorem whole_below (hwhole : Whole none es) : Whole (some lead) es := by
  rintro e he ⟨path, data⟩ hk hfile
  exact hwhole e he _ ((wanted?_below h he).mp hk).2 hfile

end Below

theorem ofTar_below (h : ∀ e ∈ (Tar.entries bs).1, Divides lead e)
    (hd : ofTar bs none = .ok d) :
    ofTar bs (some lead) = .ok (d.dirAt (Path.segments lead)) := by
  obtain ⟨hfault, hwhole⟩ := whole_of_ofTar hd
  have hes : Tar.entries bs = ((Tar.entries bs).1, none) := Prod.ext rfl hfault
  obtain ⟨hks, hshows⟩ := shows_of_ofTar hes hwhole hd
  obtain ⟨part, hpart⟩ := ofTar_of_consistent hes (whole_below h hwhole) (consistent_below h hks)
  obtain ⟨-, hshows'⟩ := shows_of_ofTar hes (whole_below h hwhole) hpart
  have hsub : (d.dirAt (Path.segments lead)).Sorted := Directory.sorted_dirAt hshows.sorted _
  have hbelow {p : List String} (hp : p ≠ []) : Path.segments lead ++ p ≠ [] :=
    List.append_ne_nil_of_right_ne_nil _ hp
  have hsame : part = d.dirAt (Path.segments lead) := by
    refine Directory.ext_of_files_of_dirs hshows'.sorted hsub (fun p b => ?_) fun p hp => ?_
    · by_cases hp : p = []
      · subst hp
        exact iff_of_false nofun nofun
      · rw [Directory.lookup_eq_file, Directory.lookup_eq_file, hshows'.file p hp,
          Directory.at?_dirAt _ _ hp, hshows.file _ (hbelow hp), lastAt?_below h hp]
    · rw [hshows'.dir p hp, Directory.at?_dirAt _ _ hp, hshows.dir _ (hbelow hp), covers_below h hp]
  rw [← hsame]
  exact hpart

/-- An entry is kept by the segments of its path just if the prefix divides it. Where the prefix
divides all entries of an archive, the part below it is the subtree of the whole at its segments, or
an empty tree where there is none. -/
theorem prefix_takes_subtree (hlead : Path.segments lead ≠ []) :
    (∀ e, Divides lead e ↔ KeptBySegments lead e) ∧
    ∀ bs, (∀ e ∈ (Tar.entries bs).1, Divides lead e) → ∀ d, ofTar bs none = .ok d →
      ofTar bs (some lead) = .ok ((d.dirAt? (Path.segments lead)).getD .empty) := by
  refine ⟨fun e => divides_iff hlead, fun bs h d hd => ?_⟩
  rw [← Directory.dirAt_eq]
  exact ofTar_below h hd

theorem prefix_takes_subtree_lib :
    let bs := member "./lib/a/x" 0x30 [1] ++ member "lib/b/" 0x35 [] ++ member "library/y" 0x30 [2]
    let lib : Directory := .dir "a" (.file "x" [1] .empty) (.dir "b" .empty .empty)
    Path.segments "lib/" ≠ [] ∧ (∀ e ∈ (Tar.entries bs).1, Divides "lib/" e) ∧
      ofTar bs none = .ok (.dir "lib" lib (.dir "library" (.file "y" [2] .empty) .empty)) ∧
      ofTar bs (some "lib/") = .ok lib := by
  intro bs lib
  have hlead : Path.segments "lib/" ≠ [] := by decide
  have hnames : (Tar.entries bs).1.map Tar.Entry.shown = ["lib/a/x", "lib/b/", "library/y"] := by
    decide +kernel
  have hplain : ∀ path ∈ ["lib/a/x", "lib/b/", "library/y"],
      path = Path.join (Path.segments path) ∨ path = Path.join (Path.segments path) ++ "/" := by
    decide +kernel
  have hdivides (e) (he : e ∈ (Tar.entries bs).1) : Divides "lib/" e := by
    have hseg : ∀ s ∈ ["lib"], Path.IsSegment s := by decide
    have hshown := hnames ▸ List.mem_map_of_mem (f := Tar.Entry.shown) he
    exact divides_of_plain (List.cons_ne_nil "lib" []) hseg
      (Path.isPlain_of_segments (hplain e.shown hshown))
  have hwhole : ofTar bs none =
      .ok (.dir "lib" lib (.dir "library" (.file "y" [2] .empty) .empty)) := by decide +kernel
  exact ⟨hlead, hdivides, hwhole, (prefix_takes_subtree hlead).2 bs hdivides _ hwhole⟩

theorem prefix_splits_name :
    let bs := member "library/x" 0x30 [1] ++ member "/lib/y" 0x30 [2] ++ member "lib/z" 0x30 [3]
    let whole : Directory := .dir "lib" (.file "y" [2] (.file "z" [3] .empty))
      (.dir "library" (.file "x" [1] .empty) .empty)
    let part : Directory := .dir "rary" (.file "x" [1] .empty) (.file "z" [3] .empty)
    Path.segments "lib" ≠ [] ∧ ofTar bs none = .ok whole ∧ ofTar bs (some "lib") = .ok part ∧
      part ≠ (whole.dirAt? (Path.segments "lib")).getD .empty := by
  decide +kernel

end Archive

end Buildbox
