import Buildbox.Proofs.Lists
import Buildbox.Proofs.Text.LineBuffers
import Buildbox.Worker.Handler

/-! The names of sources and of what is derived from them. A valid configuration keeps the two
apart: what is derived from a source is no source itself. -/

namespace Buildbox

theorem Path.stem?_eq_some {name ext stem : String} :
    Path.stem? name ext = some stem ↔ name.toList = stem.toList ++ '.' :: ext.toList ∧
      stem.toList ≠ [] ∧ stem.toList.getLast? ≠ some '/' := by
  unfold Path.stem?
  cases htrail : Text.dropTrailing? ('.' :: ext.toList) name.toList with
  | none =>
    refine iff_of_false nofun ?_
    rintro ⟨hname, -⟩
    rw [Text.dropTrailing?_eq_some.mpr hname] at htrail
    cases htrail
  | some cs =>
    rw [Text.dropTrailing?_eq_some] at htrail
    have hcut (hname : name.toList = stem.toList ++ '.' :: ext.toList) : cs = stem.toList :=
      List.append_cancel_right (htrail.symm.trans hname)
    constructor
    · intro h
      dsimp only at h
      split at h
      · cases h
      · next hbad =>
        obtain rfl := Option.some.inj h
        rw [String.toList_ofList]
        exact ⟨htrail, fun hnil => hbad (.inl hnil), fun hslash => hbad (.inr hslash)⟩
    · rintro ⟨hname, hnil, hslash⟩
      obtain rfl := hcut hname
      dsimp only
      rw [if_neg (not_or.mpr ⟨hnil, hslash⟩), String.ofList_toList]

theorem Path.exists_segments_extension (stem : String) :
    ∃ parents last, ∀ ext : String, ext ≠ "" → '/' ∉ ext.toList →
      Path.segments (stem ++ "." ++ ext) = parents ++ [String.ofList (last ++ '.' :: ext.toList)] := by
  obtain ⟨first, last, hsplit⟩ := Text.exists_splitAt_append '/' stem.toList
  refine ⟨(first.map String.ofList).filter fun s => s ≠ "" ∧ s ≠ ".", last, fun ext hext hslash => ?_⟩
  have hlist : (stem ++ "." ++ ext).toList = stem.toList ++ '.' :: ext.toList := by simp
  have hfree : '/' ∉ '.' :: ext.toList := by simp [hslash]
  have hlong : 1 < (String.ofList (last ++ '.' :: ext.toList)).toList.length := by
    have hpos : 0 < ext.toList.length :=
      List.length_pos_iff.mpr fun hnil => hext (String.toList_inj.mp hnil)
    rw [String.toList_ofList, List.length_append, List.length_cons]
    omega
  rw [Path.segments, Path.parts, hlist, hsplit _ hfree, List.map_append, List.filter_append,
    List.map_singleton]
  generalize String.ofList (last ++ '.' :: ext.toList) = s at hlong
  have hkept : s ≠ "" ∧ s ≠ "." := by
    constructor
    · rintro rfl
      exact absurd hlong (by decide)
    · rintro rfl
      exact absurd hlong (by decide)
  simp [hkept]

theorem cut_at_last_dot {as bs cs ds : List Char} (h : as ++ '.' :: bs = cs ++ '.' :: ds)
    (hb : '.' ∉ bs) (hd : '.' ∉ ds) : as = cs ∧ bs = ds := by
  rcases List.append_eq_append_iff.mp h with ⟨more, rfl, hmore⟩ | ⟨more, rfl, hmore⟩
  · cases more with
    | nil => exact ⟨(List.append_nil as).symm, (List.cons.inj hmore).2⟩
    | cons c more =>
      have hdot : '.' ∈ bs := by
        rw [(List.cons.inj hmore).2]
        simp
      exact absurd hdot hb
  · cases more with
    | nil => exact ⟨List.append_nil cs, (List.cons.inj hmore).2.symm⟩
    | cons c more =>
      have hdot : '.' ∈ ds := by
        rw [(List.cons.inj hmore).2]
        simp
      exact absurd hdot hd

theorem Config.dot_not_mem_of_bare {ext : String} (h : isBareExtension ext = true) :
    '.' ∉ ext.toList := by
  simp only [isBareExtension, Bool.and_eq_true, Bool.not_eq_true', List.contains_eq_mem,
    decide_eq_false_iff_not] at h
  exact h.1.2

theorem Config.ne_blank_of_bare {ext : String} (h : isBareExtension ext = true) :
    ext ≠ "" ∧ '/' ∉ ext.toList := by
  simp only [isBareExtension, Bool.and_eq_true, Bool.not_eq_true', List.contains_eq_mem,
    decide_eq_false_iff_not, decide_eq_true_eq] at h
  exact ⟨h.1.1, h.2⟩

theorem Config.extensions_of_validate {c : Config} (h : c.validate = .ok ()) :
    isBareExtension c.transpile.sourceExt = true ∧ isBareExtension c.transpile.targetExt = true ∧
      c.transpile.sourceExt ≠ c.transpile.targetExt := by
  unfold validate at h
  obtain ⟨_, -, h⟩ := ok_of_bind h
  obtain ⟨_, hexts, h⟩ := ok_of_bind h
  simp only [extensions, List.forIn_cons, List.forIn_nil] at hexts
  have hsource : isBareExtension c.transpile.sourceExt = true := by
    cases hs : isBareExtension c.transpile.sourceExt with
    | true => rfl
    | false =>
      rw [hs] at hexts
      cases hexts
  have htarget : isBareExtension c.transpile.targetExt = true := by
    cases ht : isBareExtension c.transpile.targetExt with
    | true => rfl
    | false =>
      rw [hsource, ht] at hexts
      cases hexts
  refine ⟨hsource, htarget, fun heq => ?_⟩
  rw [if_pos heq] at h
  cases h

namespace TranspileConfig

variable {c : TranspileConfig} {name other derived : String}

theorem derivedName?_eq_some :
    c.derivedName? name = some derived ↔
      ∃ stem, Path.stem? name c.sourceExt = some stem ∧ stem ++ "." ++ c.targetExt = derived :=
  Option.map_eq_some_iff

theorem isSome_derivedName? : (c.derivedName? name).isSome = c.isSource name := by
  rw [derivedName?, Option.isSome_map, isSource]

theorem toList_derived (stem ext : String) :
    (stem ++ "." ++ ext).toList = stem.toList ++ '.' :: ext.toList := by
  simp

theorem derivedName?_inj (hname : c.derivedName? name = some derived)
    (hother : c.derivedName? other = some derived) : name = other := by
  obtain ⟨stem, hstem, rfl⟩ := derivedName?_eq_some.mp hname
  obtain ⟨stem', hstem', hsame⟩ := derivedName?_eq_some.mp hother
  have hlists := congrArg String.toList hsame
  rw [toList_derived, toList_derived] at hlists
  have hstems : stem'.toList = stem.toList := List.append_cancel_right hlists
  rw [Path.stem?_eq_some] at hstem hstem'
  exact String.toList_inj.mp (by rw [hstem.1, hstem'.1, hstems])

theorem not_isSource_derived {config : Config} (hv : config.validate = .ok ())
    (hname : config.transpile.derivedName? name = some derived) :
    config.transpile.isSource derived = false := by
  obtain ⟨hsource, htarget, hne⟩ := Config.extensions_of_validate hv
  obtain ⟨stem, -, rfl⟩ := derivedName?_eq_some.mp hname
  rw [isSource]
  cases hstem : Path.stem? (stem ++ "." ++ config.transpile.targetExt)
      config.transpile.sourceExt with
  | none => rfl
  | some stem' =>
    rw [Path.stem?_eq_some, toList_derived] at hstem
    have hext := (cut_at_last_dot hstem.1 (Config.dot_not_mem_of_bare htarget)
      (Config.dot_not_mem_of_bare hsource)).2
    exact absurd (String.toList_inj.mp hext.symm) hne

end TranspileConfig

namespace Stages

variable {σ β : Type} {w : Workshop σ β} {r : TranspileRequest} {x : Execution}
  {name text : String}

theorem name_of_transpiled (h : .transpiled name text ∈ replies w .transpile r x) :
    name = (w.config.transpile.derivedName? r.filename).getD "" := by
  dsimp only [replies] at h
  cases hresult : x.result.bind (Derivative.judge w.config.transpile r.filename
      ((w.config.transpile.derivedName? r.filename).getD "")) with
  | error f =>
    rw [hresult] at h
    cases f <;> simp [TranspileResponse.ofResult, Failure.isBusy] at h
  | ok out =>
    rw [hresult] at h
    obtain ⟨rfl, rfl⟩ : name = out.filename ∧ text = out.content := by
      simpa [TranspileResponse.ofResult] using h
    cases hx : x.result with
    | error f =>
      rw [hx] at hresult
      cases hresult
    | ok report =>
      rw [hx] at hresult
      change Derivative.judge _ _ _ report = _ at hresult
      unfold Derivative.judge at hresult
      split at hresult
      · cases hresult
      · split at hresult
        · obtain rfl := Except.ok.inj hresult
          rfl
        · cases hresult

end Stages

end Buildbox
