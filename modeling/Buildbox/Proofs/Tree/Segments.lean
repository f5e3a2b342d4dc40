import Buildbox.Proofs.Text.LineBuffers
import Buildbox.Proofs.Tree.Placing

/-! Paths as texts and as segments. A list of segments is what is read back from the path that it is
joined to, and only segments come into a tree as names. -/

namespace Buildbox

namespace Path

def IsSegment (s : String) : Prop :=
  s ≠ "" ∧ s ≠ "." ∧ '/' ∉ s.toList

instance (s : String) : Decidable (IsSegment s) :=
  inferInstanceAs (Decidable (_ ∧ _ ∧ _))

theorem parts_slash (a b : String) : parts (a ++ "/" ++ b) = parts a ++ parts b := by
  have htext : (a ++ "/" ++ b).toList = a.toList ++ '/' :: b.toList := by
    simp [String.toList_append]
  rw [parts, htext, Text.splitAt_append, List.map_append]
  rfl

theorem parts_of_not_mem {s : String} (h : '/' ∉ s.toList) : parts s = [s] := by
  rw [parts, Text.splitAt_of_not_mem h, List.map_singleton, String.ofList_toList]

theorem segments_slash (a b : String) : segments (a ++ "/" ++ b) = segments a ++ segments b := by
  rw [segments, parts_slash, List.filter_append]
  rfl

theorem segments_append_slash (a : String) : segments (a ++ "/") = segments a := by
  have hblank : segments "" = [] := rfl
  have hcut := segments_slash a ""
  rwa [String.append_empty, hblank, List.append_nil] at hcut

theorem segments_slash_append (b : String) : segments ("/" ++ b) = segments b := by
  have hblank : segments "" = [] := rfl
  have hcut := segments_slash "" b
  rwa [String.empty_append, hblank, List.nil_append] at hcut

theorem segments_of_isSegment {s : String} (h : IsSegment s) : segments s = [s] := by
  rw [segments, parts_of_not_mem h.2.2]
  simp [h.1, h.2.1]

theorem join_cons_cons (s t : String) (ps : List String) :
    join (s :: t :: ps) = s ++ "/" ++ join (t :: ps) :=
  String.intercalate_cons_cons

theorem join_append {ps qs : List String} (hp : ps ≠ []) (hq : qs ≠ []) :
    join (ps ++ qs) = join ps ++ "/" ++ join qs :=
  String.intercalate_append_of_ne_nil hp hq

theorem join_append_singleton {ps : List String} (h : ps ≠ []) (s : String) :
    join (ps ++ [s]) = join ps ++ "/" ++ s := by
  have hlast : join [s] = s := String.intercalate_singleton
  rw [join_append h (List.cons_ne_nil s []), hlast]

theorem segments_join {ps : List String} (h : ∀ s ∈ ps, IsSegment s) : segments (join ps) = ps := by
  induction ps with
  | nil => rfl
  | cons s ps ih =>
    have hs : segments s = [s] := segments_of_isSegment (h s List.mem_cons_self)
    have hps := ih fun t ht => h t (List.mem_cons_of_mem s ht)
    cases ps with
    | nil => exact hs
    | cons t ps => rw [join_cons_cons, segments_slash, hs, hps, List.singleton_append]

theorem join_ne_blank {ps : List String} (h : ∀ s ∈ ps, IsSegment s) (hps : ps ≠ []) :
    join ps ≠ "" := by
  intro hblank
  have hnil : segments (join ps) = [] := by rw [hblank]; rfl
  exact hps ((segments_join h).symm.trans hnil)

def IsPlain (path : String) : Prop :=
  ∃ ps, (∀ s ∈ ps, IsSegment s) ∧ (path = join ps ∨ path = join ps ++ "/")

theorem isPlain_of_segments {path : String}
    (h : path = join (segments path) ∨ path = join (segments path) ++ "/") : IsPlain path :=
  ⟨segments path, fun _ hs => of_mem_segments hs, h⟩

section Cuts

/-- Holds when a text is cut behind a slash, before a slash or at its end. -/
def CutsAtSlash (lead rest : String) : Prop :=
  (∃ a, lead = a ++ "/") ∨ (∃ b, rest = "/" ++ b) ∨ rest = ""

variable {lead rest : String}

theorem segments_of_cutsAtSlash (h : CutsAtSlash lead rest) :
    segments (lead ++ rest) = segments lead ++ segments rest := by
  rcases h with ⟨a, rfl⟩ | ⟨b, rfl⟩ | rfl
  · rw [segments_slash, segments_append_slash]
  · rw [← String.append_assoc, segments_slash, segments_slash_append]
  · have hblank : segments "" = [] := rfl
    rw [String.append_empty, hblank, List.append_nil]

theorem segment_filter_append {l m : String} (hl : l ≠ "") (hm : m ≠ "") :
    [l ++ m].filter (fun s => s ≠ "" ∧ s ≠ ".") = [l ++ m] := by
  have hlen : (l ++ m).length = l.length + m.length := String.length_append l m
  have hl : l.length ≠ 0 := fun h => hl (String.length_eq_zero_iff.mp h)
  have hm : m.length ≠ 0 := fun h => hm (String.length_eq_zero_iff.mp h)
  have hblank : l ++ m ≠ "" := fun h => by
    rw [h] at hlen
    have : "".length = 0 := rfl
    omega
  have hdot : l ++ m ≠ "." := fun h => by
    rw [h] at hlen
    have : ".".length = 1 := rfl
    omega
  simp [hblank, hdot]

theorem segment_filter_append_ne {l m : String} (hl : l ≠ "") (hm : m ≠ "") :
    [l ++ m].filter (fun s => s ≠ "" ∧ s ≠ ".") ≠
      [l].filter (fun s => s ≠ "" ∧ s ≠ ".") ++ [m].filter (fun s => s ≠ "" ∧ s ≠ ".") := by
  rw [segment_filter_append hl hm]
  by_cases hl' : l = "." <;> by_cases hm' : m = "." <;> simp [hl, hm, hl', hm']

theorem segments_append_ne (hlead : lead ≠ "") (h : ¬ CutsAtSlash lead rest) :
    segments (lead ++ rest) ≠ segments lead ++ segments rest := by
  simp only [CutsAtSlash, not_or] at h
  obtain ⟨hend, hstart, hrest⟩ := h
  obtain ⟨first, last, has⟩ :=
    (Text.splitAt '/' lead.toList).eq_nil_or_concat.resolve_left (Text.splitAt_ne_nil '/' _)
  rw [List.concat_eq_append] at has
  obtain ⟨head, tail, hbs⟩ := List.exists_cons_of_ne_nil (Text.splitAt_ne_nil '/' rest.toList)
  have hlast : String.ofList last ≠ "" := by
    rw [ne_eq, String.ofList_eq_empty_iff]
    rintro rfl
    rcases Text.eq_append_of_splitAt_last has with hnil | ⟨cs, hcs⟩
    · exact hlead (String.toList_eq_nil_iff.mp hnil)
    · exact hend ⟨String.ofList cs, by rw [← String.toList_inj, hcs]; simp⟩
  have hhead : String.ofList head ≠ "" := by
    rw [ne_eq, String.ofList_eq_empty_iff]
    rintro rfl
    rcases Text.eq_cons_of_splitAt_head hbs with hnil | ⟨cs, hcs⟩
    · exact hrest (String.toList_eq_nil_iff.mp hnil)
    · exact hstart ⟨String.ofList cs, by rw [← String.toList_inj, hcs]; simp⟩
  have hleft : parts lead = first.map String.ofList ++ [String.ofList last] := by
    rw [parts, has, List.map_append, List.map_singleton]
  have hright : parts rest = [String.ofList head] ++ tail.map String.ofList := by
    rw [parts, hbs, List.map_cons, List.singleton_append]
  have hboth : parts (lead ++ rest) = first.map String.ofList ++
      ([String.ofList last ++ String.ofList head] ++ tail.map String.ofList) := by
    rw [parts, String.toList_append, Text.splitAt_append_of_eq has hbs, List.map_append,
      List.map_cons, String.ofList_append, List.singleton_append]
  intro heq
  rw [segments, segments, segments, hleft, hright, hboth, List.filter_append, List.filter_append,
    List.filter_append, List.filter_append, List.append_assoc, List.append_cancel_left_eq,
    ← List.append_assoc, List.append_cancel_right_eq] at heq
  exact segment_filter_append_ne hlast hhead heq

theorem segments_append_iff (hlead : lead ≠ "") :
    segments (lead ++ rest) = segments lead ++ segments rest ↔ CutsAtSlash lead rest :=
  ⟨fun heq => Classical.not_not.mp fun h => segments_append_ne hlead h heq, segments_of_cutsAtSlash⟩

end Cuts

end Path

namespace Entry

variable {e x : Entry} {n : String} {p : List String}

def Named (x : Entry) : Prop :=
  ∀ q e, x.at? q = some e → ∀ s ∈ q, Path.IsSegment s

theorem named_file (bytes : Bytes) : (Entry.file bytes).Named := by
  rintro (_ | ⟨n, q⟩) e h
  · exact fun s hs => absurd hs List.not_mem_nil
  · cases h

theorem named_empty : (Entry.dir .empty).Named := by
  rintro (_ | ⟨n, q⟩) e h
  · exact fun s hs => absurd hs List.not_mem_nil
  · cases h

theorem Named.at? (hx : x.Named) (h : x.at? p = some e) : e.Named := by
  intro q y hy s hs
  have hpq : x.at? (p ++ q) = some y := by rw [at?_append, h, Option.bind_some, hy]
  exact hx (p ++ q) y hpq s (List.mem_append_right p hs)

theorem Named.put (hx : x.Named) (he : e.Named) (hp : ∀ s ∈ p, Path.IsSegment s) :
    (put e x p).Named := by
  intro q y hy s hs
  rcases at?_put_cases e x p q with ⟨r, rfl, hat⟩ | ⟨habove, -, -⟩ | ⟨-, -, hat⟩
  · rcases List.mem_append.mp hs with hs | hs
    · exact hp s hs
    · exact he r y (hat.symm.trans hy) s hs
  · exact hp s (habove.subset hs)
  · exact hx q y (hat.symm.trans hy) s hs

end Entry

end Buildbox
