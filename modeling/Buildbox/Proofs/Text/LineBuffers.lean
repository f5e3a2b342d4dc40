import Buildbox.Text.Blank
import Buildbox.Text.Lines

/-! A line buffer gives the lines of the whole text, in whatever pieces the text arrives. What it
has given so far and the lines of what it holds with the text to come are the lines of all. -/

namespace Buildbox

namespace Text

variable {as bs cs line : List Char} {c : Char}

section Splitting

theorem splitAt_append (sep : Char) (as bs : List Char) :
    splitAt sep (as ++ sep :: bs) = splitAt sep as ++ splitAt sep bs := by
  induction as with
  | nil => simp [splitAt]
  | cons a as ih =>
    rw [List.cons_append, splitAt, splitAt, ih]
    by_cases ha : a = sep
    · simp [ha]
    · cases hs : splitAt sep as with
      | nil => exact absurd hs (splitAt_ne_nil sep as)
      | cons part parts => simp [ha]

theorem splitAt_of_not_mem {sep : Char} (h : sep ∉ cs) : splitAt sep cs = [cs] := by
  induction cs with
  | nil => rfl
  | cons c cs ih =>
    have hc : c ≠ sep := fun heq => h (heq ▸ List.mem_cons_self)
    have hcs : sep ∉ cs := fun hmem => h (List.mem_cons_of_mem _ hmem)
    simp [splitAt, hc, ih hcs]

theorem exists_splitAt_append (sep : Char) (cs : List Char) :
    ∃ first last, ∀ ds, sep ∉ ds → splitAt sep (cs ++ ds) = first ++ [last ++ ds] := by
  induction cs with
  | nil => exact ⟨[], [], fun ds hds => splitAt_of_not_mem hds⟩
  | cons c cs ih =>
    obtain ⟨first, last, hsplit⟩ := ih
    by_cases hc : c = sep
    · refine ⟨[] :: first, last, fun ds hds => ?_⟩
      rw [List.cons_append, splitAt, if_pos hc, hsplit ds hds, List.cons_append]
    · cases first with
      | nil =>
        refine ⟨[], c :: last, fun ds hds => ?_⟩
        rw [List.cons_append, splitAt, if_neg hc, hsplit ds hds]
        rfl
      | cons part parts =>
        refine ⟨(c :: part) :: parts, last, fun ds hds => ?_⟩
        rw [List.cons_append, splitAt, if_neg hc, hsplit ds hds]
        rfl

theorem splitAt_append_of_eq {sep : Char} {as bs last head : List Char}
    {first tail : List (List Char)} (has : splitAt sep as = first ++ [last])
    (hbs : splitAt sep bs = head :: tail) :
    splitAt sep (as ++ bs) = first ++ (last ++ head) :: tail := by
  induction as generalizing first last with
  | nil =>
    obtain ⟨rfl, rfl⟩ : first = [] ∧ last = [] := by
      cases first <;> simp_all [splitAt]
    exact hbs
  | cons a as ih =>
    rw [List.cons_append, splitAt]
    rw [splitAt] at has
    by_cases ha : a = sep
    · rw [if_pos ha] at has ⊢
      cases first with
      | nil => exact absurd (List.cons.inj has).2 (splitAt_ne_nil sep as)
      | cons part first =>
        obtain ⟨rfl, hrest⟩ := List.cons.inj has
        rw [ih hrest, List.cons_append]
    · rw [if_neg ha] at has ⊢
      cases hs : splitAt sep as with
      | nil => exact absurd hs (splitAt_ne_nil sep as)
      | cons part parts =>
        rw [hs] at has
        cases first with
        | nil =>
          obtain ⟨rfl, rfl⟩ := List.cons.inj has
          have hs : splitAt sep as = [] ++ [part] := hs
          rw [ih hs]
          rfl
        | cons f first =>
          obtain ⟨rfl, rfl⟩ := List.cons.inj has
          have hs : splitAt sep as = (part :: first) ++ [last] := hs
          rw [ih hs]
          rfl

theorem eq_append_of_splitAt_last {sep : Char} {as : List Char} {first : List (List Char)}
    (h : splitAt sep as = first ++ [[]]) : as = [] ∨ ∃ cs, as = cs ++ [sep] := by
  rcases as.eq_nil_or_concat with rfl | ⟨cs, c, rfl⟩
  · exact .inl rfl
  rw [List.concat_eq_append] at h ⊢
  by_cases hc : c = sep
  · exact .inr ⟨cs, by rw [hc]⟩
  · obtain ⟨first', last, hsplit⟩ := exists_splitAt_append sep cs
    have hparts := hsplit [c] (by simpa using Ne.symm hc)
    rw [h] at hparts
    have hlast := (List.append_inj' hparts rfl).2
    simp at hlast

theorem eq_cons_of_splitAt_head {sep : Char} {bs : List Char} {tail : List (List Char)}
    (h : splitAt sep bs = [] :: tail) : bs = [] ∨ ∃ cs, bs = sep :: cs := by
  cases bs with
  | nil => exact .inl rfl
  | cons c cs =>
    by_cases hc : c = sep
    · exact .inr ⟨cs, by rw [hc]⟩
    · rw [splitAt, if_neg hc] at h
      split at h <;> cases h

theorem flatten_splitAt (sep : Char) (cs : List Char) :
    (splitAt sep cs).flatten = cs.filter (· ≠ sep) := by
  induction cs with
  | nil => rfl
  | cons c cs ih =>
    rw [splitAt]
    by_cases hc : c = sep
    · simp [hc, ih]
    · cases hs : splitAt sep cs with
      | nil => exact absurd hs (splitAt_ne_nil sep cs)
      | cons part parts =>
        rw [hs, List.flatten_cons] at ih
        simp [hc, ih]

theorem not_mem_of_splitAfterLast (h : splitAfterLast cs = none) : '\n' ∉ cs := by
  induction cs with
  | nil => exact List.not_mem_nil
  | cons c cs ih =>
    unfold splitAfterLast at h
    cases hrest : splitAfterLast cs with
    | some p =>
      rw [hrest] at h
      cases h
    | none =>
      rw [hrest] at h
      by_cases hc : c = '\n'
      · simp [hc] at h
      · exact fun hmem => (List.mem_cons.mp hmem).elim (fun heq => hc heq.symm) (ih hrest)

theorem splitAfterLast_eq_some (h : splitAfterLast cs = some (as, bs)) :
    ∃ before, as = before ++ ['\n'] ∧ cs = as ++ bs ∧ '\n' ∉ bs := by
  induction cs generalizing as with
  | nil => cases h
  | cons c cs ih =>
    unfold splitAfterLast at h
    cases hrest : splitAfterLast cs with
    | some p =>
      rw [hrest] at h
      cases h
      obtain ⟨before, hbefore, hcs, hnot⟩ := ih hrest
      exact ⟨c :: before, by rw [hbefore]; rfl, by rw [hcs]; rfl, hnot⟩
    | none =>
      rw [hrest] at h
      by_cases hc : c = '\n'
      · obtain ⟨rfl, rfl⟩ : [c] = as ∧ cs = bs := by simpa [hc] using h
        exact ⟨[], by rw [hc]; rfl, rfl, not_mem_of_splitAfterLast hrest⟩
      · simp [hc] at h

end Splitting

section Lines

theorem lines_append (as bs : List Char) : lines (as ++ '\n' :: bs) = lines as ++ lines bs := by
  simp [lines, splitAt_append]

theorem lines_of_not_mem (h : '\n' ∉ cs) :
    lines cs = [trimRight isReturn cs].filter (! ·.isEmpty) := by
  rw [lines, splitAt_of_not_mem h, List.map_singleton]

theorem mem_of_mem_trimRight {drop : Char → Bool} (h : c ∈ trimRight drop cs) : c ∈ cs := by
  rw [trimRight, List.mem_reverse] at h
  exact List.mem_reverse.mp (List.dropWhile_sublist drop |>.subset h)

theorem mem_trimRight {drop : Char → Bool} (h : c ∈ cs) (hc : drop c = false) :
    c ∈ trimRight drop cs := by
  rw [trimRight, List.mem_reverse]
  have hsplit := List.takeWhile_append_dropWhile (p := drop) (l := cs.reverse)
  have hmem : c ∈ cs.reverse.takeWhile drop ++ cs.reverse.dropWhile drop := by
    rw [hsplit]
    exact List.mem_reverse.mpr h
  refine (List.mem_append.mp hmem).resolve_left fun htaken => ?_
  rw [List.all_eq_true.mp List.all_takeWhile c htaken] at hc
  cases hc

theorem mem_of_mem_lines (hl : line ∈ lines cs) (hc : c ∈ line) : c ∈ cs := by
  obtain ⟨part, hpart, rfl⟩ := List.mem_map.mp (List.mem_filter.mp hl).1
  have hflat : c ∈ (splitAt '\n' cs).flatten :=
    List.mem_flatten.mpr ⟨part, hpart, mem_of_mem_trimRight hc⟩
  rw [flatten_splitAt] at hflat
  exact (List.mem_filter.mp hflat).1

theorem exists_line_of_mem (h : c ∈ cs) (hfeed : c ≠ '\n') (hreturn : isReturn c = false) :
    ∃ line ∈ lines cs, c ∈ line := by
  have hflat : c ∈ (splitAt '\n' cs).flatten := by
    rw [flatten_splitAt]
    exact List.mem_filter.mpr ⟨h, decide_eq_true hfeed⟩
  obtain ⟨part, hpart, hc⟩ := List.mem_flatten.mp hflat
  have hline := mem_trimRight hc hreturn
  refine ⟨trimRight isReturn part, ?_, hline⟩
  refine List.mem_filter.mpr ⟨List.mem_map_of_mem hpart, ?_⟩
  cases htrim : trimRight isReturn part with
  | nil =>
    rw [htrim] at hline
    cases hline
  | cons c rest => rfl

theorem lines_ne_of_blank {text other : String} (hb : isBlankText text = true)
    (ho : isBlankText other = false) : diagnosticLines text ≠ diagnosticLines other := by
  intro hsame
  obtain ⟨c, hc, hshown⟩ : ∃ c ∈ other.toList, isBlank c = false := by
    simpa [isBlankText] using ho
  have hfeed : c ≠ '\n' := fun heq => by
    rw [heq] at hshown
    revert hshown
    decide
  have hreturn : isReturn c = false := by
    refine Bool.eq_false_iff.mpr fun heq => ?_
    rw [eq_of_beq heq] at hshown
    revert hshown
    decide
  obtain ⟨line, hline, hmem⟩ := exists_line_of_mem hc hfeed hreturn
  have hlisted : String.ofList line ∈ diagnosticLines text := by
    rw [hsame]
    exact List.mem_map_of_mem hline
  obtain ⟨line', hline', hofList⟩ := List.mem_map.mp hlisted
  obtain rfl := String.ofList_injective hofList
  have hblank := List.all_eq_true.mp hb c (mem_of_mem_lines hline' hmem)
  rw [hblank] at hshown
  cases hshown

end Lines

end Text

namespace LineBuffer

variable {b : LineBuffer}

theorem push_lines (b : LineBuffer) (text : String) (more : List Char) :
    (Text.lines (b.pending ++ text.toList ++ more)).map String.ofList =
      (b.push text).1 ++ (Text.lines ((b.push text).2.pending ++ more)).map String.ofList := by
  unfold push
  cases hsplit : Text.splitAfterLast (b.pending ++ text.toList) with
  | none => rfl
  | some p =>
    obtain ⟨complete, rest⟩ := p
    obtain ⟨before, rfl, hwhole, -⟩ := Text.splitAfterLast_eq_some hsplit
    have hcut : before ++ ['\n'] ++ rest ++ more = before ++ '\n' :: (rest ++ more) := by simp
    dsimp only
    rw [hwhole, hcut, Text.lines_append, Text.lines_append, List.map_append]
    simp [Text.lines, Text.splitAt, Text.trimRight]

theorem push_open (b : LineBuffer) (text : String) : '\n' ∉ (b.push text).2.pending := by
  unfold push
  cases hsplit : Text.splitAfterLast (b.pending ++ text.toList) with
  | none => exact Text.not_mem_of_splitAfterLast hsplit
  | some p =>
    obtain ⟨-, -, -, hrest⟩ := Text.splitAfterLast_eq_some hsplit
    exact hrest

theorem pushAll_lines (b : LineBuffer) (texts : List String) (more : List Char) :
    (Text.lines (b.pending ++ texts.flatMap String.toList ++ more)).map String.ofList =
      (b.pushAll texts).1 ++
        (Text.lines ((b.pushAll texts).2.pending ++ more)).map String.ofList := by
  induction texts generalizing b with
  | nil => simp [pushAll]
  | cons text texts ih =>
    have hpush := b.push_lines text (texts.flatMap String.toList ++ more)
    have hrest := ih (b.push text).2
    rw [List.append_assoc] at hrest
    rw [List.flatMap_cons, ← List.append_assoc, List.append_assoc, hpush, hrest,
      ← List.append_assoc]
    rfl

theorem pushAll_open (hb : '\n' ∉ b.pending) (texts : List String) :
    '\n' ∉ (b.pushAll texts).2.pending := by
  induction texts generalizing b with
  | nil => exact hb
  | cons text texts ih => exact ih (b.push_open text)

theorem finish_fresh (b : LineBuffer) : b.finish.2 = {} := by
  unfold finish
  cases Text.trimRight Text.isReturn b.pending <;> rfl

theorem finish_lines (hb : '\n' ∉ b.pending) :
    b.finish.1.toList = (Text.lines b.pending).map String.ofList := by
  rw [Text.lines_of_not_mem hb]
  unfold finish
  cases Text.trimRight Text.isReturn b.pending <;> rfl

theorem pushAll_finish (texts : List String) :
    (pushAll {} texts).1 ++ (pushAll {} texts).2.finish.1.toList =
      diagnosticLines (String.join texts) := by
  have hopen : '\n' ∉ (pushAll {} texts).2.pending := pushAll_open List.not_mem_nil texts
  have hlines := pushAll_lines {} texts []
  rw [List.append_nil, List.append_nil] at hlines
  rw [finish_lines hopen, ← hlines, diagnosticLines, String.toList_join]
  rfl

end LineBuffer

end Buildbox
