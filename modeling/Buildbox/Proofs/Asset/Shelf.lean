import Buildbox.Asset.Shelf
import Buildbox.Proofs.Asset.Entries
import Mathlib.Data.List.Induction
import Mathlib.Logic.Function.Iterate

/-! However the steps of those who store entries come between each other, and wherever some of them
stop, an entry holds all the bytes of one put for its name. Drafts are what carries this: each is
written by one alone, and it is complete before it is moved. -/

namespace Buildbox

namespace Shelf

variable {c : ContentCache} {names : List String} {s : Shelf} {d' : Disk} {i j n : Nat}
  {p q : Put} {left rest : List DiskStep} {a : Action} {actions : List Action} {url : String}
  {bytes : Bytes}

def draftOf (c : ContentCache) (p : Put) : String :=
  c.draftPath p.url p.tag

def puts (s : Shelf) : List Put :=
  s.storings.map Storing.put

def Given (s : Shelf) (url : String) (bytes : Bytes) : Prop :=
  ∃ p ∈ s.puts, p.url = url ∧ p.bytes = bytes

section Puts

theorem getElem?_puts (hi : s.storings[i]? = some ⟨p, left⟩) : s.puts[i]? = some p := by
  rw [puts, List.getElem?_map, hi]
  rfl

theorem mem_puts (hi : s.storings[i]? = some ⟨p, left⟩) : p ∈ s.puts :=
  List.mem_of_getElem? (getElem?_puts hi)

theorem puts_set (hi : s.storings[i]? = some ⟨p, left⟩) (rest : List DiskStep) :
    (s.storings.set i ⟨p, rest⟩).map Storing.put = s.puts := by
  refine List.ext_getElem? fun j => ?_
  rw [puts, List.getElem?_map, List.getElem?_map, List.getElem?_set]
  split
  · next heq =>
    subst heq
    obtain ⟨hlt, -⟩ := List.getElem?_eq_some_iff.mp hi
    rw [if_pos hlt, hi]
    rfl
  · rfl

theorem getElem?_set_cases {o : Storing} (h : (s.storings.set i ⟨p, rest⟩)[j]? = some o) :
    j = i ∧ o = ⟨p, rest⟩ ∨ j ≠ i ∧ s.storings[j]? = some o := by
  rw [List.getElem?_set] at h
  split at h
  · next heq =>
    split at h
    · cases h
      exact .inl ⟨heq.symm, rfl⟩
    · cases h
  · next hne => exact .inr ⟨fun heq => hne heq.symm, h⟩

end Puts

section Invariant

structure Sound (c : ContentCache) (names : List String) (s : Shelf) : Prop where
  plain : ∀ p ∈ s.puts, p.url ∈ names ∧ '/' ∉ p.tag.toList
  fresh : (s.puts.map (draftOf c)).Nodup
  left : ∀ (i : Nat) (p : Put) (left : List DiskStep), s.storings[i]? = some ⟨p, left⟩ →
    left <:+ c.putSteps p.url p.tag p.bytes
  drafted : ∀ (i : Nat) (p : Put) (left : List DiskStep), s.storings[i]? = some ⟨p, left⟩ →
    left.length = 1 → s.disk.fileAt? (c.draftPlace p.url p.tag) = some p.bytes
  entries : ∀ url ∈ names, ∀ bytes, c.entryAt? s.disk url = some bytes → s.Given url bytes

theorem sound_start {disk : Disk} (h : ∀ url ∈ names, c.entryAt? disk url = none) :
    Sound c names (start disk) where
  plain _ hp := absurd hp List.not_mem_nil
  fresh := List.nodup_nil
  left _ _ _ hi := by cases hi
  drafted _ _ _ hi := by cases hi
  entries url hurl bytes hentry := by
    cases (h url hurl).symm.trans hentry

theorem Sound.draftPlace_ne (hs : Sound c names s) (hi : s.storings[i]? = some ⟨p, left⟩)
    (hj : s.storings[j]? = some ⟨q, rest⟩) (hne : j ≠ i) :
    c.draftPlace q.url q.tag ≠ c.draftPlace p.url p.tag := by
  refine ContentCache.draftPlace_ne (hs.plain q (mem_puts hj)).2 (hs.plain p (mem_puts hi)).2 ?_
  intro heq
  have hdraft {k : Nat} {r : Put} {steps : List DiskStep}
      (hk : s.storings[k]? = some ⟨r, steps⟩) :
      (s.puts.map (draftOf c))[k]? = some (draftOf c r) := by
    rw [List.getElem?_map, getElem?_puts hk]
    rfl
  obtain ⟨hlt, -⟩ := List.getElem?_eq_some_iff.mp (hdraft hj)
  refine hne ((List.getElem?_inj hlt hs.fresh).mp ?_)
  rw [hdraft hj, hdraft hi]
  exact congrArg some heq

theorem Sound.of_stores (hsha : ContentCache.ToldApart names) (hs : Sound c names s)
    (hi : s.storings[i]? = some ⟨p, left⟩) (hrest : rest <:+ left)
    (hstores : c.Stores s.disk d' p.url p.tag p.bytes)
    (hdrafted : rest.length = 1 → d'.fileAt? (c.draftPlace p.url p.tag) = some p.bytes) :
    Sound c names { s with disk := d', storings := s.storings.set i ⟨p, rest⟩ } := by
  have hputs : puts { s with disk := d', storings := s.storings.set i ⟨p, rest⟩ } = s.puts :=
    puts_set hi rest
  have hgiven {url : String} {bytes : Bytes} (h : s.Given url bytes) :
      Given { s with disk := d', storings := s.storings.set i ⟨p, rest⟩ } url bytes := by
    unfold Given
    rw [hputs]
    exact h
  obtain ⟨hurl, htag⟩ := hs.plain p (mem_puts hi)
  constructor
  case plain =>
    rw [hputs]
    exact hs.plain
  case fresh =>
    rw [hputs]
    exact hs.fresh
  case left =>
    intro j q steps hj
    rcases getElem?_set_cases hj with ⟨-, ho⟩ | ⟨-, hj⟩
    · cases ho
      exact hrest.trans (hs.left i p left hi)
    · exact hs.left j q steps hj
  case drafted =>
    intro j q steps hj hone
    rcases getElem?_set_cases hj with ⟨-, ho⟩ | ⟨hne, hj⟩
    · cases ho
      exact hdrafted hone
    -- The draft of another is another file, and no entry.
    · obtain ⟨-, htag'⟩ := hs.plain q (mem_puts hj)
      have hkept := hstores.others (c.draftPlace q.url q.tag)
        (ContentCache.draftPlace_ne_entryPlace htag' c q.url p.url) (hs.draftPlace_ne hi hj hne)
      exact hkept.trans (hs.drafted j q steps hj hone)
  case entries =>
    intro other hother b hentry
    rcases hstores.entryAt? htag other with heq | ⟨hname, heq⟩
    · exact hgiven (hs.entries other hother b (heq.symm.trans hentry))
    · refine hgiven ⟨p, mem_puts hi, (hsha other hother p.url hurl hname).symm, ?_⟩
      exact Option.some.inj (heq.symm.trans hentry)

theorem sound_go (hsha : ContentCache.ToldApart names) (hs : Sound c names s) (i : Nat) :
    Sound c names (s.go i) := by
  unfold go
  split
  case h_2 => exact hs
  case h_1 p step rest hi =>
    obtain ⟨-, htag⟩ := hs.plain p (mem_puts hi)
    have hsteps := hs.left i p _ hi
    have hlast (hzero : rest.length = 0) := hs.drafted i p _ hi (congrArg (· + 1) hzero)
    split
    case h_1 disk hstep =>
      obtain ⟨hstores, hok⟩ := ContentCache.apply_spec htag hsteps hlast hstep
      exact hs.of_stores hsha hi (List.suffix_cons step rest) hstores (hok rfl).1
    case h_2 fault disk hstep =>
      obtain ⟨hstores, -⟩ := ContentCache.apply_spec htag hsteps hlast hstep
      exact hs.of_stores hsha hi List.nil_suffix hstores nofun

theorem stores_begin (htag : '/' ∉ p.tag.toList) {step : DiskStep}
    (hsteps : step :: rest <:+ c.putSteps p.url p.tag p.bytes) (d : Disk) (n : Nat) :
    c.Stores d (step.begin d n) p.url p.tag p.bytes ∧
      (rest.length = 0 → step.begin d n = d) := by
  rcases ContentCache.cases_of_suffix_putSteps hsteps with
    ⟨rfl, hrest⟩ | ⟨rfl, hrest⟩ | ⟨rfl, hrest⟩
  · exact ⟨.of_grows (Disk.grows_createDirs d _), fun hzero => by omega⟩
  · refine ⟨?_, fun hzero => by omega⟩
    rw [DiskStep.begin]
    generalize hstep : DiskStep.apply d (.write (c.draftPath p.url p.tag) (p.bytes.take n)) =
      result
    obtain ⟨answer, d'⟩ := result
    rcases ContentCache.apply_write_draft htag hstep with ⟨-, hturns⟩ | ⟨-, hsame⟩
    · exact .of_draft htag hturns
    · subst hsame
      exact .of_grows (.refl _)
  · exact ⟨.of_grows (.refl d), fun _ => rfl⟩

theorem sound_part (hsha : ContentCache.ToldApart names) (hs : Sound c names s) (i n : Nat) :
    Sound c names (s.part i n) := by
  unfold part
  split
  case h_2 => exact hs
  case h_1 p step rest hi =>
    obtain ⟨-, htag⟩ := hs.plain p (mem_puts hi)
    obtain ⟨hstores, hmove⟩ := stores_begin htag (hs.left i p _ hi) s.disk n
    -- The step is still to be taken, so those who store stand where they stood.
    have hsame : s.storings.set i ⟨p, step :: rest⟩ = s.storings := by
      obtain ⟨hlt, hget⟩ := List.getElem?_eq_some_iff.mp hi
      rw [← hget, List.set_getElem_self]
    have hdrafted (hone : (step :: rest).length = 1) :
        (step.begin s.disk n).fileAt? (c.draftPlace p.url p.tag) = some p.bytes := by
      rw [hmove (Nat.succ.inj hone)]
      exact hs.drafted i p _ hi hone
    have hsound := hs.of_stores hsha hi List.suffix_rfl hstores hdrafted
    rw [hsame] at hsound
    exact hsound

theorem sound_stop (hsha : ContentCache.ToldApart names) (hs : Sound c names s) (i : Nat) :
    Sound c names (s.stop i) := by
  unfold stop
  split
  case h_2 => exact hs
  case h_1 p left hi =>
    exact hs.of_stores hsha hi List.nil_suffix (.of_grows (.refl s.disk)) nofun

theorem sound_put (hs : Sound c names s) (hurl : p.url ∈ names) (htag : '/' ∉ p.tag.toList)
    (hfresh : draftOf c p ∉ s.puts.map (draftOf c)) : Sound c names (act c s (.put p)) := by
  have hputs : (act c s (.put p)).puts = s.puts ++ [p] := List.map_append
  have hcases {j : Nat} {o : Storing} (hj : (act c s (.put p)).storings[j]? = some o) :
      s.storings[j]? = some o ∨ o = ⟨p, c.putSteps p.url p.tag p.bytes⟩ := by
    rw [act, List.getElem?_append] at hj
    split at hj
    · exact .inl hj
    · exact .inr (List.mem_singleton.mp (List.mem_of_getElem? hj))
  constructor
  case plain =>
    intro q hq
    rw [hputs] at hq
    rcases List.mem_append.mp hq with hq | hq
    · exact hs.plain q hq
    · rw [List.mem_singleton.mp hq]
      exact ⟨hurl, htag⟩
  case fresh =>
    rw [hputs, List.map_append, List.nodup_append]
    refine ⟨hs.fresh, List.pairwise_singleton _ _, fun q hq r hr heq => ?_⟩
    rw [List.map_singleton, List.mem_singleton] at hr
    exact hfresh (hr ▸ heq ▸ hq)
  case left =>
    intro j q left hj
    rcases hcases hj with hj | ho
    · exact hs.left j q left hj
    · cases ho
      exact List.suffix_rfl
  case drafted =>
    intro j q left hj hone
    rcases hcases hj with hj | ho
    · exact hs.drafted j q left hj hone
    · cases ho
      cases hone
  case entries =>
    intro url hurl bytes hentry
    obtain ⟨q, hq, hbytes⟩ := hs.entries url hurl bytes hentry
    refine ⟨q, ?_, hbytes⟩
    rw [hputs]
    exact List.mem_append_left _ hq

end Invariant

section Runs

def Action.put? : Action → Option Put
  | .put p => some p
  | _ => none

/-- What is asked of those who come: their names are among those that SHA-256 tells apart, their
tags make names of files, and no draft is written by two of them. -/
structure Proper (c : ContentCache) (names : List String) (actions : List Action) : Prop where
  plain : ∀ p, .put p ∈ actions → p.url ∈ names ∧ '/' ∉ p.tag.toList
  asked : ∀ url, .get url ∈ actions → url ∈ names
  fresh : ((actions.filterMap Action.put?).map (draftOf c)).Nodup

theorem Proper.of_prefix {later : List Action} (h : Proper c names (actions ++ later)) :
    Proper c names actions where
  plain p hp := h.plain p (List.mem_append_left _ hp)
  asked url hurl := h.asked url (List.mem_append_left _ hurl)
  fresh := by
    have hfresh := h.fresh
    rw [List.filterMap_append, List.map_append] at hfresh
    exact (List.nodup_append.mp hfresh).1

theorem actAll_append (c : ContentCache) (s : Shelf) (actions later : List Action) :
    s.actAll c (actions ++ later) = (s.actAll c actions).actAll c later :=
  List.foldl_append

theorem puts_act (c : ContentCache) (s : Shelf) (a : Action) :
    (act c s a).puts = s.puts ++ a.put?.toList := by
  cases a with
  | put p => exact List.map_append
  | get url => exact (List.append_nil _).symm
  | go i =>
    refine Eq.trans ?_ (List.append_nil _).symm
    unfold act go
    dsimp only
    split
    · next hi => split <;> exact puts_set hi _
    · rfl
  | part i n =>
    refine Eq.trans ?_ (List.append_nil _).symm
    unfold act part
    dsimp only
    split <;> rfl
  | stop i =>
    refine Eq.trans ?_ (List.append_nil _).symm
    unfold act stop
    dsimp only
    split
    · next hi => exact puts_set hi _
    · rfl

theorem puts_actAll (c : ContentCache) (disk : Disk) (actions : List Action) :
    ((start disk).actAll c actions).puts = actions.filterMap Action.put? := by
  induction actions using List.reverseRecOn with
  | nil => rfl
  | append_singleton actions a ih =>
    rw [actAll_append, List.filterMap_append, ← ih]
    have hlast := puts_act c ((start disk).actAll c actions) a
    cases a <;> exact hlast

theorem sound_actAll (hsha : ContentCache.ToldApart names) {disk : Disk}
    (hstart : ∀ url ∈ names, c.entryAt? disk url = none) (hproper : Proper c names actions) :
    Sound c names ((start disk).actAll c actions) := by
  induction actions using List.reverseRecOn with
  | nil => exact sound_start hstart
  | append_singleton actions a ih =>
    have hs := ih hproper.of_prefix
    rw [actAll_append]
    cases a with
    | put p =>
      obtain ⟨hurl, htag⟩ := hproper.plain p (List.mem_append_right _ (List.mem_singleton_self _))
      refine sound_put hs hurl htag fun hmem => ?_
      have hfresh := hproper.fresh
      rw [List.filterMap_append, List.map_append, ← puts_actAll c disk] at hfresh
      exact (List.nodup_append.mp hfresh).2.2 _ hmem _ (List.mem_singleton_self _) rfl
    | get url => exact ⟨hs.plain, hs.fresh, hs.left, hs.drafted, hs.entries⟩
    | go i => exact sound_go hsha hs i
    | part i n => exact sound_part hsha hs i n
    | stop i => exact sound_stop hsha hs i

theorem mem_reads_act {answer : Option Bytes} (h : (url, answer) ∈ (act c s a).reads) :
    (url, answer) ∈ s.reads ∨ a = .get url ∧ answer = c.get? s.disk url := by
  cases a with
  | put p => exact .inl h
  | get other =>
    rcases List.mem_append.mp h with h | h
    · exact .inl h
    · cases List.mem_singleton.mp h
      exact .inr ⟨rfl, rfl⟩
  | go i =>
    unfold act go at h
    dsimp only at h
    split at h
    · split at h <;> exact .inl h
    · exact .inl h
  | part i n =>
    unfold act part at h
    dsimp only at h
    split at h <;> exact .inl h
  | stop i =>
    unfold act stop at h
    dsimp only at h
    split at h <;> exact .inl h

/-- Whatever is read, in the middle of whatever others do, is nothing or all that one put was given
for that name. -/
theorem reads_complete (hsha : ContentCache.ToldApart names) {disk : Disk}
    (hstart : ∀ url ∈ names, c.entryAt? disk url = none) (hproper : Proper c names actions) :
    ∀ url answer, (url, answer) ∈ ((start disk).actAll c actions).reads →
      ∃ before, before ++ [.get url] <+: actions ∧
        answer = c.get? ((start disk).actAll c before).disk url ∧
        (answer = none ∨ ∃ p, .put p ∈ before ∧ p.url = url ∧ answer = some p.bytes) := by
  intro url answer hread
  induction actions using List.reverseRecOn with
  | nil => cases hread
  | append_singleton actions a ih =>
    rw [actAll_append] at hread
    rcases mem_reads_act hread with hread | ⟨hget, hanswer⟩
    · obtain ⟨before, hprefix, hanswer⟩ := ih hproper.of_prefix hread
      exact ⟨before, hprefix.trans (List.prefix_append _ _), hanswer⟩
    -- What is read now comes out of a sound shelf.
    · rw [hget] at hproper ⊢
      refine ⟨actions, List.prefix_rfl, hanswer, ?_⟩
      have hs := sound_actAll hsha hstart hproper.of_prefix
      have hurl := hproper.asked url (List.mem_append_right _ (List.mem_singleton_self _))
      cases answer with
      | none => exact .inl rfl
      | some bytes =>
        obtain ⟨p, hp, hpurl, hbytes⟩ :=
          hs.entries url hurl bytes (ContentCache.get?_eq_some.mp hanswer.symm).2
        rw [puts_actAll, List.mem_filterMap] at hp
        obtain ⟨b, hb, hput⟩ := hp
        cases b with
        | put q =>
          cases hput
          exact .inr ⟨p, hb, hpurl, congrArg some hbytes.symm⟩
        | get | go | part | stop => cases hput

theorem reads_complete_of_two :
    let c : ContentCache := ⟨"cache"⟩
    let actions : List Action := [.put ⟨"x", "1", [1, 2]⟩, .put ⟨"x", "2", [3, 4]⟩, .go 0, .go 1,
      .go 0, .part 1 1, .get "x", .go 0, .get "x", .stop 1, .get "x"]
    ContentCache.ToldApart ["x"] ∧ (∀ url ∈ ["x"], c.entryAt? .empty url = none) ∧
      Proper c ["x"] actions ∧
      ∀ url answer, (url, answer) ∈ ((start .empty).actAll c actions).reads →
        ∃ before, before ++ [.get url] <+: actions ∧
          answer = c.get? ((start .empty).actAll c before).disk url ∧
          (answer = none ∨ ∃ p, .put p ∈ before ∧ p.url = url ∧ answer = some p.bytes) := by
  intro c actions
  have hsha := ContentCache.toldApart_singleton "x"
  have hgone : Directory.empty.dirAt? (Disk.place c.dir) = none := by decide +kernel
  have hstart : ∀ url ∈ ["x"], c.entryAt? .empty url = none :=
    fun url _ => ContentCache.entryAt?_of_no_dir hgone url
  have hproper : Proper c ["x"] actions := by
    refine ⟨fun p hp => ?_, fun url hurl => ?_, ?_⟩
    · have hp : p = ⟨"x", "1", [1, 2]⟩ ∨ p = ⟨"x", "2", [3, 4]⟩ := by simpa [actions] using hp
      rcases hp with hp | hp
      · rw [hp]
        exact ⟨List.mem_singleton_self _, by decide⟩
      · rw [hp]
        exact ⟨List.mem_singleton_self _, by decide⟩
    · have hurl : url = "x" := by simpa [actions] using hurl
      exact List.mem_singleton.mpr hurl
    · have htags : c.draftPath "x" "1" ≠ c.draftPath "x" "2" := by
        simp [ContentCache.draftPath, String.append_assoc]
      have hputs : actions.filterMap Action.put? = [⟨"x", "1", [1, 2]⟩, ⟨"x", "2", [3, 4]⟩] := rfl
      rw [hputs]
      simpa [draftOf] using htags
  exact ⟨hsha, hstart, hproper, reads_complete hsha hstart hproper⟩

/-- And a put whose last step goes through is what is read next. -/
theorem get?_go_of_last (hs : Sound c names s) {step : DiskStep}
    (hi : s.storings[i]? = some ⟨p, [step]⟩) (hok : (step.apply s.disk).1 = .ok ()) :
    c.get? (s.go i).disk p.url = some p.bytes := by
  obtain ⟨-, htag⟩ := hs.plain p (mem_puts hi)
  obtain ⟨-, hread⟩ := ContentCache.apply_spec htag (hs.left i p _ hi)
    (fun _ => hs.drafted i p _ hi rfl) (Prod.eta _).symm
  have hread := (hread hok).2 rfl
  unfold go
  rw [hi]
  dsimp only
  generalize step.apply s.disk = result at hok hread
  obtain ⟨answer, disk⟩ := result
  cases hok
  exact hread

theorem getElem?_set_self (hi : s.storings[i]? = some ⟨p, left⟩) (rest : List DiskStep) :
    (s.storings.set i ⟨p, rest⟩)[i]? = some ⟨p, rest⟩ := by
  obtain ⟨hlt, -⟩ := List.getElem?_eq_some_iff.mp hi
  rw [List.getElem?_set, if_pos rfl, if_pos hlt]

theorem go_of_ended (hi : s.storings[i]? = some ⟨p, []⟩) : s.go i = s := by
  unfold go
  rw [hi]

theorem disk_go_alone (hi : s.storings[i]? = some ⟨p, left⟩) :
    ((go i)^[left.length] s).disk = (ContentCache.runSteps left s.disk).2 := by
  induction left generalizing s with
  | nil => rfl
  | cons step rest ih =>
    rw [List.length_cons, Function.iterate_succ_apply, ContentCache.runSteps]
    generalize hstep : step.apply s.disk = result
    obtain ⟨answer, disk⟩ := result
    cases answer with
    | ok =>
      have hgo : s.go i = { s with disk, storings := s.storings.set i ⟨p, rest⟩ } := by
        unfold go
        rw [hi]
        dsimp only
        rw [hstep]
      rw [hgo]
      exact ih (getElem?_set_self hi rest)
    | error fault =>
      have hgo : s.go i = { s with disk, storings := s.storings.set i ⟨p, []⟩ } := by
        unfold go
        rw [hi]
        dsimp only
        rw [hstep]
      rw [hgo, Function.iterate_fixed (go_of_ended (getElem?_set_self hi []))]

theorem disk_put_alone (c : ContentCache) (s : Shelf) (p : Put) :
    ((go s.storings.length)^[3] (act c s (.put p))).disk =
      (c.put p.url p.tag p.bytes s.disk).2 :=
  disk_go_alone (s := act c s (.put p)) List.getElem?_concat_length

end Runs

end Shelf

end Buildbox
