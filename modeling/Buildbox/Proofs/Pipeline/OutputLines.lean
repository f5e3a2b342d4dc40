import Buildbox.Proofs.Pipeline.CompilerOutput

/-! The lines that a run reports of what its programs put out. They are the lines of the text as a
whole, whatever pieces it was heard in: up to each trap for a program that is executed. -/

namespace Buildbox

def PipelineEvent.shows : PipelineEvent → Bool
  | .diagnostic _ | .log _ => true
  | _ => false

namespace CompileResponse

def isText : CompileResponse → Bool
  | .stderr _ => true
  | _ => false

def told (replies : List CompileResponse) : List Char × List CompileResponse :=
  (replies.flatMap printed, replies.filter (! ·.isText))

end CompileResponse

/-- A stretch of a program's output, with the trap that ended it. -/
structure Passage where
  text : List Char
  trap : Option String
  deriving DecidableEq, Repr

namespace Passage

def lines (p : Passage) : List PipelineEvent :=
  (diagnosticLines (String.ofList p.text)).map .log ++ (p.trap.map Course.diagnostics).getD []

end Passage

namespace ExecuteResponse

def passages (text : List Char) : List ExecuteResponse → List Passage
  | [] => [⟨text, none⟩]
  | .stderr more :: rest => passages (text ++ more.toList) rest
  | .trapped message :: rest => ⟨text, some message⟩ :: passages [] rest
  | .preview _ :: rest | .done :: rest => passages text rest

end ExecuteResponse

/-- Crews that answer the same, but for the pieces that text comes in, and for what a program
displays. -/
structure Crew.TellsAs {τ : Type} (crew crew' : Crew τ) : Prop where
  transpile : crew.transpile = crew'.transpile
  compile : ∀ r s, (crew.compile r s).1.map CompileResponse.told =
      (crew'.compile r s).1.map CompileResponse.told ∧
    (crew.compile r s).2 = (crew'.compile r s).2
  execute : ∀ r s, (crew.execute r s).1.map (ExecuteResponse.passages []) =
      (crew'.execute r s).1.map (ExecuteResponse.passages []) ∧
    (crew.execute r s).2 = (crew'.execute r s).2

structure Dialogue.Alike {τ α : Type} (x y : (List PipelineEvent × α) × τ) : Prop where
  lines : x.1.1.filter (·.shows) = y.1.1.filter (·.shows)
  ending : x.1.2 = y.1.2
  state : x.2 = y.2

namespace Course

open CompileResponse (told printed isText)
open ExecuteResponse (passages)
open Dialogue (reportAll)
open PipelineEvent (shows)

section Hearing

variable {replies replies' : List CompileResponse}

theorem hearCompile_verdict {h g : CompileHearing} (hf : h.failure = g.failure)
    (ha : h.artifact = g.artifact) (replies : List CompileResponse) :
    (hearCompile h replies).2.failure =
        (hearCompile g (replies.filter (! ·.isText))).2.failure ∧
      (hearCompile h replies).2.artifact =
        (hearCompile g (replies.filter (! ·.isText))).2.artifact := by
  induction replies generalizing h g with
  | nil => exact ⟨hf, ha⟩
  | cons reply rest ih =>
    cases reply with
    | stderr text => exact ih hf ha
    | compiled bytes => exact ih hf rfl
    | failed stderr => exact ih rfl ha

theorem conclude_congr {h g : CompileHearing} (hf : h.failure = g.failure)
    (ha : h.artifact = g.artifact) : conclude h = conclude g := by
  unfold conclude
  rw [hf, ha]

theorem hearCompile_of_told (ht : told replies = told replies') :
    (hearCompile {} replies).1 = (hearCompile {} replies').1 ∧
      conclude (hearCompile {} replies).2 = conclude (hearCompile {} replies').2 := by
  obtain ⟨htext, hrest⟩ := Prod.mk.inj ht
  obtain ⟨hf, ha⟩ := hearCompile_verdict (h := {}) (g := {}) rfl rfl replies
  obtain ⟨hf', ha'⟩ := hearCompile_verdict (h := {}) (g := {}) rfl rfl replies'
  rw [hrest] at hf ha
  refine ⟨?_, conclude_congr (hf.trans hf'.symm) (ha.trans ha'.symm)⟩
  rw [hearCompile_eq_lines List.not_mem_nil, hearCompile_eq_lines List.not_mem_nil, htext]

theorem lines_passages {text text' : List Char} {now : List String}
    (h : ∀ more, (Text.lines (text ++ more)).map String.ofList =
      now ++ (Text.lines (text' ++ more)).map String.ofList) (replies : List ExecuteResponse) :
    (passages text replies).flatMap Passage.lines =
      now.map .log ++ (passages text' replies).flatMap Passage.lines := by
  have hnow := h []
  rw [List.append_nil, List.append_nil] at hnow
  induction replies generalizing text text' with
  | nil => simp [passages, Passage.lines, diagnosticLines, hnow]
  | cons reply rest ih =>
    cases reply with
    | stderr more =>
      refine ih (fun later => ?_) (h more.toList)
      rw [List.append_assoc, List.append_assoc]
      exact h _
    | trapped message => simp [passages, Passage.lines, diagnosticLines, hnow]
    | preview shown => exact ih h hnow
    | done => exact ih h hnow

theorem filter_shows_logs (lines : List String) :
    (lines.map PipelineEvent.log).filter shows = lines.map .log :=
  List.filter_eq_self.mpr (by simp [shows])

theorem filter_shows_diagnostics (text : String) :
    (diagnostics text).filter shows = diagnostics text :=
  List.filter_eq_self.mpr (by simp [diagnostics, shows])

theorem hearExecute_lines {h : ExecuteHearing} (ho : '\n' ∉ h.lines.pending)
    (replies : List ExecuteResponse) :
    (hearExecute h replies).1.filter shows =
      (passages h.lines.pending replies).flatMap Passage.lines := by
  have hfinish {b : LineBuffer} (hb : '\n' ∉ b.pending) :
      b.finish.1.toList = diagnosticLines (String.ofList b.pending) := by
    rw [LineBuffer.finish_lines hb, diagnosticLines, String.toList_ofList]
  induction replies generalizing h with
  | nil => simp [hearExecute, passages, Passage.lines, filter_shows_logs, hfinish ho]
  | cons reply rest ih =>
    cases reply with
    | stderr text =>
      have hlater := ih (h := { h with lines := (h.lines.push text).2 }) (h.lines.push_open text)
      have hpushed := lines_passages (h.lines.push_lines text) rest
      simp [hearExecute, passages, filter_shows_logs, hlater, hpushed]
    -- A trap ends the line that is open, so what follows is heard as from the start.
    | trapped message =>
      have hlater := ih (h := { lines := {}, trapped := true }) List.not_mem_nil
      simp [hearExecute, passages, Passage.lines, LineBuffer.finish_fresh, filter_shows_logs,
        filter_shows_diagnostics, hfinish ho, hlater]
    | preview shown => simpa [hearExecute, passages, shows] using ih ho
    | done => exact ih ho

theorem exists_trap_iff (text : List Char) (replies : List ExecuteResponse) :
    (∃ p ∈ passages text replies, p.trap.isSome) ↔ ∃ message, .trapped message ∈ replies := by
  induction replies generalizing text with
  | nil => simp [passages]
  | cons reply rest ih =>
    cases reply with
    | stderr more => simp [passages, ih]
    | trapped message => simp [passages]
    | preview shown => simp [passages, ih]
    | done => simp [passages, ih]

theorem hearExecute_of_passages {replies replies' : List ExecuteResponse}
    (hp : passages [] replies = passages [] replies') :
    (hearExecute {} replies).1.filter shows = (hearExecute {} replies').1.filter shows ∧
      (hearExecute {} replies).2.trapped = (hearExecute {} replies').2.trapped := by
  constructor
  · rw [hearExecute_lines List.not_mem_nil, hearExecute_lines List.not_mem_nil]
    exact congrArg (·.flatMap Passage.lines) hp
  · rw [Bool.eq_iff_iff, hearExecute_trapped, hearExecute_trapped, ← exists_trap_iff [],
      ← exists_trap_iff [], hp]

end Hearing

section Holding

variable {τ α : Type} {crew crew' : Crew τ}

theorem hold_reportAll_bind (crew : Crew τ) (events : List PipelineEvent) (d : Dialogue α)
    (s : τ) :
    (reportAll events >>= fun _ => d).hold crew s =
      ((events ++ (d.hold crew s).1.1, (d.hold crew s).1.2), (d.hold crew s).2) :=
  (Dialogue.hold_bind crew _ _ s).trans (by rw [Dialogue.hold_reportAll])

theorem transpileEach_congr (hc : crew.transpile = crew'.transpile) (total count : Nat)
    (names : List String) (files : NameMap String) (s : τ) :
    (transpileEach total count names files).hold crew s =
      (transpileEach total count names files).hold crew' s := by
  induction names generalizing count files s with
  | nil => rfl
  | cons name names ih =>
    rw [transpileEach, Dialogue.hold, Dialogue.hold, ← hc]
    dsimp only
    cases ((crew.transpile ⟨name, (files.get? name).getD ""⟩ s).1.mapError Failure.message).bind
      (derived name) with
    | ok p =>
      dsimp only
      rw [hold_reportAll_bind, hold_reportAll_bind, ih]
    | error stderr =>
      dsimp only
      rw [hold_reportAll_bind, hold_reportAll_bind]
      rfl

theorem transpileAll_congr (hc : crew.transpile = crew'.transpile) (ext : String)
    (files : NameMap String) (s : τ) :
    (transpileAll ext files).hold crew s = (transpileAll ext files).hold crew' s := by
  unfold transpileAll
  split
  · rfl
  · rw [hold_reportAll_bind, hold_reportAll_bind, transpileEach_congr hc]

theorem answers_alike {ρ κ : Type} {f : List ρ → κ} {x y : Answer ρ} (h : x.map f = y.map f) :
    (∃ e, x = .error e ∧ y = .error e) ∨
      ∃ replies replies', x = .ok replies ∧ y = .ok replies' ∧ f replies = f replies' := by
  cases x with
  | error e =>
    cases y with
    | error e' => exact .inl ⟨e, rfl, by rw [Except.error.inj h]⟩
    | ok replies' => cases h
  | ok replies =>
    cases y with
    | error e' => cases h
    | ok replies' => exact .inr ⟨replies, replies', rfl, rfl, Except.ok.inj h⟩

theorem compile_congr (hc : crew.TellsAs crew') (files : NameMap String) (s : τ) :
    (compile files).hold crew s = (compile files).hold crew' s := by
  obtain ⟨htold, hstate⟩ := hc.compile ⟨files⟩ s
  rw [compile, hold_reportAll_bind, hold_reportAll_bind, Dialogue.hold, Dialogue.hold]
  generalize crew.compile ⟨files⟩ s = x at htold hstate ⊢
  generalize crew'.compile ⟨files⟩ s = y at htold hstate ⊢
  obtain ⟨answer, t⟩ := x
  obtain ⟨answer', _⟩ := y
  obtain rfl := hstate
  obtain ⟨e, rfl, rfl⟩ | ⟨replies, replies', rfl, rfl, hr⟩ := answers_alike htold
  · dsimp only
    rw [hold_reportAll_bind, hold_reportAll_bind]
    rfl
  · obtain ⟨hheard, hending⟩ := hearCompile_of_told hr
    dsimp only
    rw [hheard, hending, hold_reportAll_bind, hold_reportAll_bind]
    rfl

theorem execute_alike (hc : crew.TellsAs crew') (artifact : Bytes) (s : τ) :
    Dialogue.Alike ((execute artifact).hold crew s) ((execute artifact).hold crew' s) := by
  obtain ⟨hpassages, hstate⟩ := hc.execute ⟨artifact⟩ s
  rw [execute, hold_reportAll_bind, hold_reportAll_bind, Dialogue.hold, Dialogue.hold]
  generalize crew.execute ⟨artifact⟩ s = x at hpassages hstate ⊢
  generalize crew'.execute ⟨artifact⟩ s = y at hpassages hstate ⊢
  obtain ⟨answer, t⟩ := x
  obtain ⟨answer', _⟩ := y
  obtain rfl := hstate
  obtain ⟨e, rfl, rfl⟩ | ⟨replies, replies', rfl, rfl, hp⟩ := answers_alike hpassages
  · dsimp only
    rw [Dialogue.hold_reportAll, Dialogue.hold_reportAll]
    exact ⟨rfl, rfl, rfl⟩
  · obtain ⟨hheard, htrapped⟩ := hearExecute_of_passages hp
    dsimp only
    rw [Dialogue.hold_reportAll, Dialogue.hold_reportAll, htrapped]
    exact ⟨by simp only [List.filter_append, hheard], rfl, rfl⟩

theorem bind_alike {γ : Type} {d : Dialogue α} {k : α → Dialogue γ} {s : τ}
    (hd : Dialogue.Alike (d.hold crew s) (d.hold crew' s))
    (hk : ∀ a t, Dialogue.Alike ((k a).hold crew t) ((k a).hold crew' t)) :
    Dialogue.Alike ((d >>= k).hold crew s) ((d >>= k).hold crew' s) := by
  have hbind (c : Crew τ) : (d >>= k).hold c s = _ := Dialogue.hold_bind c d k s
  rw [hbind crew, hbind crew']
  generalize d.hold crew s = x at hd ⊢
  generalize d.hold crew' s = y at hd ⊢
  obtain ⟨⟨first, a⟩, t⟩ := x
  obtain ⟨⟨first', _⟩, _⟩ := y
  obtain ⟨hfirst, rfl, rfl⟩ := hd
  obtain ⟨hrest, hending, hstate⟩ := hk a t
  dsimp only at hfirst
  exact ⟨by simp only [List.filter_append, hfirst, hrest], hending, hstate⟩

theorem run_alike (hc : crew.TellsAs crew') (ext : String) (files : NameMap String) (s : τ) :
    Dialogue.Alike ((run ext files).hold crew s) ((run ext files).hold crew' s) := by
  have hsame {α : Type} {d : Dialogue α} {t : τ} (h : d.hold crew t = d.hold crew' t) :
      Dialogue.Alike (d.hold crew t) (d.hold crew' t) := by
    rw [h]
    exact ⟨rfl, rfl, rfl⟩
  refine bind_alike (hsame (transpileAll_congr hc.transpile ext files s)) fun derived t => ?_
  cases derived with
  | none => exact hsame rfl
  | some merged =>
    refine bind_alike (hsame (compile_congr hc merged t)) fun build t => ?_
    rcases build with _ | bytes | _
    · exact hsame rfl
    · exact bind_alike (execute_alike hc bytes t) fun _ t => hsame rfl
    · exact hsame rfl

end Holding

/-- The lines of a text do not hang on the pieces it comes in, and a buffer that was finished is a
fresh one. So the lines that a run reports of its compiler are those of all it put out, the ones of
its program are those of each stretch up to a trap, and crews that tell the same, in whatever
pieces, have the same lines reported. -/
theorem lines_in_any_pieces :
    (∀ texts, (LineBuffer.pushAll {} texts).1 ++ (LineBuffer.pushAll {} texts).2.finish.1.toList =
      diagnosticLines (String.join texts)) ∧
    (∀ b : LineBuffer, b.finish.2 = {}) ∧
    (∀ replies, (hearCompile {} replies).1 =
      (diagnosticLines (String.ofList (replies.flatMap printed))).map .diagnostic) ∧
    (∀ replies, (hearExecute {} replies).1.filter shows =
      (passages [] replies).flatMap Passage.lines) ∧
    ∀ {τ : Type} {crew crew' : Crew τ}, crew.TellsAs crew' → ∀ ext files s,
      let reported (c : Crew τ) :=
        ((run ext files).hold c s).1.1 ++ ((run ext files).hold c s).1.2
      (reported crew).filter shows = (reported crew').filter shows := by
  refine ⟨LineBuffer.pushAll_finish, LineBuffer.finish_fresh, fun replies => ?_,
    hearExecute_lines List.not_mem_nil, fun hc ext files s => ?_⟩
  · rw [hearCompile_eq_lines List.not_mem_nil, diagnosticLines, String.toList_ofList]
    rfl
  · have halike := run_alike hc ext files s
    dsimp only
    rw [List.filter_append, List.filter_append, halike.lines, halike.ending]

end Course

def Crew.putting (compiler program : List String) (last : String) : Crew Unit where
  transpile _ s := (.ok [], s)
  compile _ s := (.ok (compiler.map .stderr ++ [.compiled []]), s)
  execute _ s := (.ok (program.map .stderr ++ [.trapped "out of\nfuel", .stderr last, .done]), s)

theorem Course.lines_in_two_cuts :
    let crew := Crew.putting ["a: x\r", "\n\nb\r"] ["on", "e\n\n\ntwo"] "three"
    let crew' := Crew.putting ["a:", " x\r\n", "\nb", "\r"] ["one\n", "\n", "\nt", "wo"] "three"
    let reported (c : Crew Unit) :=
      ((run ".rs" .empty).hold c ()).1.1 ++ ((run ".rs" .empty).hold c ()).1.2
    crew.TellsAs crew' ∧
      (reported crew).filter (·.shows) = (reported crew').filter (·.shows) ∧
      (reported crew).filter (·.shows) = [.diagnostic "a: x", .diagnostic "b", .log "one",
        .log "two", .diagnostic "out of", .diagnostic "fuel", .log "three"] := by
  intro crew crew' reported
  have htells : crew.TellsAs crew' :=
    ⟨rfl, fun _ _ => ⟨by rfl, rfl⟩, fun _ _ => ⟨by rfl, rfl⟩⟩
  exact ⟨htells, lines_in_any_pieces.2.2.2.2 htells ".rs" .empty (), by rfl⟩

end Buildbox
