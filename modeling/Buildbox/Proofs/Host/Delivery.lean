import Buildbox.Proofs.Host.Atomic
import Buildbox.Proofs.Utf8.Chunking

/-! What a run delivers. Each stream has a sink of its own, only writes to a descriptor of the
stream reach it, and from what reaches it until it is flushed it delivers the lossy reading. -/

namespace Buildbox

def OutputChunk.join (chunks : List OutputChunk) : String :=
  String.join (chunks.map (·.text))

theorem OutputChunk.join_append (as bs : List OutputChunk) :
    join (as ++ bs) = join as ++ join bs := by
  rw [join, List.map_append, String.join_append]
  rfl

namespace OutputSink

variable {s : OutputSink} {channel : Channel}

section Emit

theorem emit_capture (hr : s.redirect = .capture) (text : String) :
    s.emit text = ({ s with captured := s.captured ++ text }, []) := by
  unfold emit
  split
  · next hnil => rw [hnil, String.append_empty]
  · rw [hr]

theorem emit_forward (hr : s.redirect = .forward channel) (text : String) :
    s.emit text = (s, if text = "" then [] else [⟨channel, text⟩]) := by
  unfold emit
  split
  · rfl
  · rw [hr]

theorem join_emit_forward (hr : s.redirect = .forward channel) (text : String) :
    OutputChunk.join (s.emit text).2 = text := by
  rw [emit_forward hr]
  dsimp only
  split
  · next hnil => rw [hnil]; rfl
  · exact String.empty_append

theorem of_mem_emit {chunk : OutputChunk} {text : String} (hc : chunk ∈ (s.emit text).2) :
    chunk.text ≠ "" ∧ s.redirect = .forward chunk.channel := by
  unfold emit at hc
  split at hc
  · cases hc
  · next hne =>
    split at hc
    · cases hc
    · cases hc
    · next channel hr =>
      obtain rfl := List.mem_singleton.mp hc
      exact ⟨hne, hr⟩

theorem emit_redirect (s : OutputSink) (text : String) :
    (s.emit text).1.redirect = s.redirect := by
  unfold emit
  split
  · rfl
  · split <;> rfl

end Emit

def taking (s : OutputSink) (data : Bytes) : OutputSink :=
  { s with
    decoder := (s.decoder.decode data).2
    bytesWritten := s.bytesWritten + UInt64.ofNat data.length }

def closing (s : OutputSink) : OutputSink :=
  { s with decoder := s.decoder.finish.2 }

theorem write_eq (hr : s.redirect ≠ .discard) (data : Bytes) :
    s.write data = (s.taking data).emit (s.decoder.decode data).1 :=
  if_neg hr

theorem write_discard (hr : s.redirect = .discard) (data : Bytes) :
    s.write data = ({ s with bytesWritten := s.bytesWritten + UInt64.ofNat data.length }, []) :=
  if_pos hr

theorem finish_eq (s : OutputSink) :
    s.finish = ((s.closing.emit s.decoder.finish.1).1.captured,
      (s.closing.emit s.decoder.finish.1).2) := rfl

def run (s : OutputSink) : List Bytes → String × List OutputChunk
  | [] => s.finish
  | data :: rest =>
    let (s, now) := s.write data
    let (text, later) := s.run rest
    (text, now ++ later)

section Run

theorem write_redirect (s : OutputSink) (data : Bytes) :
    (s.write data).1.redirect = s.redirect := by
  by_cases hr : s.redirect = .discard
  · rw [write_discard hr]
  · rw [write_eq hr]
    exact emit_redirect ..

theorem of_mem_write {chunk : OutputChunk} {data : Bytes} (hc : chunk ∈ (s.write data).2) :
    chunk.text ≠ "" ∧ s.redirect = .forward chunk.channel := by
  by_cases hr : s.redirect = .discard
  · rw [write_discard hr] at hc
    cases hc
  · rw [write_eq hr] at hc
    have hsent := of_mem_emit hc
    exact hsent

theorem of_mem_run {chunk : OutputChunk} {datas : List Bytes} (hc : chunk ∈ (s.run datas).2) :
    chunk.text ≠ "" ∧ s.redirect = .forward chunk.channel := by
  induction datas generalizing s with
  | nil =>
    rw [run, finish_eq] at hc
    have hsent := of_mem_emit hc
    exact hsent
  | cons data rest ih =>
    rcases List.mem_append.mp hc with hnow | hlater
    · exact of_mem_write hnow
    · obtain ⟨hne, hr⟩ := ih hlater
      exact ⟨hne, (write_redirect s data).symm.trans hr⟩

theorem run_capture (hr : s.redirect = .capture) (ho : s.decoder.IsOpen) (datas : List Bytes) :
    s.run datas = (s.captured ++ Utf8.lossyText (s.decoder.carry ++ datas.flatten), []) := by
  induction datas generalizing s with
  | nil =>
    have hclosing : s.closing.redirect = .capture := hr
    rw [run, finish_eq, emit_capture hclosing, List.flatten_nil, List.append_nil,
      ← Utf8.StreamDecoder.finish_reads ho]
    rfl
  | cons data rest ih =>
    obtain ⟨hreads, hopen⟩ := Utf8.StreamDecoder.decode_reads ho data rest.flatten
    have htaking : (s.taking data).redirect = .capture := hr
    have hwrite := write_eq (s := s) (by rw [hr]; nofun) data
    rw [emit_capture htaking] at hwrite
    have hrest := ih (s := (s.write data).1) (by rw [hwrite]; exact hr)
      (by rw [hwrite]; exact hopen)
    rw [run]
    dsimp only
    rw [hrest, hwrite, List.flatten_cons, ← List.append_assoc, hreads, ← String.append_assoc]
    rfl

theorem run_forward (hr : s.redirect = .forward channel) (ho : s.decoder.IsOpen)
    (datas : List Bytes) :
    (s.run datas).1 = s.captured ∧
      OutputChunk.join (s.run datas).2 =
        Utf8.lossyText (s.decoder.carry ++ datas.flatten) := by
  induction datas generalizing s with
  | nil =>
    have hclosing : s.closing.redirect = .forward channel := hr
    rw [run, finish_eq, List.flatten_nil, List.append_nil, ← Utf8.StreamDecoder.finish_reads ho]
    exact ⟨by rw [emit_forward hclosing]; rfl, join_emit_forward hclosing _⟩
  | cons data rest ih =>
    obtain ⟨hreads, hopen⟩ := Utf8.StreamDecoder.decode_reads ho data rest.flatten
    have htaking : (s.taking data).redirect = .forward channel := hr
    have hwrite := write_eq (s := s) (by rw [hr]; nofun) data
    have hsink : (s.write data).1 = s.taking data := by rw [hwrite, emit_forward htaking]
    have hnow : OutputChunk.join (s.write data).2 = (s.decoder.decode data).1 := by
      rw [hwrite, join_emit_forward htaking]
    obtain ⟨htext, hjoin⟩ := ih htaking hopen
    rw [run]
    dsimp only
    rw [hsink, OutputChunk.join_append, hnow, hjoin, List.flatten_cons, ← List.append_assoc,
      hreads]
    exact ⟨htext, rfl⟩

end Run

end OutputSink

namespace Host

variable {h : Host} {c : Call} {s t : Stream} {data : Bytes}

def sink (h : Host) : Stream → OutputSink
  | .stdout => h.stdout
  | .stderr => h.stderr

def Outcome.captured (o : Outcome) : Stream → String
  | .stdout => o.stdout
  | .stderr => o.stderr

def output? (h : Host) (c : Call) : Option (Stream × Bytes) :=
  match c, (h.step c).1 with
  | .fdWrite fd data, .ok _ =>
    match h.fds.get? fd with
    | some (.output stream) => some (stream, data)
    | _ => none
  | _, _ => none

/-- What a run writes to the streams, in order. -/
def outputs (h : Host) : List Call → List (Stream × Bytes)
  | [] => []
  | c :: calls => (h.output? c).toList ++ outputs (h.step c).2 calls

def sends (h : Host) (c : Call) : List (Stream × OutputChunk) :=
  match h.output? c with
  | some (stream, data) => ((h.sink stream).write data).2.map (stream, ·)
  | none => []

/-- What the sinks send in a run and at its end. -/
def sent (h : Host) : List Call → List (Stream × OutputChunk)
  | [] => h.stdout.finish.2.map (.stdout, ·) ++ h.stderr.finish.2.map (.stderr, ·)
  | c :: calls => h.sends c ++ sent (h.step c).2 calls

def ofStream {α : Type} (stream : Stream) (record : List (Stream × α)) : List α :=
  (record.filter (·.1 = stream)).map (·.2)

section Records

variable {α : Type}

theorem ofStream_append (s : Stream) (as bs : List (Stream × α)) :
    ofStream s (as ++ bs) = ofStream s as ++ ofStream s bs := by
  rw [ofStream, List.filter_append, List.map_append]
  rfl

theorem ofStream_map (s t : Stream) (xs : List α) :
    ofStream s (xs.map (t, ·)) = if t = s then xs else [] := by
  induction xs with
  | nil => simp [ofStream]
  | cons x xs ih =>
    rw [List.map_cons, ← List.singleton_append, ofStream_append, ih]
    split
    · next heq => simp [ofStream, heq]
    · next hne => simp [ofStream, hne]

end Records

section Step

theorem step_of_output?_none (ho : h.output? c = none) :
    (h.step c).2.stdout = h.stdout ∧ (h.step c).2.stderr = h.stderr ∧
      (h.step c).2.delivered = h.delivered := by
  obtain ⟨r, hok, heff⟩ | ⟨e, -, hstay⟩ := step_cases h c
  · generalize (h.step c).2 = h' at heff
    cases heff with
    | output hd =>
      unfold output? at ho
      simp only [hok, hd, reduceCtorEq] at ho
    | look | write | pwrite | readInput | read | seek | close | renumber | setAppend | noAppend
    | setSize | openDir | openFile | openCut | create | createDirectory | unlinkFile
    | removeDirectory | renameSame | rename | random | poll => exact ⟨rfl, rfl, rfl⟩
  · rw [hstay]
    exact ⟨rfl, rfl, rfl⟩

theorem step_of_output?_some (ho : h.output? c = some (s, data)) :
    (h.step c).2 = h.writeOutput s data := by
  unfold output? at ho
  split at ho
  · next fd bytes r hok =>
    split at ho
    · next stream hd =>
      cases ho
      obtain ⟨r', -, heff⟩ | ⟨e, herr, -⟩ := step_cases h (.fdWrite fd data)
      · generalize (h.step (.fdWrite fd data)).2 = h' at heff
        cases heff with
        | look hc => cases hc
        | output hd' =>
          rw [hd] at hd'
          cases hd'
          rfl
        | write hd' =>
          rw [hd] at hd'
          cases hd'
      · rw [hok] at herr
        cases herr
    · cases ho
  · cases ho

theorem sink_writeOutput (h : Host) (s t : Stream) (data : Bytes) :
    (h.writeOutput s data).sink t = if s = t then ((h.sink s).write data).1 else h.sink t := by
  cases s <;> cases t <;> rfl

theorem delivered_writeOutput (h : Host) (s : Stream) (data : Bytes) :
    (h.writeOutput s data).delivered = h.delivered ++ ((h.sink s).write data).2 := by
  cases s <;> rfl

end Step

section Runs

theorem run_step (h : Host) (c : Call) (s : Stream) (rest : List Bytes) :
    (h.sink s).run (ofStream s (h.output? c).toList ++ rest) =
      ((((h.step c).2.sink s).run rest).1,
        ofStream s (h.sends c) ++ (((h.step c).2.sink s).run rest).2) := by
  unfold sends
  cases ho : h.output? c with
  | none =>
    have hsink : (h.step c).2.sink s = h.sink s := by
      obtain ⟨hout, herr, -⟩ := step_of_output?_none ho
      cases s <;> assumption
    rw [hsink]
    rfl
  | some p =>
    obtain ⟨t, data⟩ := p
    have hsink := sink_writeOutput h t s data
    rw [← step_of_output?_some ho] at hsink
    have hdata : ofStream s [(t, data)] = if t = s then [data] else [] := ofStream_map s t [data]
    rw [Option.toList_some, hdata, hsink]
    dsimp only
    rw [ofStream_map]
    by_cases hts : t = s
    · subst hts
      simp only [if_pos]
      rfl
    · simp only [if_neg hts, List.nil_append]

theorem sink_run (h : Host) (s : Stream) (calls : List Call) :
    (h.sink s).run (ofStream s (h.outputs calls)) =
      ((h.runCalls calls).finish.captured s, ofStream s (h.sent calls)) := by
  induction calls generalizing h with
  | nil =>
    rw [sent, ofStream_append, ofStream_map, ofStream_map]
    cases s with
    | stdout => exact Prod.ext rfl (List.append_nil _).symm
    | stderr => rfl
  | cons c calls ih =>
    rw [outputs, ofStream_append, run_step, ih, sent, ofStream_append]
    rfl

theorem chunks_run (h : Host) (calls : List Call) :
    (h.runCalls calls).finish.chunks = h.delivered ++ (h.sent calls).map (·.2) := by
  induction calls generalizing h with
  | nil => simp [sent, finish, runCalls, Function.comp_def]
  | cons c calls ih =>
    have hrun : h.runCalls (c :: calls) = (h.step c).2.runCalls calls := rfl
    have hnow : (h.step c).2.delivered = h.delivered ++ (h.sends c).map (·.2) := by
      unfold sends
      cases ho : h.output? c with
      | none => rw [(step_of_output?_none ho).2.2, List.map_nil, List.append_nil]
      | some p =>
        rw [step_of_output?_some ho, delivered_writeOutput]
        simp [Function.comp_def]
    rw [hrun, ih, hnow, sent, List.map_append, List.append_assoc]

theorem sink_fresh (args env : List String) (mounts : MountTable) (stdout stderr : Redirect)
    (budget : UInt64) (deadline : Deadline) (s : Stream) :
    (fresh args env mounts stdout stderr budget deadline).sink s =
      { redirect := match s with | .stdout => stdout | .stderr => stderr } := by
  cases s <;> rfl

/-- A stream delivers the lossy reading of what was written to it, whether it keeps the text or
sends it on. What is sent is never empty, and is queued in the order of sending. No other call than
a write through a descriptor of a stream delivers anything. -/
theorem runCalls_fresh_delivers (args env : List String) (mounts : MountTable)
    (stdout stderr : Redirect) (budget : UInt64) (deadline : Deadline) (calls : List Call) :
    let h := fresh args env mounts stdout stderr budget deadline
    let o := (h.runCalls calls).finish
    (∀ s, (h.sink s).redirect = .capture →
      o.captured s = Utf8.lossyText (ofStream s (h.outputs calls)).flatten ∧
        ofStream s (h.sent calls) = []) ∧
    (∀ s channel, (h.sink s).redirect = .forward channel →
      OutputChunk.join (ofStream s (h.sent calls)) =
          Utf8.lossyText (ofStream s (h.outputs calls)).flatten ∧
        o.captured s = "" ∧ ∀ chunk ∈ ofStream s (h.sent calls), chunk.channel = channel) ∧
    o.chunks = (h.sent calls).map (·.2) ∧ (∀ chunk ∈ o.chunks, chunk.text ≠ "") ∧
    ∀ (g : Host) c, (∀ fd data s, c = .fdWrite fd data → g.fds.get? fd ≠ some (.output s)) →
      (g.step c).2.stdout = g.stdout ∧ (g.step c).2.stderr = g.stderr ∧
        (g.step c).2.delivered = g.delivered := by
  intro h o
  have hfresh (s : Stream) : (h.sink s).decoder.carry = [] ∧ (h.sink s).captured = "" := by
    rw [sink_fresh]
    exact ⟨rfl, rfl⟩
  have hopen (s : Stream) : (h.sink s).decoder.IsOpen := .inl (hfresh s).1
  have hchunks : o.chunks = (h.sent calls).map (·.2) := chunks_run h calls
  have hmem (s : Stream) {chunk : OutputChunk} (hc : chunk ∈ ofStream s (h.sent calls)) :
      chunk.text ≠ "" ∧ (h.sink s).redirect = .forward chunk.channel := by
    have hrun := congrArg Prod.snd (sink_run h s calls)
    rw [← show _ = ofStream s (h.sent calls) from hrun] at hc
    exact OutputSink.of_mem_run hc
  refine ⟨fun s hr => ?_, fun s channel hr => ?_, hchunks, fun chunk hc => ?_, fun g c hc => ?_⟩
  · have hrun := OutputSink.run_capture hr (hopen s) (ofStream s (h.outputs calls))
    rw [sink_run, (hfresh s).1, (hfresh s).2, String.empty_append, List.nil_append] at hrun
    exact Prod.mk.inj hrun
  · obtain ⟨htext, hjoin⟩ :=
      OutputSink.run_forward hr (hopen s) (ofStream s (h.outputs calls))
    rw [sink_run, (hfresh s).1, List.nil_append] at hjoin
    rw [sink_run, (hfresh s).2] at htext
    refine ⟨hjoin, htext, fun chunk hc => ?_⟩
    have hchannel := (hmem s hc).2
    rw [hr] at hchannel
    exact (Redirect.forward.inj hchannel).symm
  · rw [hchunks] at hc
    obtain ⟨⟨s, chunk⟩, hp, rfl⟩ := List.mem_map.mp hc
    have hmine : chunk ∈ ofStream s (h.sent calls) :=
      List.mem_map.mpr ⟨(s, chunk), List.mem_filter.mpr ⟨hp, decide_eq_true rfl⟩, rfl⟩
    exact (hmem s hmine).1
  · refine step_of_output?_none ?_
    unfold output?
    split
    · next fd data _ _ =>
      split
      · next s hd => exact absurd hd (hc fd data s rfl)
      · rfl
    · rfl

theorem delivers_through_moved_descriptor :
    let h := fresh [] [] [] (.forward .preview) .capture 10 none
    let calls : List Call := [.fdWrite 1 [0x61, 0xC3], .fdRenumber 1 0, .fdWrite 2 [0xFF],
      .fdWrite 1 [0x62], .fdWrite 0 [0xA9], .fdPwrite 0 [0x63] 0, .fdClose 2, .fdWrite 0 [0xE2]]
    let o := (h.runCalls calls).finish
    OutputChunk.join (ofStream .stdout (h.sent calls)) = "aé\ufffd" ∧
      (∀ chunk ∈ ofStream .stdout (h.sent calls), chunk.channel = .preview) ∧
      o.captured .stderr = "\ufffd" ∧ (∀ chunk ∈ o.chunks, chunk.text ≠ "") ∧
      (h.step (.fdPwrite 1 [0x63] 0)).2.delivered = h.delivered := by
  intro h calls o
  obtain ⟨hcapture, hforward, -, hne, hother⟩ :=
    runCalls_fresh_delivers [] [] [] (.forward .preview) .capture 10 none calls
  obtain ⟨hout, -, hchannel⟩ := hforward .stdout .preview rfl
  have hread : Utf8.lossyText (ofStream .stdout (h.outputs calls)).flatten = "aé\ufffd" := by decide
  have hread' : Utf8.lossyText (ofStream .stderr (h.outputs calls)).flatten = "\ufffd" := by decide
  refine ⟨hout.trans hread, hchannel, (hcapture .stderr rfl).1.trans hread', hne, ?_⟩
  exact (hother h (.fdPwrite 1 [0x63] 0) (fun _ _ _ hc => by cases hc)).2.2

end Runs

end Host

end Buildbox
