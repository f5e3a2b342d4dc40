import Buildbox.Proofs.Worker.Progress
import Buildbox.Proofs.Worker.Station
import Buildbox.Worker.Tasks

/-! What is sent to the first of some relays comes out of the last one, in order and complete, when
the last one has ended. That one ends after all before it, and none before its senders are gone. -/

namespace Buildbox

namespace Outbox

variable {ρ : Type} {o : Outbox ρ} {ds : List (Dispatch ρ)}

def add (n : Nat) (o : Outbox ρ) : Outbox ρ :=
  { o with senders := o.senders + n }

theorem actAll_append (o : Outbox ρ) (ds es : List (Dispatch ρ)) :
    o.actAll (ds ++ es) = (o.actAll ds).actAll es :=
  List.foldl_append

theorem act_send (hs : o.senders ≠ 0) (reply : ρ) :
    o.act (.send reply) = { o with sent := o.sent ++ [reply] } :=
  if_neg hs

theorem actAll_send (hs : o.senders ≠ 0) (replies : List ρ) :
    o.actAll (replies.map .send) = { o with sent := o.sent ++ replies } := by
  induction replies generalizing o with
  | nil => rw [List.append_nil]; rfl
  | cons reply rest ih =>
    change (o.act (.send reply)).actAll (rest.map .send) = _
    have hrest := ih (o := { o with sent := o.sent ++ [reply] }) hs
    rw [act_send hs, hrest, List.append_assoc]
    rfl

theorem act_drop (o : Outbox ρ) : o.act .drop = { o with senders := o.senders - 1 } := by
  unfold act
  split
  · next h => rw [h]; cases o; simp_all
  · rfl

theorem act_add (hs : o.senders ≠ 0) (n : Nat) (d : Dispatch ρ) :
    (o.add n).act d = (o.act d).add n := by
  have hmore : (o.add n).senders ≠ 0 := by simp [add, hs]
  unfold act
  rw [if_neg hmore, if_neg hs]
  cases d with
  | send | clone => simp [add, Nat.add_right_comm]
  | drop =>
    simp only [add, mk.injEq, true_and]
    omega

theorem senders_act (o : Outbox ρ) (d : Dispatch ρ) : o.senders ≤ (o.act d).senders + 1 := by
  unfold act
  split
  · omega
  · cases d <;> dsimp only <;> omega

theorem actAll_add (hs : ds.length ≤ o.senders) (n : Nat) :
    (o.add n).actAll ds = (o.actAll ds).add n := by
  induction ds generalizing o with
  | nil => rfl
  | cons d rest ih =>
    rw [List.length_cons] at hs
    have hone : (o.add n).act d = (o.act d).add n := act_add (by omega) n d
    change ((o.add n).act d).actAll rest = ((o.act d).actAll rest).add n
    rw [hone]
    refine ih ?_
    have hless := senders_act o d
    omega

theorem sent_actAll (o : Outbox ρ) (ds : List (Dispatch ρ)) : o.sent <+: (o.actAll ds).sent := by
  induction ds generalizing o with
  | nil => exact List.prefix_rfl
  | cons d rest ih =>
    refine List.IsPrefix.trans ?_ (ih (o.act d))
    unfold act
    split
    · exact List.prefix_rfl
    · cases d with
      | send reply => exact List.prefix_append ..
      | clone | drop => exact List.prefix_rfl

end Outbox

namespace Relay

variable {r : Relay} {relays rest : List Relay} {own n : Nat}
  {input output : Outbox OutputChunk} {ds : List (Dispatch OutputChunk)}

structure Sound (r : Relay) : Prop where
  passed : r.passed ≤ r.channel.sent.length
  ended : r.ended → r.passed = r.channel.sent.length ∧ r.channel.senders = 0

/-- What goes into some relays and what comes out of them; besides those before it, there are own
sending ends to the last one. -/
def Flow (own : Nat) (input : Outbox OutputChunk) : List Relay → Outbox OutputChunk → Prop
  | [], output => output = input
  | r :: rest, output => r.channel = input.add (if rest.isEmpty then own else 0) ∧ r.Sound ∧
      Flow own r.output rest output

section Single

theorem Sound.receive (hr : r.Sound) (ds : List (Dispatch OutputChunk)) :
    (r.receive ds).Sound ∧ (r.receive ds).output = r.output := by
  obtain ⟨more, hmore⟩ := Outbox.sent_actAll r.channel ds
  have houtput : (r.receive ds).output = r.output := by
    rw [output, output, Relay.receive, ← hmore]
    dsimp only
    rw [List.take_append_of_le_length hr.passed]
  refine ⟨⟨?_, fun hended => ?_⟩, houtput⟩
  · rw [Relay.receive, ← hmore, List.length_append]
    exact Nat.le_add_right_of_le hr.passed
  · have hgone := hr.ended hended
    rw [Relay.receive, Outbox.actAll_of_none hgone.2]
    exact hgone

theorem Sound.go (hr : r.Sound) : r.go.1.Sound ∧ r.go.1.channel = r.channel ∧
    r.go.1.output = r.output.actAll r.go.2 ∧ r.go.2.length ≤ r.output.senders := by
  obtain ⟨hpassed, hended⟩ := hr
  unfold Relay.go
  cases hnext : r.channel.sent[r.passed]? with
  | some chunk =>
    have hlt := (List.getElem?_eq_some_iff.mp hnext).1
    have hrunning : r.ended = false := Bool.eq_false_iff.mpr fun h => by
      have hall := (hended h).1
      omega
    refine ⟨⟨hlt, fun h => ?_⟩, rfl, ?_, ?_⟩
    · rw [hrunning] at h
      cases h
    · simp [output, hrunning, Outbox.actAll, Outbox.act, List.take_add_one, hnext]
    · simp [output, hrunning]
  | none =>
    dsimp only
    have hall := List.getElem?_eq_none_iff.mp hnext
    split
    · next h =>
      refine ⟨⟨hpassed, fun _ => ⟨Nat.le_antisymm hpassed hall, h.1⟩⟩, rfl, ?_, ?_⟩
      · simp [output, h.2, Outbox.actAll, Outbox.act]
      · simp [output, h.2]
    · exact ⟨⟨hpassed, hended⟩, rfl, rfl, Nat.zero_le _⟩

theorem ended_of_output (h : r.output.senders = 0) : r.ended := by
  by_cases hended : r.ended
  · exact hended
  · simp [output, hended] at h

theorem Sound.all (hr : r.Sound) (hended : r.ended) :
    r.output = r.channel ∧ r.channel.senders = 0 := by
  obtain ⟨hall, hnone⟩ := hr.ended hended
  refine ⟨?_, hnone⟩
  rw [output, hended, if_pos rfl, hall, List.take_length, ← hnone]

end Single

section Several

theorem isEmpty_of_length {relays' : List Relay} (h : relays'.length = relays.length) :
    relays'.isEmpty = relays.isEmpty := by
  rw [Bool.eq_iff_iff, List.isEmpty_iff_length_eq_zero, List.isEmpty_iff_length_eq_zero, h]

theorem length_advance (n : Nat) (relays : List Relay) :
    (advance n relays).1.length = relays.length := by
  induction relays generalizing n with
  | nil => cases n <;> rfl
  | cons r rest ih =>
    cases n with
    | zero => cases rest <;> rfl
    | succ n => exact congrArg (· + 1) (ih n)

theorem Flow.feed (hf : Flow own input relays output) (ds : List (Dispatch OutputChunk))
    (hsome : relays ≠ []) (hs : ds.length ≤ input.senders) :
    Flow own (input.actAll ds) (feed ds relays) output := by
  cases relays with
  | nil => exact absurd rfl hsome
  | cons r rest =>
    obtain ⟨hchannel, hr, hrest⟩ := hf
    obtain ⟨hr', houtput⟩ := hr.receive ds
    refine ⟨?_, hr', houtput ▸ hrest⟩
    rw [receive, hchannel]
    exact Outbox.actAll_add hs _

theorem Flow.advance (hf : Flow own input relays output) (n : Nat) :
    Flow own input (advance n relays).1 (output.actAll (advance n relays).2) := by
  induction relays generalizing input n with
  | nil => cases n <;> exact hf
  | cons r rest ih =>
    obtain ⟨hchannel, hr, hrest⟩ := hf
    cases n with
    | zero =>
      obtain ⟨hr', hchannel', houtput, hs⟩ := hr.go
      cases rest with
      | nil =>
        obtain rfl : output = r.output := hrest
        exact ⟨hchannel'.trans hchannel, hr', houtput.symm⟩
      | cons next rest =>
        -- What the relay does with its sending end is done to the channel of the next one.
        refine ⟨hchannel'.trans hchannel, hr', ?_⟩
        rw [houtput]
        exact hrest.feed _ (List.cons_ne_nil _ _) hs
    | succ n =>
      refine ⟨?_, hr, ih hrest n⟩
      rw [hchannel, ← isEmpty_of_length (length_advance n rest)]

theorem Flow.unique {output' : Outbox OutputChunk} (hf : Flow own input relays output)
    (hf' : Flow own input relays output') : output = output' := by
  induction relays generalizing input with
  | nil => exact Eq.trans hf (Eq.symm hf')
  | cons r rest ih => exact ih hf.2.2 hf'.2.2

theorem Flow.outgoing (hf : Flow own input relays output) (n : Nat) :
    (Relay.advance n relays).2.length ≤ output.senders := by
  induction relays generalizing input n with
  | nil => cases n <;> exact Nat.zero_le _
  | cons r rest ih =>
    obtain ⟨-, hr, hrest⟩ := hf
    cases n with
    | zero =>
      cases rest with
      | nil =>
        obtain rfl : output = r.output := hrest
        exact hr.go.2.2.2
      | cons next rest => exact Nat.zero_le _
    | succ n => exact ih hrest n

theorem Flow.drained (hf : Flow own input relays output) (hs : output.senders = 0) :
    input.senders = 0 ∧ output.sent = input.sent := by
  induction relays generalizing input with
  | nil =>
    obtain rfl : output = input := hf
    exact ⟨hs, rfl⟩
  | cons r rest ih =>
    obtain ⟨hchannel, hr, hrest⟩ := hf
    obtain ⟨hnone, hsent⟩ := ih hrest
    obtain ⟨houtput, hgone⟩ := hr.all (ended_of_output hnone)
    rw [hchannel] at hgone
    have hinput : input.senders = 0 := Nat.eq_zero_of_add_eq_zero_right hgone
    rw [hsent, houtput, hchannel]
    exact ⟨hinput, rfl⟩

theorem Flow.still (hf : Flow own input relays output) (hs : output.senders = 0) (n : Nat) :
    Relay.advance n relays = (relays, []) := by
  induction relays generalizing input n with
  | nil => cases n <;> rfl
  | cons r rest ih =>
    obtain ⟨-, hr, hrest⟩ := hf
    cases n with
    | zero =>
      have hended : r.ended := ended_of_output (hrest.drained hs).1
      have hgo : r.go = (r, []) := by
        unfold Relay.go
        rw [List.getElem?_eq_none_iff.mpr (Nat.le_of_eq (hr.ended hended).1.symm)]
        simp [hended]
      cases rest <;> simp [Relay.advance, hgo, Relay.feed, receive, Outbox.actAll]
    | succ n => rw [Relay.advance, ih hrest n]

theorem Flow.sent_le (hf : Flow own input relays output) : output.sent <+: input.sent := by
  induction relays generalizing input with
  | nil =>
    obtain rfl : output = input := hf
    exact List.prefix_rfl
  | cons r rest ih =>
    obtain ⟨hchannel, -, hrest⟩ := hf
    refine (ih hrest).trans ?_
    rw [Relay.output, hchannel]
    exact List.take_prefix ..

theorem length_hangUp (relays : List Relay) : (hangUp relays).length = relays.length := by
  induction relays with
  | nil => rfl
  | cons r rest ih =>
    cases rest with
    | nil => rfl
    | cons next rest => exact congrArg (· + 1) ih

theorem Flow.hangUp (hf : Flow 1 input relays output) :
    Flow 0 input (hangUp relays) output := by
  induction relays generalizing input with
  | nil => exact hf
  | cons r rest ih =>
    obtain ⟨hchannel, hr, hrest⟩ := hf
    cases rest with
    | nil =>
      obtain ⟨hr', houtput⟩ := hr.receive [.drop]
      refine ⟨?_, hr', houtput ▸ hrest⟩
      rw [receive, hchannel]
      exact (Outbox.act_drop (input.add 1)).trans rfl
    | cons next rest =>
      refine ⟨?_, hr, ih hrest⟩
      rw [hchannel, isEmpty_of_length (length_hangUp (next :: rest))]
      rfl

theorem Flow.finished (hf : Flow own input relays output)
    (hended : relays.getLast?.all (·.ended)) (hnone : relays = [] → input.senders = 0) :
    output.senders = 0 := by
  induction relays generalizing input with
  | nil =>
    obtain rfl : output = input := hf
    exact hnone rfl
  | cons r rest ih =>
    obtain ⟨-, -, hrest⟩ := hf
    cases rest with
    | nil =>
      obtain rfl : output = r.output := hrest
      have hlast : r.ended := hended
      simp [Relay.output, hlast]
    | cons next rest =>
      exact ih hrest (by simpa using hended) (fun h => absurd h (List.cons_ne_nil _ _))

end Several

section Progress

def load : List Relay → Nat
  | [] => 0
  | r :: rest => (r.channel.sent.length - r.passed) * (rest.length + 1) + load rest

def left (relays : List Relay) : Amount :=
  (relays.countP (!·.ended), load relays)

theorem go_cases (r : Relay) : r.go = (r, []) ∨
    (∃ chunk, r.go = ({ r with passed := r.passed + 1 }, [.send chunk]) ∧
      r.passed < r.channel.sent.length) ∨
    (r.go = ({ r with ended := true }, [.drop]) ∧ r.ended = false) := by
  unfold go
  cases hnext : r.channel.sent[r.passed]? with
  | some chunk => exact .inr (.inl ⟨chunk, rfl, (List.getElem?_eq_some_iff.mp hnext).1⟩)
  | none =>
    dsimp only
    split
    · next h => exact .inr (.inr ⟨rfl, Bool.eq_false_iff.mpr h.2⟩)
    · exact .inl rfl

theorem feed_nil (relays : List Relay) : Relay.feed [] relays = relays := by
  cases relays <;> rfl

theorem countP_feed (ds : List (Dispatch OutputChunk)) (relays : List Relay) :
    (Relay.feed ds relays).countP (!·.ended) = relays.countP (!·.ended) := by
  cases relays <;> simp only [Relay.feed, receive, List.countP_cons]

theorem countP_hangUp (relays : List Relay) :
    (hangUp relays).countP (!·.ended) = relays.countP (!·.ended) := by
  induction relays with
  | nil => rfl
  | cons r rest ih =>
    cases rest with
    | nil => simp only [hangUp, receive, List.countP_cons]
    | cons next rest => rw [hangUp, List.countP_cons, ih, ← List.countP_cons]

theorem length_feed (ds : List (Dispatch OutputChunk)) (relays : List Relay) :
    (Relay.feed ds relays).length = relays.length := by
  cases relays <;> rfl

theorem load_send (chunk : OutputChunk) (relays : List Relay) :
    load (Relay.feed [.send chunk] relays) ≤ load relays + relays.length := by
  cases relays with
  | nil => exact Nat.le_refl _
  | cons r rest =>
    have hone : (r.receive [.send chunk]).channel.sent.length - r.passed ≤
        r.channel.sent.length - r.passed + 1 := by
      have hsent : (r.receive [.send chunk]).channel.sent.length ≤
          r.channel.sent.length + 1 := by
        change (r.channel.act (.send chunk)).sent.length ≤ _
        unfold Outbox.act
        split <;> simp
      omega
    have hmore := Nat.mul_le_mul_right (rest.length + 1) hone
    rw [Nat.add_mul, Nat.one_mul] at hmore
    change (_ - r.passed) * (rest.length + 1) + load rest ≤
      (_ - r.passed) * (rest.length + 1) + load rest + (rest.length + 1)
    omega

theorem less_cons {relays' : List Relay} (hlength : relays'.length = relays.length)
    (hless : Amount.Less (left relays') (left relays)) (r : Relay) :
    Amount.Less (left (r :: relays')) (left (r :: relays)) := by
  rw [Amount.less_iff] at hless ⊢
  simp only [left, List.countP_cons, load, hlength] at hless ⊢
  omega

theorem less_go (hgo : r.go ≠ (r, [])) (rest : List Relay) :
    Amount.Less (left (r.go.1 :: feed r.go.2 rest)) (left (r :: rest)) := by
  rcases go_cases r with hsame | ⟨chunk, hgo, hlt⟩ | ⟨hgo, hended⟩
  · exact absurd hsame hgo
  · have hload := load_send chunk rest
    have hone : r.channel.sent.length - r.passed =
        r.channel.sent.length - (r.passed + 1) + 1 := by omega
    rw [hgo]
    simp only [left, List.countP_cons, countP_feed]
    refine .right _ ?_
    simp only [load, length_feed]
    rw [hone, Nat.add_mul, Nat.one_mul]
    omega
  · rw [hgo]
    simp only [left, List.countP_cons, countP_feed]
    refine .left _ _ ?_
    simp [hended]

theorem left_advance (n : Nat) (relays : List Relay) :
    advance n relays = (relays, []) ∨ Amount.Less (left (advance n relays).1) (left relays) := by
  induction relays generalizing n with
  | nil => cases n <;> exact .inl rfl
  | cons r rest ih =>
    cases n with
    | zero =>
      by_cases hgo : r.go = (r, [])
      · left
        simp [advance, hgo, feed_nil]
      · exact .inr (less_go hgo rest)
    | succ n =>
      rcases ih n with hsame | hless
      · left
        rw [advance, hsame]
      · exact .inr (less_cons (length_advance n rest) hless r)

theorem Flow.due (hf : Flow own input relays output) (hinput : input.senders = 0)
    (hopen : relays.dropLast.all (·.ended) = false ∨
      own = 0 ∧ relays.getLast?.all (·.ended) = false) :
    ∃ n, Amount.Less (left (Relay.advance n relays).1) (left relays) := by
  -- The first relay that has not ended can go on, since all before it have.
  induction relays generalizing input with
  | nil => simp at hopen
  | cons r rest ih =>
    obtain ⟨hchannel, hr, hrest⟩ := hf
    cases hended : r.ended with
    | true =>
      have hopen' : rest.dropLast.all (·.ended) = false ∨
          own = 0 ∧ rest.getLast?.all (·.ended) = false := by
        cases rest with
        | nil => simp [hended] at hopen
        | cons next rest => simpa [hended] using hopen
      have hnone : r.output.senders = 0 := by simp [Relay.output, hended]
      obtain ⟨n, hless⟩ := ih hrest hnone hopen'
      exact ⟨n + 1, less_cons (length_advance n rest) hless r⟩
    | false =>
      -- Nobody can send to it, so it passes on what waits, or ends.
      refine ⟨0, less_go (fun hgo => ?_) rest⟩
      have hsenders : r.channel.senders = 0 := by
        rw [hchannel]
        cases rest with
        | nil =>
          have hown : own = 0 := (hopen.resolve_left (by simp)).1
          simp [Outbox.add, hinput, hown]
        | cons next rest => simp [Outbox.add, hinput]
      unfold go at hgo
      split at hgo
      · simp at hgo
      · simp [hsenders, hended] at hgo

end Progress

end Relay

end Buildbox
