import Buildbox.Proofs.Host.Hidden
import Buildbox.Proofs.Host.Moving
import Buildbox.Proofs.Host.Writing
import Mathlib.Algebra.Ring.Nat

/-! Files read and written piece by piece through one descriptor. However the reads are sized, and
however the data is cut, the pieces come to the same as one call. -/

namespace Buildbox

section Segments

variable {bytes : Bytes} {position : UInt64}

theorem toNat_add_length_readAt (hlen : bytes.length < UInt64.size) (max : Nat) :
    (position + UInt64.ofNat (readAt bytes position max).length).toNat =
      position.toNat + (readAt bytes position max).length := by
  have hposition : position.toNat < UInt64.size := position.toNat_lt_size
  have hread : (readAt bytes position max).length = min max (bytes.length - position.toNat) := by
    rw [readAt, List.length_take, List.length_drop]
  have hsum : position.toNat + (readAt bytes position max).length < UInt64.size := by
    rw [hread]
    omega
  rw [UInt64.toNat_add, UInt64.toNat_ofNat_of_lt' (by omega)]
  exact Nat.mod_eq_of_lt hsum

theorem readAt_add (hlen : bytes.length < UInt64.size) (m n : Nat) :
    readAt bytes position m ++
        readAt bytes (position + UInt64.ofNat (readAt bytes position m).length) n =
      readAt bytes position (m + n) := by
  let rest := bytes.drop position.toNat
  have hread : readAt bytes position m = rest.take m := rfl
  have hnext : bytes.drop (position.toNat + (rest.take m).length) = rest.drop m := by
    rw [← List.drop_drop]
    change rest.drop (rest.take m).length = rest.drop m
    rw [List.length_take]
    rcases Nat.le_total m rest.length with hm | hm
    · rw [Nat.min_eq_left hm]
    · rw [Nat.min_eq_right hm, List.drop_length, List.drop_of_length_le hm]
  have hsecond : readAt bytes (position + UInt64.ofNat (readAt bytes position m).length) n =
      (rest.drop m).take n := by
    rw [readAt, toNat_add_length_readAt hlen m, hread, hnext]
  rw [hsecond, hread, ← List.take_add]
  rfl

theorem readAt_eq_segment (bytes : Bytes) (position : UInt64) (max : Nat) :
    readAt bytes position max = (bytes.drop (min position.toNat bytes.length)).take
      (min max (bytes.length - min position.toNat bytes.length)) := by
  have hdrop : bytes.drop (min position.toNat bytes.length) = bytes.drop position.toNat := by
    rcases Nat.le_total position.toNat bytes.length with hp | hp
    · rw [Nat.min_eq_left hp]
    · rw [Nat.min_eq_right hp, List.drop_length, List.drop_of_length_le hp]
  rw [readAt, hdrop, ← hdrop, List.take_eq_take_iff, List.length_drop]
  omega

end Segments

namespace Host

variable {h h' : Host} {fd : Fd} {i : Nat} {path : List String} {position : UInt64}
  {append : Bool} {bytes data first rest : Bytes} {start : Nat} {r : Reply}

section Reads

theorem run_reads (hlen : bytes.length < UInt64.size) (hb : h.nodeAt? i path = some (.file bytes))
    (hd : h.fds.get? fd = some (.file i path position append)) (sizes : List Nat) :
    ∃ parts : List Bytes,
      h.answers (sizes.map (.fdRead fd)) = parts.map (fun part => .ok (.bytes part)) ∧
      parts.flatten = readAt bytes position sizes.sum ∧
      h.runCalls (sizes.map (.fdRead fd)) =
        { h with fds := h.fds.set fd (.file i path
            (position + UInt64.ofNat (readAt bytes position sizes.sum).length) append) } := by
  induction sizes generalizing h position with
  | nil =>
    have hnone : readAt bytes position [].sum = [] := rfl
    refine ⟨[], rfl, hnone.symm, ?_⟩
    rw [hnone]
    change h = { h with fds := h.fds.set fd (.file i path (position + 0) append) }
    rw [UInt64.add_zero, DescriptorTable.set_of_get? hd]
  | cons size sizes ih =>
    let next := position + UInt64.ofNat (readAt bytes position size).length
    let after : Host := { h with fds := h.fds.set fd (.file i path next append) }
    have hstep : h.step (.fdRead fd size) = (.ok (.bytes (readAt bytes position size)), after) :=
      step_fdRead_eq hd hb
    have hafter : after.fds.get? fd = some (.file i path next append) := by
      rw [DescriptorTable.get?_set, if_pos rfl]
    obtain ⟨parts, hanswers, hparts, hrun⟩ := ih (h := after) hb hafter
    have hsum : readAt bytes position size ++ readAt bytes next sizes.sum =
        readAt bytes position (size :: sizes).sum := readAt_add hlen size sizes.sum
    refine ⟨readAt bytes position size :: parts, ?_, ?_, ?_⟩
    · rw [List.map_cons, answers, hstep, hanswers, List.map_cons]
    · rw [List.flatten_cons, hparts, hsum]
    · have hcons : h.runCalls ((size :: sizes).map (.fdRead fd)) =
          after.runCalls (sizes.map (.fdRead fd)) := by
        rw [List.map_cons, runCalls, List.foldl_cons, hstep]
        rfl
      have hposition : next + UInt64.ofNat (readAt bytes next sizes.sum).length =
          position + UInt64.ofNat (readAt bytes position (size :: sizes).sum).length := by
        rw [← hsum, List.length_append, UInt64.ofNat_add, ← UInt64.add_assoc]
      rw [hcons, hrun, hposition]
      change { h with fds := (h.fds.set fd _).set fd _ } = _
      rw [DescriptorTable.set_set]

end Reads

section Writes

theorem writeStart_splice (hlen : bytes.length < UInt64.size) (position : UInt64) (append : Bool)
    (data : Bytes) :
    writeStart (splice bytes (writeStart bytes position append).toNat data)
        (UInt64.ofNat ((writeStart bytes position append).toNat + data.length)) append =
      UInt64.ofNat ((writeStart bytes position append).toNat + data.length) := by
  cases append with
  | false => rfl
  | true =>
    have hend : (writeStart bytes position true).toNat = bytes.length :=
      UInt64.toNat_ofNat_of_lt' hlen
    have hlength := length_splice bytes (writeStart bytes position true).toNat data
    rw [growth, hend] at hlength
    change UInt64.ofNat (splice bytes (writeStart bytes position true).toNat data).length = _
    rw [hend, hlength]
    congr 1
    omega

def wrote (h : Host) (fd : Fd) (i : Nat) (path : List String) (append : Bool) (bytes : Bytes)
    (start : Nat) (data : Bytes) : Host :=
  { h.refile i path (splice bytes start data)
      (h.fileBudget - UInt64.ofNat (growth bytes start data)) with
    fds := h.fds.set fd (.file i path (UInt64.ofNat (start + data.length)) append) }

theorem step_fdWrite_eq (hlen : bytes.length < UInt64.size)
    (hb : h.nodeAt? i path = some (.file bytes))
    (hd : h.fds.get? fd = some (.file i path position append))
    (hfits : WriteFits bytes (writeStart bytes position append) data h.fileBudget)
    (hholds : WriteHolds bytes (writeStart bytes position append) data) :
    h.step (.fdWrite fd data) = (.ok (.count data.length),
      h.wrote fd i path append bytes (writeStart bytes position append).toNat data) := by
  have hwrite := fdWrite_of_writeAt hb hd (writeAt_of_fits hlen hfits hholds)
  rw [wrote, UInt64.ofNat_add, UInt64.ofNat_toNat]
  exact step_of_perform (HostM.map_eq_ok.mpr ⟨_, hwrite, rfl⟩)

theorem setFile_setFile (hv : h.mounts.Valid) (hb : h.nodeAt? i path = some (.file bytes))
    (hfirst : first.length < UInt64.size) (hrest : rest.length < UInt64.size) :
    (h.setFile i path first).setFile i path rest = h.setFile i path rest := by
  have hmiddle := nodeAt?_setFile hb first
  have hmounts : ((h.setFile i path first).setFile i path rest).mounts =
      (h.setFile i path rest).mounts := by
    refine mounts_eq_of_kinds (valid_setFile hv hb hrest)
      (valid_setFile (valid_setFile hv hb hfirst) hmiddle hrest) ?_ fun j qs => ?_
    · exact ((MountTable.names_modifyAt ..).trans (MountTable.names_modifyAt ..)).trans
        (MountTable.names_modifyAt ..).symm
    · by_cases hplace : (i, path) = (j, qs)
      · obtain ⟨rfl, rfl⟩ := Prod.mk.inj hplace
        rw [kindAt?, nodeAt?_setFile hmiddle rest, kindAt?, nodeAt?_setFile hb rest]
      · rw [kindAt?_setFile_of_ne hmiddle hplace, kindAt?_setFile_of_ne hb hplace,
          kindAt?_setFile_of_ne hb hplace]
  change { h with mounts := ((h.setFile i path first).setFile i path rest).mounts } = _
  rw [hmounts]
  rfl

theorem wrote_wrote (hv : h.mounts.Valid) (hb : h.nodeAt? i path = some (.file bytes))
    (hfirst : (splice bytes start first).length < UInt64.size)
    (hrest : (splice bytes start (first ++ rest)).length < UInt64.size) :
    (h.wrote fd i path append bytes start first).wrote fd i path append
        (splice bytes start first) (start + first.length) rest =
      h.wrote fd i path append bytes start (first ++ rest) := by
  have hfile := setFile_setFile hv hb hfirst hrest
  have hbudget : h.fileBudget - UInt64.ofNat (growth bytes start first) -
      UInt64.ofNat (growth (splice bytes start first) (start + first.length) rest) =
        h.fileBudget - UInt64.ofNat (growth bytes start (first ++ rest)) := by
    rw [← growth_append, UInt64.ofNat_add]
    simp only [UInt64.sub_eq_add_neg, UInt64.neg_add, UInt64.add_assoc]
  have hposition : start + first.length + rest.length = start + (first ++ rest).length := by
    rw [List.length_append, Nat.add_assoc]
  have hmounts := congrArg Host.mounts hfile
  unfold wrote
  rw [splice_append, hposition]
  change { h with
    mounts := ((h.setFile i path _).setFile i path _).mounts
    fds := (h.fds.set fd _).set fd _
    fileBudget := h.fileBudget - _ - _ } = _
  rw [hmounts, hbudget, DescriptorTable.set_set]
  rfl

theorem step_fdWrite_append (hv : h.mounts.Valid)
    (hd : h.fds.get? fd = some (.file i path position append))
    (hs : h.step (.fdWrite fd (first ++ rest)) = (.ok r, h')) :
    ∃ h₁ position', h.step (.fdWrite fd first) = (.ok (.count first.length), h₁) ∧
      h₁.mounts.Valid ∧ h₁.fds.get? fd = some (.file i path position' append) ∧
      h₁.step (.fdWrite fd rest) = (.ok (.count rest.length), h') := by
  have heff := effect_of_step hs
  obtain ⟨bytes, hb⟩ : ∃ bytes, h.nodeAt? i path = some (.file bytes) := by
    cases heff with
    | look hc => cases hc
    | output hd' => cases hd.symm.trans hd'
    | write hd' hb =>
      cases hd.symm.trans hd'
      exact ⟨_, hb⟩
  have hlen := length_lt_of_nodeAt? hv hb
  let begin := writeStart bytes position append
  obtain ⟨hfits, hholds⟩ : WriteFits bytes begin (first ++ rest) h.fileBudget ∧
      WriteHolds bytes begin (first ++ rest) :=
    (writes_fdWrite hb hlen hd (first ++ rest)).succeeds_iff.mp ⟨r, h', hs⟩
  have hwhole := step_fdWrite_eq hlen hb hd hfits hholds
  have hend : begin.toNat + first.length + rest.length < UInt64.size := by
    have hend := hfits.1
    rw [List.length_append] at hend
    omega
  have hgrowth := growth_append bytes begin.toNat first rest
  have hroom : growth bytes begin.toNat (first ++ rest) ≤ h.fileBudget.toNat := hfits.2
  have hfirst : WriteFits bytes begin first h.fileBudget := ⟨by omega, by omega⟩
  let written := splice bytes begin.toNat first
  let h₁ := h.wrote fd i path append bytes begin.toNat first
  have hstep : h.step (.fdWrite fd first) = (.ok (.count first.length), h₁) :=
    step_fdWrite_eq hlen hb hd hfirst hholds.of_append
  have hlength {data : Bytes} (hdata : WriteFits bytes begin data h.fileBudget) :
      (splice bytes begin.toNat data).length < UInt64.size := by
    have hdata := hdata.1
    rw [length_splice, growth]
    omega
  have hv₁ : h₁.mounts.Valid := valid_setFile hv hb (hlength hfirst)
  have hb₁ : h₁.nodeAt? i path = some (.file written) := nodeAt?_setFile hb written
  have hd₁ : h₁.fds.get? fd =
      some (.file i path (UInt64.ofNat (begin.toNat + first.length)) append) := by
    change (h.fds.set fd _).get? fd = _
    rw [DescriptorTable.get?_set, if_pos rfl]
  refine ⟨h₁, _, hstep, hv₁, hd₁, ?_⟩
  have hstart := writeStart_splice hlen position append first
  have hnext : (UInt64.ofNat (begin.toNat + first.length)).toNat = begin.toNat + first.length :=
    UInt64.toNat_ofNat_of_lt' (by omega)
  have hrest : WriteFits written
      (writeStart written (UInt64.ofNat (begin.toNat + first.length)) append) rest
      h₁.fileBudget := by
    rw [hstart, WriteFits, hnext]
    refine ⟨hend, ?_⟩
    change growth (splice bytes begin.toNat first) (begin.toNat + first.length) rest ≤
      (h.fileBudget - UInt64.ofNat (growth bytes begin.toNat first)).toNat
    rw [toNat_sub_ofNat hfirst.2]
    omega
  have hheld : WriteHolds written
      (writeStart written (UInt64.ofNat (begin.toNat + first.length)) append) rest := by
    rw [hstart, WriteHolds, hnext]
    obtain hnone | hshort := hholds
    · exact .inl (Nat.eq_zero_of_add_eq_zero_left (hgrowth.trans hnone))
    · rw [List.length_append, ← Nat.add_assoc] at hshort
      exact .inr hshort
  rw [step_fdWrite_eq (hlength hfirst) hb₁ hd₁ hrest hheld, hstart, hnext,
    wrote_wrote hv hb (hlength hfirst) (hlength hfits)]
  exact congrArg _ (congrArg Prod.snd (hwhole.symm.trans hs))

theorem run_writes (hv : h.mounts.Valid)
    (hd : h.fds.get? fd = some (.file i path position append)) (pieces : List Bytes)
    (hs : h.step (.fdWrite fd (first ++ pieces.flatten)) = (.ok r, h')) :
    h.answers ((first :: pieces).map (.fdWrite fd)) =
        (first :: pieces).map (fun piece => .ok (.count piece.length)) ∧
      h.runCalls ((first :: pieces).map (.fdWrite fd)) = h' := by
  induction pieces generalizing h first position r with
  | nil =>
    obtain ⟨h₁, _, hfirst, -⟩ := step_fdWrite_append hv hd hs
    rw [List.flatten_nil, List.append_nil] at hs
    cases hfirst.symm.trans hs
    have hanswer : h.answers [.fdWrite fd first] = [(h.step (.fdWrite fd first)).1] := rfl
    have hrun : h.runCalls [.fdWrite fd first] = (h.step (.fdWrite fd first)).2 := rfl
    exact ⟨hanswer.trans (by rw [hs]; rfl), hrun.trans (by rw [hs])⟩
  | cons second pieces ih =>
    obtain ⟨h₁, position', hfirst, hv₁, hd₁, hrest⟩ := step_fdWrite_append hv hd hs
    obtain ⟨hanswers, hrun⟩ := ih hv₁ hd₁ hrest
    have hcons : h.answers ((first :: second :: pieces).map (.fdWrite fd)) =
        (h.step (.fdWrite fd first)).1 ::
          (h.step (.fdWrite fd first)).2.answers ((second :: pieces).map (.fdWrite fd)) := rfl
    refine ⟨?_, ?_⟩
    · rw [hcons, hfirst, hanswers]
      rfl
    · change (h.step (.fdWrite fd first)).2.runCalls ((second :: pieces).map (.fdWrite fd)) = h'
      rw [hfirst]
      exact hrun

end Writes

/-- After any calls on a fresh host, for every descriptor of a file: reads of any sizes give in turn
what is left of the file from the position on, up to the sum of the sizes, and move the position by
what they gave. Pieces written in turn leave the state that one write of all of them leaves, if that
succeeds: at the position, behind the end of the file, and at its end where writes append. -/
theorem runCalls_fresh_streams (args env : List String) {mounts : MountTable} (hv : mounts.Valid)
    (stdout stderr : Redirect) (budget : UInt64) (deadline : Deadline) (calls : List Call) :
    let h := (fresh args env mounts stdout stderr budget deadline).runCalls calls
    ∀ fd i path position append bytes, h.fds.get? fd = some (.file i path position append) →
      h.nodeAt? i path = some (.file bytes) →
        (∀ sizes : List Nat,
          let start := min position.toNat bytes.length
          let length := min sizes.sum (bytes.length - start)
          position.toNat + length < UInt64.size ∧
          (∃ parts : List Bytes,
            h.answers (sizes.map (.fdRead fd)) = parts.map (fun part => .ok (.bytes part)) ∧
            parts.flatten = (bytes.drop start).take length) ∧
          h.runCalls (sizes.map (.fdRead fd)) = { h with
            fds := h.fds.set fd
              (.file i path (UInt64.ofNat (position.toNat + length)) append) }) ∧
        ∀ pieces : List Bytes, pieces ≠ [] → ∀ r h₁,
          h.step (.fdWrite fd pieces.flatten) = (.ok r, h₁) →
            h.answers (pieces.map (.fdWrite fd)) =
              pieces.map (fun piece => .ok (.count piece.length)) ∧
            h.runCalls (pieces.map (.fdWrite fd)) = h₁ := by
  intro h fd i path position append bytes hd hb
  have hvalid : h.mounts.Valid := valid_runCalls hv calls
  have hlen := length_lt_of_nodeAt? hvalid hb
  refine ⟨fun sizes => ?_, fun pieces hne r h₁ hs => ?_⟩
  · intro start length
    obtain ⟨parts, hanswers, hparts, hrun⟩ := run_reads hlen hb hd sizes
    have hsegment : readAt bytes position sizes.sum = (bytes.drop start).take length :=
      readAt_eq_segment ..
    have hlength : (readAt bytes position sizes.sum).length = length := by
      rw [hsegment, List.length_take, List.length_drop]
      omega
    have hend : (position + UInt64.ofNat (readAt bytes position sizes.sum).length).toNat =
        position.toNat + (readAt bytes position sizes.sum).length :=
      toNat_add_length_readAt hlen sizes.sum
    rw [hlength] at hend hrun
    have hmoved : position + UInt64.ofNat length = UInt64.ofNat (position.toNat + length) := by
      rw [UInt64.ofNat_add, UInt64.ofNat_toNat]
    exact ⟨hend ▸ UInt64.toNat_lt_size _, ⟨parts, hanswers, hparts.trans hsegment⟩, hmoved ▸ hrun⟩
  · obtain ⟨first, pieces, rfl⟩ := List.exists_cons_of_ne_nil hne
    exact run_writes hvalid hd pieces hs

theorem streams_in_pieces :
    let mounts : MountTable := [⟨".", .file "a" [1, 2, 3, 4, 5] .empty⟩]
    let h := (fresh [] [] mounts .discard .discard 9 none).runCalls
      [.pathOpen 3 "a" {} false, .fdRead 4 1, .pathOpen 3 "a" {} false, .fdRead 5 9, .fdSetSize 5 3]
    mounts.Valid ∧
      (∃ parts : List Bytes,
        h.answers ([1, 0, 5].map (.fdRead 4)) = parts.map (fun part => .ok (.bytes part)) ∧
        parts.flatten = [2, 3]) ∧
      (h.runCalls ([[9], [], [8, 7]].map (.fdWrite 5))).nodeAt? 0 ["a"] =
        some (.file [1, 2, 3, 0, 0, 9, 8, 7]) := by
  intro mounts h
  have hv : mounts.Valid := MountTable.valid_file (by decide)
  have hfile : h.nodeAt? 0 ["a"] = some (.file [1, 2, 3]) := by decide +kernel
  have hread : h.fds.get? 4 = some (.file 0 ["a"] 1 false) := by decide +kernel
  have hwrite : h.fds.get? 5 = some (.file 0 ["a"] 5 false) := by decide +kernel
  have hbudget : h.fileBudget = 11 := by decide +kernel
  have hstreams := runCalls_fresh_streams [] [] hv .discard .discard 9 none
    [.pathOpen 3 "a" {} false, .fdRead 4 1, .pathOpen 3 "a" {} false, .fdRead 5 9, .fdSetSize 5 3]
  have hparts := ((hstreams 4 0 ["a"] 1 false [1, 2, 3] hread hfile).1 [1, 0, 5]).2.1
  have hwhole := writes_fdWrite hfile (by decide) hwrite [9, 8, 7]
  obtain ⟨r, h₁, hs⟩ := hwhole.succeeds_iff.mpr (hbudget ▸ by decide)
  have hpieces := (hstreams 5 0 ["a"] 5 false [1, 2, 3] hwrite hfile).2 [[9], [], [8, 7]]
    (List.cons_ne_nil _ _) r h₁ hs
  refine ⟨hv, hparts, ?_⟩
  rw [hpieces.2]
  exact (hwhole.written r h₁ hs).2.1.content

end Host

end Buildbox
