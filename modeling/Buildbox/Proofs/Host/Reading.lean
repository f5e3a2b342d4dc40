import Buildbox.Proofs.Host.Atomic

/-! Files as a guest reads them: it opens a path below a directory descriptor, and gets what stands
where the path leads to. -/

namespace Buildbox.Host

variable {h h' : Host} {fd opened : Fd} {path : String} {i : Nat} {base segments : List String}
  {bytes : Bytes} {d : Descriptor}

/-- A guest that opens the path and reads, into a buffer of any size, gets these bytes. -/
def Reads (h : Host) (fd : Fd) (path : String) (bytes : Bytes) : Prop :=
  ∃ opened h', h.step (.pathOpen fd path {} false) = (.ok (.fd opened), h') ∧
    ∀ max, (h'.step (.fdRead opened max)).1 = .ok (.bytes (bytes.take max))

section Calls

theorem effect_of_step {c : Call} {r : Reply} (hs : h.step c = (.ok r, h')) : Effect h c r h' := by
  obtain ⟨r', hr, heff⟩ | ⟨e, he, -⟩ := step_cases h c
  · rw [hs] at hr heff
    cases hr
    exact heff
  · rw [hs] at he
    cases he

theorem step_of_perform {c : Call} {r : Reply} (hok : perform c h = .ok r h') :
    h.step c = (.ok r, h') := by
  rw [step, hok]

theorem step_of_perform_error {c : Call} {e : Refusal} (herr : perform c h = .error e h') :
    h.step c = (.error e, h') := by
  rw [step, herr]

theorem step_of_read {α : Type} {c : Call} {f : Host → Except Errno α} {g : α → Reply}
    (hc : perform c = g <$> HostM.read f) :
    h.step c = (((f h).mapError .errno).map g, h) := by
  cases hf : f h with
  | ok a =>
    refine step_of_perform ?_
    rw [hc]
    exact HostM.map_eq_ok.mpr ⟨a, HostM.read_eq_ok.mpr ⟨hf, rfl⟩, rfl⟩
  | error e =>
    refine step_of_perform_error ?_
    rw [hc]
    exact HostM.map_eq_error.mpr (HostM.read_eq_error.mpr ⟨e, hf, rfl, rfl⟩)

theorem get?_allocate (h : Host) (d : Descriptor) :
    (h.allocate d).2.fds.get? (h.allocate d).1 = some d := by
  have hset : (h.allocate d).2.fds = h.fds.set (h.allocate d).1 d := rfl
  rw [hset, DescriptorTable.get?_set, if_pos rfl]

theorem step_pathOpen_file (hp : h.resolve fd path = .ok (i, segments))
    (hb : h.nodeAt? i segments = some (.file bytes)) :
    h.step (.pathOpen fd path {} false) =
      (.ok (.fd (h.allocate (.file i segments 0 false)).1),
        (h.allocate (.file i segments 0 false)).2) := by
  have hopen : pathOpen fd path {} false h =
      .ok (h.allocate (.file i segments 0 false)).1 (h.allocate (.file i segments 0 false)).2 := by
    have hfound : h.existing? i segments = .ok (some (.file bytes)) :=
      existing?_eq_ok_some.mpr hb
    unfold pathOpen
    rw [HostM.bind_eq_ok]
    refine ⟨(i, segments), h, HostM.read_eq_ok.mpr ⟨hp, rfl⟩, ?_⟩
    rw [HostM.bind_eq_ok]
    exact ⟨some (.file bytes), h, HostM.read_eq_ok.mpr ⟨hfound, rfl⟩, rfl⟩
  exact step_of_perform (HostM.map_eq_ok.mpr ⟨_, hopen, rfl⟩)

theorem step_fdRead_eq {position : UInt64} {append : Bool} {max : Nat}
    (hd : h.fds.get? fd = some (.file i segments position append))
    (hb : h.nodeAt? i segments = some (.file bytes)) :
    h.step (.fdRead fd max) = (.ok (.bytes (readAt bytes position max)),
      { h with fds := h.fds.set fd (.file i segments
          (position + UInt64.ofNat (readAt bytes position max).length) append) }) := by
  let after : Descriptor :=
    .file i segments (position + UInt64.ofNat (readAt bytes position max).length) append
  have hread : fdRead fd max h =
      .ok (readAt bytes position max) { h with fds := h.fds.set fd after } := by
    unfold fdRead
    rw [HostM.bind_eq_ok]
    refine ⟨_, h, HostM.read_eq_ok.mpr ⟨descriptor_eq_ok.mpr hd, rfl⟩, ?_⟩
    rw [HostM.bind_eq_ok]
    exact ⟨bytes, h, HostM.read_eq_ok.mpr ⟨fileBytes_eq_ok.mpr hb, rfl⟩, rfl⟩
  exact step_of_perform (HostM.map_eq_ok.mpr ⟨_, hread, rfl⟩)

theorem step_fdRead_file {position : UInt64} {append : Bool} {max : Nat}
    (hd : h.fds.get? fd = some (.file i segments position append))
    (hb : h.nodeAt? i segments = some (.file bytes)) :
    (h.step (.fdRead fd max)).1 = .ok (.bytes (readAt bytes position max)) :=
  congrArg Prod.fst (step_fdRead_eq hd hb)

theorem step_fdRead_dir {preopen : Bool} {max : Nat} {r : Reply}
    (hd : h.fds.get? fd = some (.dir i segments preopen)) :
    (h.step (.fdRead fd max)).1 ≠ .ok r := by
  intro hread
  have heff : Effect h (.fdRead fd max) r (h.step (.fdRead fd max)).2 :=
    effect_of_step (Prod.ext hread rfl)
  generalize (h.step (.fdRead fd max)).2 = h' at heff
  cases heff with
  | look hc => cases hc
  | readInput hd' => cases hd.symm.trans hd'
  | read hd' => cases hd.symm.trans hd'

end Calls

section Access

variable {ps : List String} {position : UInt64} {append : Bool}
  (hd : h.fds.get? fd = some (.file i ps position append))
include hd

theorem step_fdRead (max : Nat) : (h.step (.fdRead fd max)).1 =
    ((h.fileBytes i ps).mapError .errno).map fun bytes => .bytes (readAt bytes position max) := by
  cases hb : h.fileBytes i ps with
  | ok bytes => exact step_fdRead_file hd (fileBytes_eq_ok.mp hb)
  | error e =>
    have hread : fdRead fd max h = .error (.errno e) h := by
      unfold fdRead
      have hfd : HostM.read (·.descriptor fd) h = .ok (.file i ps position append) h :=
        HostM.read_eq_ok.mpr ⟨descriptor_eq_ok.mpr hd, rfl⟩
      have hfile : HostM.read (·.fileBytes i ps) h = .error (.errno e) h :=
        HostM.read_eq_error.mpr ⟨e, hb, rfl, rfl⟩
      exact HostM.bind_eq_error.mpr (.inr ⟨_, h, hfd, HostM.bind_eq_error.mpr (.inl hfile)⟩)
    rw [step_of_perform_error (HostM.map_eq_error.mpr hread)]
    rfl

theorem fdPread_eq (max : Nat) (offset : UInt64) : h.fdPread fd max offset =
    (h.fileBytes i ps).map fun bytes => readAt bytes offset max := by
  unfold fdPread
  rw [descriptor_eq_ok.mpr hd]
  change (h.fileBytes i ps >>= fun bytes => pure (readAt bytes offset max)) = _
  cases h.fileBytes i ps <;> rfl

theorem step_fdPread (max : Nat) (offset : UInt64) : (h.step (.fdPread fd max offset)).1 =
    ((h.fileBytes i ps).mapError .errno).map fun bytes => .bytes (readAt bytes offset max) := by
  rw [step_of_read rfl, fdPread_eq hd]
  cases h.fileBytes i ps <;> rfl

end Access

theorem eq_of_take_eq {as bs : Bytes} (h : ∀ max, as.take max = bs.take max) : as = bs := by
  have hlong := h (as.length + bs.length)
  rwa [List.take_of_length_le (Nat.le_add_right ..), List.take_of_length_le (Nat.le_add_left ..)]
    at hlong

theorem reads_iff : h.Reads fd path bytes ↔
    ∃ i segments, h.resolve fd path = .ok (i, segments) ∧
      h.nodeAt? i segments = some (.file bytes) := by
  constructor
  · rintro ⟨opened, h', hopen, hread⟩
    cases effect_of_step hopen with
    | look hc => cases hc
    | openDir hp he => exact absurd (hread 0) (step_fdRead_dir (get?_allocate h _))
    | @openFile _ _ _ _ i segments found hp he =>
      refine ⟨i, segments, hp, ?_⟩
      have hget := get?_allocate h (.file i segments 0 false)
      have hfound : found = bytes := eq_of_take_eq fun max => by
        have hgot : Except.ok (Reply.bytes (readAt found 0 max)) = .ok (.bytes (bytes.take max)) :=
          (step_fdRead_file hget he).symm.trans (hread max)
        exact Reply.bytes.inj (Except.ok.inj hgot)
      rw [← hfound]
      exact he
    | openCut hp he hx hf ht => cases ht
    | create hp hd hn hc => cases hc
  · rintro ⟨i, segments, hp, hb⟩
    exact ⟨_, _, step_pathOpen_file hp hb,
      fun max => step_fdRead_file (get?_allocate h (.file i segments 0 false)) hb⟩

instance (h : Host) (fd : Fd) (path : String) (bytes : Bytes) : Decidable (h.Reads fd path bytes) :=
  decidable_of_iff
    ((h.resolve fd path).toOption.bind (fun place => h.nodeAt? place.1 place.2) = some (.file bytes)) <| by
    rw [reads_iff]
    cases h.resolve fd path with
    | error e => exact iff_of_false nofun fun ⟨_, _, hp, _⟩ => by cases hp
    | ok place =>
      refine ⟨fun hb => ⟨place.1, place.2, rfl, hb⟩, ?_⟩
      rintro ⟨i, segments, hp, hb⟩
      cases hp
      exact hb

theorem walk_of_no_ups {parts : List String} (h : ".." ∉ parts) :
    walk base parts = .ok (base ++ parts.filter fun s => s ≠ "" ∧ s ≠ ".") := by
  induction parts generalizing base with
  | nil => rw [List.filter_nil, List.append_nil, walk]
  | cons part parts ih =>
    rw [List.mem_cons, not_or] at h
    rw [walk, List.filter_cons]
    by_cases hskip : part = "" ∨ part = "."
    · have hdrop : ¬ (part ≠ "" ∧ part ≠ ".") := fun hkeep => hskip.elim hkeep.1 hkeep.2
      rw [if_pos hskip, ih h.2]
      simp [hdrop]
    · have hkeep : part ≠ "" ∧ part ≠ "." := not_or.mp hskip
      rw [if_neg hskip, if_neg (Ne.symm h.1), ih h.2]
      simp [hkeep]

theorem walk_parts (h : ".." ∉ Path.segments path) :
    walk [] (Path.parts path) = .ok (Path.segments path) := by
  have hparts : ".." ∉ Path.parts path := fun hmem =>
    h (List.mem_filter.mpr ⟨hmem, by decide⟩)
  exact walk_of_no_ups hparts

end Buildbox.Host
