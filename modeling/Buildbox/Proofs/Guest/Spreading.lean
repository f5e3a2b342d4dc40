import Buildbox.Proofs.Guest.Buffers

/-! Data spread over buffers, and gathered from them. What is stored where is told by the array as
it stands before anything is written: the bytes go one by one to the addresses of the buffers, up
to a buffer that would have to take some and does not lie in memory. -/

namespace Buildbox.GuestMemory

variable {m m' : GuestMemory} {p array : Address} {data bs old : Bytes} {n : Nat} {as : List Nat}
  {v : IoVec} {vs : List IoVec} {count : UInt32} {e : Errno}

def storeAll (bs : Bytes) (places : List (Nat × UInt8)) : Bytes :=
  places.foldl (fun bs place => bs.set place.1 place.2) bs

def cells (array : Address) (count : UInt32) : List Nat :=
  List.range' array.toNat (8 * count.toNat)

section Stores

theorem storeAll_append (bs : Bytes) (first later : List (Nat × UInt8)) :
    storeAll bs (first ++ later) = storeAll (storeAll bs first) later :=
  List.foldl_append

theorem length_storeAll (bs : Bytes) (places : List (Nat × UInt8)) :
    (storeAll bs places).length = bs.length := by
  induction places generalizing bs with
  | nil => rfl
  | cons place rest ih => exact (ih _).trans List.length_set

theorem getElem?_storeAll {places : List (Nat × UInt8)} {a : Nat} (ha : a ∉ places.map (·.1)) :
    (storeAll bs places)[a]? = bs[a]? := by
  induction places generalizing bs with
  | nil => rfl
  | cons place rest ih =>
    rw [List.map_cons, List.mem_cons, not_or] at ha
    have hrest : (storeAll (bs.set place.1 place.2) rest)[a]? = (bs.set place.1 place.2)[a]? :=
      ih ha.2
    exact hrest.trans (List.getElem?_set_ne (Ne.symm ha.1))

theorem storeAll_between {between : Bytes} (front back : Bytes)
    (h : between.length = data.length) :
    storeAll (front ++ between ++ back) ((List.range' front.length data.length).zip data) =
      front ++ data ++ back := by
  induction data generalizing front between with
  | nil =>
    obtain rfl := List.eq_nil_of_length_eq_zero h
    rfl
  | cons b rest ih =>
    obtain ⟨old, olds, rfl⟩ := List.exists_cons_of_length_eq_add_one h
    have hset : (front ++ old :: olds ++ back).set front.length b =
        front ++ [b] ++ olds ++ back := by
      simp
    have hnext := ih (front ++ [b]) (Nat.succ.inj h)
    rw [← hset, List.length_append, List.length_singleton] at hnext
    refine Eq.trans hnext ?_
    simp

theorem contents_write_eq_storeAll (h : m.write p data = .ok m') :
    m'.contents = storeAll m.contents ((List.range' p.toNat data.length).zip data) := by
  have hin := le_size_of_write h
  rw [← length_contents] at hin
  have hfront : (m.contents.take p.toNat).length = p.toNat := List.length_take_of_le (by omega)
  have hbetween : ((m.contents.drop p.toNat).take data.length).length = data.length := by
    rw [List.length_take_of_le]
    rw [List.length_drop]
    omega
  have hsplit : m.contents.take p.toNat ++ (m.contents.drop p.toNat).take data.length ++
      m.contents.drop (p.toNat + data.length) = m.contents := by
    rw [List.append_assoc, ← List.drop_drop, List.take_append_drop, List.take_append_drop]
  have hstored := storeAll_between (m.contents.take p.toNat)
    (m.contents.drop (p.toNat + data.length)) hbetween
  rw [hsplit, hfront] at hstored
  rw [contents_write h, hstored]

end Stores

section Rooms

theorem room_zip (v : IoVec) (vs : List IoVec) (data : Bytes) :
    (room (v :: vs)).zip data =
      (List.range' v.pointer.toNat (data.take v.length.toNat).length).zip
          (data.take v.length.toNat) ++
        (room vs).zip (data.drop v.length.toNat) := by
  rw [room_cons]
  rcases Nat.le_total v.length.toNat data.length with hle | hle
  · have hlength : (data.take v.length.toNat).length = v.length.toNat :=
      List.length_take_of_le hle
    have hzip : (List.range' v.pointer.toNat v.length.toNat ++ room vs).zip
          (data.take v.length.toNat ++ data.drop v.length.toNat) =
        (List.range' v.pointer.toNat v.length.toNat).zip (data.take v.length.toNat) ++
          (room vs).zip (data.drop v.length.toNat) :=
      List.zip_append (by rw [List.length_range', hlength])
    rw [List.take_append_drop] at hzip
    rw [hlength, hzip]
  · -- The data ends within the first buffer.
    have hsplit : List.range' v.pointer.toNat v.length.toNat =
        List.range' v.pointer.toNat data.length ++
          List.range' (v.pointer.toNat + data.length) (v.length.toNat - data.length) := by
      rw [List.range'_append_1, Nat.add_sub_cancel' hle]
    have hzip : (List.range' v.pointer.toNat data.length ++
          (List.range' (v.pointer.toNat + data.length) (v.length.toNat - data.length) ++
            room vs)).zip (data ++ []) =
        (List.range' v.pointer.toNat data.length).zip data ++
          (List.range' (v.pointer.toNat + data.length) (v.length.toNat - data.length) ++
            room vs).zip [] :=
      List.zip_append List.length_range'
    rw [List.append_nil, List.zip_nil_right, List.append_nil] at hzip
    rw [List.take_of_length_le hle, List.drop_of_length_le hle, List.zip_nil_right, List.append_nil,
      hsplit, List.append_assoc, hzip]

end Rooms

section Scatter

def StopsAfter (m : GuestMemory) (n : Nat) (earlier vs : List IoVec) : Prop :=
  ∃ v later, vs = earlier ++ v :: later ∧ ¬ m.Overruns n earlier ∧ totalCapacity earlier < n ∧
    m.size < v.pointer.toNat + min v.length.toNat (n - totalCapacity earlier)

/-- What comes of spreading data over buffers. It is stored byte by byte, until the data or the
room is used up or a buffer does not lie in memory. -/
inductive Spread (m : GuestMemory) (data : Bytes) (vs : List IoVec) :
    Except Errno Nat → GuestMemory → Prop where
  | all {m' : GuestMemory} (hfits : ¬ m.Overruns data.length vs)
    (hstored : m'.contents = storeAll m.contents ((room vs).zip data)) :
    Spread m data vs (.ok (min data.length (totalCapacity vs))) m'
  | stopped {m' : GuestMemory} {earlier : List IoVec}
    (hstops : m.StopsAfter data.length earlier vs)
    (hstored : m'.contents = storeAll m.contents ((room earlier).zip data)) :
    Spread m data vs (.error .fault) m'

theorem not_overruns_zero : ¬ m.Overruns 0 vs := by
  rintro ⟨_, _, _, -, hlt, -⟩
  exact Nat.not_lt_zero _ hlt

theorem overruns_congr (hsize : m'.size = m.size) : m'.Overruns n vs ↔ m.Overruns n vs := by
  unfold Overruns
  rw [hsize]

theorem StopsAfter.cons {earlier : List IoVec} (h : m.StopsAfter (n - v.length.toNat) earlier vs)
    (hv : ¬ m.size < v.pointer.toNat + min v.length.toNat n) :
    m.StopsAfter n (v :: earlier) (v :: vs) := by
  obtain ⟨w, later, rfl, hfits, hlt, hout⟩ := h
  refine ⟨w, later, rfl, ?_, ?_, ?_⟩
  · rw [overruns_cons, not_or]
    exact ⟨fun hfirst => hv hfirst.2, hfits⟩
  · rw [totalCapacity_cons]
    omega
  · rwa [totalCapacity_cons, Nat.sub_add_eq]

theorem stored_cons {m₁ : GuestMemory} (hw : m.write v.pointer (data.take v.length.toNat) = .ok m₁)
    (h : m'.contents = storeAll m₁.contents ((room vs).zip (data.drop v.length.toNat))) :
    m'.contents = storeAll m.contents ((room (v :: vs)).zip data) := by
  rw [h, room_zip, storeAll_append, contents_write_eq_storeAll hw]

theorem spread_scatterAll (m : GuestMemory) (data : Bytes) (vs : List IoVec) :
    Spread m data vs (m.scatterAll data vs).1 (m.scatterAll data vs).2 := by
  induction vs generalizing m data with
  | nil =>
    have hdone : Spread m data [] (.ok (min data.length 0)) m := .all not_overruns_nil rfl
    rwa [Nat.min_zero] at hdone
  | cons v vs ih =>
    unfold scatterAll
    by_cases hdata : data = []
    · subst hdata
      have hdone : Spread m [] (v :: vs) (.ok (min 0 (totalCapacity (v :: vs)))) m :=
        .all not_overruns_zero (by rw [List.zip_nil_right]; rfl)
      rwa [Nat.zero_min] at hdone
    · rw [if_neg hdata]
      dsimp only
      have hpos : 0 < data.length := List.length_pos_iff.mpr hdata
      have hnow : (data.take v.length.toNat).length = min v.length.toNat data.length :=
        List.length_take
      cases hw : m.write v.pointer (data.take v.length.toNat) with
      | error e =>
        obtain ⟨hout, rfl⟩ := write_eq_error.mp hw
        rw [hnow] at hout
        exact .stopped ⟨v, vs, rfl, not_overruns_nil, hpos, hout⟩ rfl
      | ok m₁ =>
        have hin := le_size_of_write hw
        rw [hnow, ← Nat.not_lt] at hin
        have hsize : m₁.size = m.size := size_write hw
        have hrest := ih m₁ (data.drop v.length.toNat)
        dsimp only
        generalize m₁.scatterAll (data.drop v.length.toNat) vs = r at hrest ⊢
        obtain ⟨answer, m₂⟩ := r
        cases hrest with
        | all hfits hstored =>
          rw [overruns_congr hsize, List.length_drop] at hfits
          have hall : ¬ m.Overruns data.length (v :: vs) := by
            rw [overruns_cons, not_or]
            exact ⟨fun hfirst => hin hfirst.2, hfits⟩
          have hcount : (data.take v.length.toNat).length +
              min (data.drop v.length.toNat).length (totalCapacity vs) =
                min data.length (totalCapacity (v :: vs)) := by
            rw [hnow, List.length_drop, totalCapacity_cons]
            omega
          dsimp only
          rw [hcount]
          exact .all hall (stored_cons hw hstored)
        | stopped hstops hstored =>
          unfold StopsAfter at hstops
          simp only [overruns_congr hsize, hsize, List.length_drop] at hstops
          exact .stopped (StopsAfter.cons hstops hin) (stored_cons hw hstored)

end Scatter

section Untouched

theorem sameBut_of_stored (h : m'.contents = storeAll m.contents ((room vs).zip bs)) :
    m'.SameBut m (room vs) := by
  intro a ha
  rw [h]
  refine getElem?_storeAll fun hmem => ?_
  obtain ⟨place, hplace, rfl⟩ := List.mem_map.mp hmem
  exact ha (List.of_mem_zip hplace).1

theorem size_of_stored {places : List (Nat × UInt8)}
    (h : m'.contents = storeAll m.contents places) :
    m'.size = m.size := by
  rw [← length_contents, h, length_storeAll, length_contents]

theorem StopsAfter.room_subset {earlier : List IoVec} (h : m.StopsAfter n earlier vs) :
    ∀ a ∈ room earlier, a ∈ room vs := by
  obtain ⟨v, later, rfl, -⟩ := h
  intro a ha
  rw [room, List.flatMap_append]
  exact List.mem_append_left _ ha

theorem Spread.sameBut {answer : Except Errno Nat} (h : Spread m data vs answer m') :
    m'.SameBut m (room vs) := by
  cases h with
  | all hfits hstored => exact sameBut_of_stored hstored
  | stopped hstops hstored => exact (sameBut_of_stored hstored).mono hstops.room_subset

theorem Spread.size {answer : Except Errno Nat} (h : Spread m data vs answer m') :
    m'.size = m.size := by
  cases h with
  | all hfits hstored => exact size_of_stored hstored
  | stopped hstops hstored => exact size_of_stored hstored

theorem slice_congr (hsize : m'.size = m.size)
    (h : ∀ a ∈ List.range' p.toNat n, m'.contents[a]? = m.contents[a]?) :
    m'.slice p n = m.slice p n := by
  rcases Nat.lt_or_ge m.size (p.toNat + n) with hout | hin
  · rw [slice_eq_fault_iff.mpr hout, slice_eq_fault_iff.mpr (hsize ▸ hout)]
  · rw [slice_eq hin, slice_eq (hsize ▸ hin)]
    congr 1
    refine List.ext_getElem? fun i => ?_
    rw [List.getElem?_take, List.getElem?_take]
    split
    · next hi =>
      rw [List.getElem?_drop, List.getElem?_drop]
      exact h _ (List.mem_range'_1.mpr ⟨Nat.le_add_right .., Nat.add_lt_add_left hi _⟩)
    · rfl

theorem iovecsFrom_congr (hsize : m'.size = m.size) (i k : Nat)
    (h : ∀ a ∈ List.range' (array.toNat + 8 * i) (8 * k), m'.contents[a]? = m.contents[a]?) :
    m'.iovecsFrom array i k = m.iovecsFrom array i k := by
  induction k generalizing i with
  | zero => rfl
  | succ k ih =>
    have hcell {q : Address} (hq : array.toNat + 8 * i ≤ q.toNat)
        (hq' : q.toNat + 4 ≤ array.toNat + 8 * (i + 1)) : m'.readNat q 4 = m.readNat q 4 := by
      have hslice : m'.slice q 4 = m.slice q 4 := slice_congr hsize fun a ha => by
        rw [List.mem_range'_1] at ha
        exact h a (List.mem_range'_1.mpr (by omega))
      rw [readNat, readNat, hslice]
    have hrest : m'.iovecsFrom array (i + 1) k = m.iovecsFrom array (i + 1) k :=
      ih (i + 1) fun a ha => by
        rw [List.mem_range'_1] at ha
        exact h a (List.mem_range'_1.mpr (by omega))
    unfold iovecsFrom
    cases hp : array.add? (8 * i) with
    | error e => rfl
    | ok pointerAt =>
      have hpointer := add?_eq_ok hp
      cases hl : pointerAt.add? 4 with
      | error e =>
        simp only [bind, Except.bind]
        rw [hl]
      | ok lengthAt =>
        have hlength := add?_eq_ok hl
        simp only [bind, Except.bind]
        rw [hl]
        simp only
        rw [hcell (q := pointerAt) (by omega) (by omega),
          hcell (q := lengthAt) (by omega) (by omega), hrest]

theorem exists_iovecsFrom (hm : m.size ≤ UInt32.size) (i k : Nat)
    (hin : 0 < k → array.toNat + 8 * (i + k) ≤ m.size) :
    ∃ vs, m.iovecsFrom array i k = .ok vs := by
  induction k generalizing i with
  | zero => exact ⟨[], rfl⟩
  | succ k ih =>
    have hlast := hin (Nat.succ_pos k)
    have hread {q : Address} (hq : q.toNat + 4 ≤ m.size) : ∃ n, m.readNat q 4 = .ok n := by
      rw [readNat, slice_eq hq]
      exact ⟨_, rfl⟩
    obtain ⟨pointerAt, hp, hpointer⟩ := exists_add? (a := array) (n := 8 * i) (by omega)
    obtain ⟨lengthAt, hl, hlength⟩ := exists_add? (a := pointerAt) (n := 4) (by omega)
    obtain ⟨pointer, hpointer'⟩ := hread (q := pointerAt) (by omega)
    obtain ⟨length, hlength'⟩ := hread (q := lengthAt) (by omega)
    obtain ⟨rest, hrest⟩ := ih (i + 1) fun _ => by omega
    refine ⟨⟨UInt32.ofNat pointer, UInt32.ofNat length⟩ :: rest, ?_⟩
    unfold iovecsFrom
    simp only [bind, Except.bind, pure, Except.pure, hp, hl, hpointer', hlength', hrest]

end Untouched

section Gather

theorem Holds.unique (h : m.Holds as bs) (h' : m.Holds as data) : bs = data :=
  (List.map_inj_right fun _ _ => Option.some.inj).mp (h.symm.trans h')

theorem exists_gatherAll (hin : ∀ v ∈ vs, v.pointer.toNat + v.length.toNat ≤ m.size) :
    ∃ old, m.gatherAll vs = .ok old ∧ m.Holds (room vs) old := by
  induction vs with
  | nil => exact ⟨[], rfl, rfl⟩
  | cons v vs ih =>
    obtain ⟨hv, hvs⟩ := List.forall_mem_cons.mp hin
    obtain ⟨rest, hgather, hholds⟩ := ih hvs
    let part := (m.contents.drop v.pointer.toNat).take v.length.toNat
    have hslice : m.slice v.pointer v.length.toNat = .ok part := slice_eq hv
    have hlength : part.length = v.length.toNat := by
      rw [List.length_take_of_le]
      rw [List.length_drop, length_contents]
      omega
    have hpart : m.Holds (List.range' v.pointer.toNat part.length) part := by
      rw [holds_range' (by rwa [hlength]), hlength]
    rw [hlength] at hpart
    refine ⟨part ++ rest, ?_, ?_⟩
    · rw [gatherAll, hslice, hgather]
      rfl
    · rw [room_cons]
      exact hpart.append hholds

theorem gatherAll_of_holds (hin : ∀ v ∈ vs, v.pointer.toNat + v.length.toNat ≤ m.size)
    (h : m.Holds (room vs) bs) : m.gatherAll vs = .ok bs := by
  obtain ⟨old, hgather, hholds⟩ := exists_gatherAll hin
  rw [hgather, hholds.unique h]

theorem Holds.filled (h : m.Holds as old) (hn : as.Nodup) {k : Nat}
    (hsame : m'.SameBut m (as.take k)) (hfilled : m'.Holds (as.take k) bs) :
    m'.Holds as (bs ++ old.drop k) := by
  have hlength : as.length = old.length := by
    have hboth := congrArg List.length h
    rwa [List.length_map, List.length_map] at hboth
  have hsplit : m.Holds (as.take k ++ as.drop k) (old.take k ++ old.drop k) := by
    rwa [List.take_append_drop, List.take_append_drop]
  rw [holds_append (by rw [List.length_take, List.length_take, hlength])] at hsplit
  rw [← List.take_append_drop k as, List.nodup_append] at hn
  have hlater : m'.Holds (as.drop k) (old.drop k) :=
    hsplit.2.sameBut hsame fun a ha ha' => hn.2.2 a ha' a ha rfl
  have hwhole := hfilled.append hlater
  rwa [List.take_append_drop] at hwhole

end Gather

section Faults

def OnlyFaults {α : Type} (x : Except Errno α) : Prop :=
  ∀ e, x = .error e → e = .fault

theorem OnlyFaults.bind {α γ : Type} {x : Except Errno α} {f : α → Except Errno γ}
    (hx : OnlyFaults x) (hf : ∀ a, OnlyFaults (f a)) : OnlyFaults (x >>= f) := by
  intro e he
  cases x with
  | error e' =>
    cases he
    exact hx _ rfl
  | ok a => exact hf a e he

theorem onlyFaults_ok {α : Type} (a : α) : OnlyFaults (.ok a) :=
  fun _ he => nomatch he

theorem onlyFaults_add? (a : Address) (n : Nat) : OnlyFaults (a.add? n) := by
  intro e he
  unfold Address.add? at he
  split at he
  · cases he
  · exact (Except.error.inj he).symm

theorem onlyFaults_slice (m : GuestMemory) (p : Address) (n : Nat) : OnlyFaults (m.slice p n) := by
  intro e he
  rcases Nat.lt_or_ge m.size (p.toNat + n) with hout | hin
  · rw [slice_eq_fault_iff.mpr hout] at he
    exact (Except.error.inj he).symm
  · rw [slice_eq hin] at he
    cases he

theorem onlyFaults_readNat (m : GuestMemory) (p : Address) (k : Nat) : OnlyFaults (m.readNat p k) :=
  (onlyFaults_slice m p k).bind fun _ => onlyFaults_ok _

theorem onlyFaults_iovecsFrom (m : GuestMemory) (array : Address) (i k : Nat) :
    OnlyFaults (m.iovecsFrom array i k) := by
  induction k generalizing i with
  | zero => exact onlyFaults_ok []
  | succ k ih =>
    exact (onlyFaults_add? _ _).bind fun _ => (onlyFaults_add? _ _).bind fun _ =>
      (onlyFaults_readNat m _ _).bind fun _ => (onlyFaults_readNat m _ _).bind fun _ =>
        (ih _).bind fun _ => onlyFaults_ok _

theorem onlyFaults_gatherAll (m : GuestMemory) (vs : List IoVec) : OnlyFaults (m.gatherAll vs) := by
  induction vs with
  | nil => exact onlyFaults_ok []
  | cons v vs ih => exact (onlyFaults_slice m _ _).bind fun _ => ih.bind fun _ => onlyFaults_ok _

theorem onlyFaults_iovecs (m : GuestMemory) (array : Address) (count : UInt32) :
    OnlyFaults (m.iovecs array count) :=
  onlyFaults_iovecsFrom m array 0 _

theorem onlyFaults_gather (m : GuestMemory) (array : Address) (count : UInt32) :
    OnlyFaults (m.gather array count) :=
  (onlyFaults_iovecs m array count).bind fun vs => onlyFaults_gatherAll m vs

end Faults

section Whole

theorem scatter_of_iovecs (hvs : m.iovecs array count = .ok vs) (data : Bytes) :
    m.scatter array count data = m.scatterAll data vs := by
  rw [scatter, hvs]

theorem gather_of_iovecs (hvs : m.iovecs array count = .ok vs) :
    m.gather array count = m.gatherAll vs := by
  rw [gather, hvs]
  rfl

theorem onlyFaults_scatter (m : GuestMemory) (array : Address) (count : UInt32) (data : Bytes) :
    OnlyFaults (m.scatter array count data).1 := by
  intro e he
  cases hvs : m.iovecs array count with
  | error =>
    rw [scatter, hvs] at he
    cases he
    exact onlyFaults_iovecs m array count _ hvs
  | ok vs =>
    rw [scatter_of_iovecs hvs] at he
    exact (((scatterAll_spec m data vs).2 e).mp he).2

/-- Data that is spread over buffers is gathered from them again. If the buffers lie in memory and
share no address with each other or with the array that lists them, as much is stored as there is
room for, nothing else of the memory changes, and behind the data the buffers hold what they held.
An array can be read if it lies in memory.
Whatever the array is, it counts as it stands before anything is written: so it tells what is
stored where, and only buffers that it lists change, whether all goes well or not. Nothing fails
but for want of memory. -/
theorem scattered_then_gathered (m : GuestMemory) (array : Address) (count : UInt32)
    (data : Bytes) :
    (m.size ≤ UInt32.size → count = 0 ∨ array.toNat + 8 * count.toNat ≤ m.size →
      ∃ vs, m.iovecs array count = .ok vs) ∧
    (∀ vs, m.iovecs array count = .ok vs →
      (∀ v ∈ vs, v.pointer.toNat + v.length.toNat ≤ m.size) →
      (room vs ++ cells array count).Nodup →
        ∃ n old m', m.capacity array count = .ok (totalCapacity vs) ∧
          n = min data.length (totalCapacity vs) ∧ m.gather array count = .ok old ∧
          m.scatter array count data = (.ok n, m') ∧
          m'.gather array count = .ok (data.take n ++ old.drop n) ∧
          m'.SameBut m ((room vs).take n) ∧ m'.size = m.size) ∧
    (∀ e, m.iovecs array count = .error e → m.scatter array count data = (.error e, m)) ∧
    (∀ vs answer m', m.iovecs array count = .ok vs →
      m.scatter array count data = (answer, m') →
        Spread m data vs answer m' ∧ m'.SameBut m (room vs) ∧ m'.size = m.size) ∧
    OnlyFaults (m.iovecs array count) ∧ OnlyFaults (m.gather array count) ∧
      OnlyFaults (m.scatter array count data).1 := by
  have hspread (vs answer m') (hvs : m.iovecs array count = .ok vs)
      (hs : m.scatter array count data = (answer, m')) : Spread m data vs answer m' := by
    have hall := spread_scatterAll m data vs
    rw [← scatter_of_iovecs hvs, hs] at hall
    exact hall
  refine ⟨?listed, ?back, fun e he => ?_, fun vs answer m' hvs hs => ?_,
    onlyFaults_iovecs m array count, onlyFaults_gather m array count,
    onlyFaults_scatter m array count data⟩
  case listed =>
    intro hm hin
    refine exists_iovecsFrom hm 0 _ fun hpos => ?_
    rw [Nat.zero_add]
    refine hin.resolve_left fun hzero => ?_
    rw [hzero] at hpos
    exact Nat.not_lt_zero _ hpos
  case back =>
    intro vs hvs hin hapart
    obtain ⟨hroom, -, hcells⟩ := List.nodup_append.mp hapart
    obtain ⟨old, hgather, hold⟩ := exists_gatherAll hin
    cases hs : m.scatter array count data with
    | mk answer m' =>
      have hall := hspread vs answer m' hvs hs
      have hsize := hall.size
      have hlisted : m'.iovecs array count = .ok vs := by
        rw [← hvs]
        refine iovecsFrom_congr hsize 0 _ fun a ha => hall.sameBut a fun hmem => ?_
        exact hcells a hmem a ha rfl
      cases hall with
      | stopped hstops _ =>
        obtain ⟨v, later, rfl, -, -, hout⟩ := hstops
        have hv := hin v (List.mem_append_right _ List.mem_cons_self)
        omega
      | all _ _ =>
        obtain ⟨-, hfilled, hsame⟩ :=
          scatterAll_fills ((scatter_of_iovecs hvs data).symm.trans hs) hroom
        refine ⟨_, old, m', capacity_eq_ok.mpr ⟨vs, hvs, rfl⟩, rfl, ?_, rfl, ?_, hsame, hsize⟩
        · rw [gather_of_iovecs hvs, hgather]
        · rw [gather_of_iovecs hlisted]
          exact gatherAll_of_holds (hsize ▸ hin) (hold.filled hroom hsame hfilled)
  · rw [scatter, he]
  · have hall := hspread vs answer m' hvs hs
    exact ⟨hall, hall.sameBut, hall.size⟩

def withFourBuffers : GuestMemory where
  bytes := [40, 0, 0, 0, 0, 0, 0, 0, 32, 0, 0, 0, 2, 0, 0, 0, 36, 0, 0, 0, 3, 0, 0, 0,
    44, 0, 0, 0, 2, 0, 0, 0, 10, 11, 12, 13, 14, 15, 16, 17, 18, 19, 20, 21, 22, 23, 24, 25]

def withBufferOverArray : GuestMemory where
  bytes := [8, 0, 0, 0, 8, 0, 0, 0, 24, 0, 0, 0, 2, 0, 0, 0]
  untouched := 16

theorem scattered_then_gathered_in_part :
    (∃ m', withFourBuffers.scatter 0 4 [1, 2, 3] = (.ok 3, m') ∧
      m'.gather 0 4 = .ok [1, 2, 3, 15, 16, 22, 23] ∧ m'.SameBut withFourBuffers [32, 33, 36]) ∧
    ∃ m', Spread withBufferOverArray [0, 0, 0, 0, 1, 0, 0, 0, 5, 6] [⟨8, 8⟩, ⟨24, 2⟩] (.ok 10) m' ∧
      m'.contents.drop 8 =
        [0, 0, 0, 0, 1, 0, 0, 0, 0, 0, 0, 0, 0, 0, 0, 0, 5, 6, 0, 0, 0, 0, 0, 0] := by
  have hvs : withFourBuffers.iovecs 0 4 = .ok [⟨40, 0⟩, ⟨32, 2⟩, ⟨36, 3⟩, ⟨44, 2⟩] := by
    decide +kernel
  have hold : withFourBuffers.gather 0 4 = .ok [10, 11, 14, 15, 16, 22, 23] := by decide +kernel
  obtain ⟨-, hback, -⟩ := scattered_then_gathered withFourBuffers 0 4 [1, 2, 3]
  obtain ⟨n, old, m', -, hn, hold', hs, hgather, hsame, -⟩ :=
    hback _ hvs (by decide +kernel) (by decide +kernel)
  obtain rfl : n = 3 := hn
  cases hold.symm.trans hold'
  refine ⟨⟨m', hs, hgather, hsame⟩, ?_⟩
  have hvs : withBufferOverArray.iovecs 0 2 = .ok [⟨8, 8⟩, ⟨24, 2⟩] := by decide +kernel
  obtain ⟨-, -, -, hany, -⟩ :=
    scattered_then_gathered withBufferOverArray 0 2 [0, 0, 0, 0, 1, 0, 0, 0, 5, 6]
  have hanswer : (withBufferOverArray.scatter 0 2 [0, 0, 0, 0, 1, 0, 0, 0, 5, 6]).1 = .ok 10 := by
    decide +kernel
  exact ⟨_, (hany _ _ _ hvs (Prod.ext hanswer rfl)).1, by decide +kernel⟩

end Whole

end Buildbox.GuestMemory
