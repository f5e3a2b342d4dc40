import Buildbox.Proofs.Guest.Faults
import Buildbox.Proofs.Guest.Slices
import Buildbox.Proofs.Host.Opened
import Buildbox.Proofs.Host.Streaming
import Buildbox.Proofs.Lists
import Mathlib.Data.List.Perm.Subperm

/-! Buffers that a guest gives to be filled. What is read from a file stands in them, one after the
other, and nothing else of the memory changes but the word that tells how much it is. -/

namespace Buildbox

namespace GuestMemory

variable {m m' m'' : GuestMemory} {p array nread : Address} {data bs cs : Bytes} {n : Nat}
  {as as' : List Nat} {v : IoVec} {vs : List IoVec} {count : UInt32}

def room (vs : List IoVec) : List Nat :=
  vs.flatMap fun v => List.range' v.pointer.toNat v.length.toNat

section Rooms

theorem room_cons (v : IoVec) (vs : List IoVec) :
    room (v :: vs) = List.range' v.pointer.toNat v.length.toNat ++ room vs :=
  List.flatMap_cons

theorem take_range'_append {start length now k : Nat} {more : List Nat} (hle : now ≤ length)
    (hk : now = length ∨ k = 0) :
    (List.range' start length ++ more).take (now + k) =
      List.range' start now ++ more.take k := by
  rcases hk with rfl | rfl
  · have htake : (List.range' start now ++ more).take ((List.range' start now).length + k) =
        List.range' start now ++ more.take k := List.take_length_add_append k
    rwa [List.length_range'] at htake
  · have hsplit : List.range' start length =
        List.range' start now ++ List.range' (start + now) (length - now) := by
      rw [List.range'_append_1, Nat.add_sub_cancel' hle]
    rw [hsplit, List.append_assoc, Nat.add_zero, List.take_zero, List.append_nil]
    exact List.take_left' List.length_range'

theorem scatterAll_fills (hs : m.scatterAll data vs = (.ok n, m')) (hvs : (room vs).Nodup) :
    n = min (totalCapacity vs) data.length ∧ m'.Holds ((room vs).take n) (data.take n) ∧
      m'.SameBut m ((room vs).take n) := by
  induction vs generalizing m data n with
  | nil =>
    cases hs
    exact ⟨(Nat.zero_min _).symm, rfl, fun _ _ => rfl⟩
  | cons v vs ih =>
    unfold scatterAll at hs
    split at hs
    · next hdata =>
      cases hs
      subst hdata
      exact ⟨(Nat.min_zero _).symm, rfl, fun _ _ => rfl⟩
    dsimp only at hs
    cases hw : m.write v.pointer (data.take v.length.toNat) with
    | error e =>
      rw [hw] at hs
      cases hs
    | ok m₁ =>
      rw [hw] at hs
      dsimp only at hs
      cases hrest : m₁.scatterAll (data.drop v.length.toNat) vs with
      | mk answer m₂ =>
        rw [hrest] at hs
        cases answer with
        | error e => cases hs
        | ok k =>
          cases hs
          rw [room_cons, List.nodup_append] at hvs
          obtain ⟨hk, hholds, hsame⟩ := ih hrest hvs.2.1
          -- Either this buffer is full, or nothing is left for the others.
          have hnow : (data.take v.length.toNat).length = min v.length.toNat data.length :=
            List.length_take
          have htaken : (room (v :: vs)).take ((data.take v.length.toNat).length + k) =
              List.range' v.pointer.toNat (data.take v.length.toNat).length ++
                (room vs).take k := by
            rw [List.length_drop] at hk
            rw [room_cons, hnow]
            exact take_range'_append (by omega) (by omega)
          have hdata : data.take ((data.take v.length.toNat).length + k) =
              data.take v.length.toNat ++ (data.drop v.length.toNat).take k := by
            rw [← List.take_length_add_append k, List.take_append_drop]
          have hapart : ∀ a ∈ List.range' v.pointer.toNat (data.take v.length.toNat).length,
              a ∉ (room vs).take k := fun a ha ha' => by
            rw [List.mem_range'_1, hnow] at ha
            exact hvs.2.2 a (List.mem_range'_1.mpr (by omega)) a (List.mem_of_mem_take ha') rfl
          refine ⟨?_, ?_, ?_⟩
          · rw [totalCapacity_cons, hk, List.length_take, List.length_drop]
            omega
          · rw [htaken, hdata]
            exact ((holds_write hw).sameBut hsame hapart).append hholds
          · rw [htaken]
            exact (sameBut_write hw).trans hsame

end Rooms

section Arrays

theorem iovecsFrom_eq_ok {i k : Nat} (h : m.iovecsFrom array i k = .ok vs) :
    vs.length = k ∧ (0 < k → array.toNat + 8 * (i + k) ≤ m.size) := by
  induction k generalizing i vs with
  | zero =>
    cases h
    exact ⟨rfl, fun h => absurd h (Nat.lt_irrefl 0)⟩
  | succ k ih =>
    unfold iovecsFrom at h
    obtain ⟨pointerAt, hp, h⟩ := ok_of_bind h
    obtain ⟨lengthAt, hl, h⟩ := ok_of_bind h
    obtain ⟨pointer, -, h⟩ := ok_of_bind h
    obtain ⟨length, hread, h⟩ := ok_of_bind h
    obtain ⟨rest, hrest, h⟩ := ok_of_bind h
    cases h
    obtain ⟨hlength, hin⟩ := ih hrest
    have hlast := le_size_of_readNat hread
    rw [add?_eq_ok hl, add?_eq_ok hp] at hlast
    refine ⟨by rw [List.length_cons, hlength], fun _ => ?_⟩
    rcases Nat.eq_zero_or_pos k with rfl | hk
    · omega
    · have hmore := hin hk
      omega

theorem totalCapacity_le (vs : List IoVec) :
    totalCapacity vs ≤ vs.length * (UInt32.size - 1) := by
  induction vs with
  | nil => exact Nat.zero_le _
  | cons v vs ih =>
    have hv := v.length.toNat_lt_size
    rw [totalCapacity_cons, List.length_cons, Nat.succ_mul]
    omega

theorem capacity_lt (hm : m.size ≤ UInt32.size) (h : m.capacity array count = .ok n) :
    n < UInt64.size := by
  obtain ⟨vs, hvs, rfl⟩ := capacity_eq_ok.mp h
  obtain ⟨hlength, hin⟩ := iovecsFrom_eq_ok hvs
  have htotal := totalCapacity_le vs
  have hcount : vs.length ≤ UInt32.size / 8 := by
    have hsize : UInt32.size = 4294967296 := rfl
    omega
  have hbound := Nat.mul_le_mul_right (UInt32.size - 1) hcount
  have hword : UInt32.size / 8 * (UInt32.size - 1) < UInt64.size := by decide
  omega

end Arrays

/-- What a read leaves behind when it has filled buffers with some data. -/
structure Filled (m : GuestMemory) (vs : List IoVec) (nread : Address) (data : Bytes)
    (m' : GuestMemory) : Prop where
  holds : m'.Holds ((room vs).take data.length) data
  count : m'.readNat nread 4 = .ok data.length
  kept : m'.SameBut m ((room vs).take data.length ++ List.range' nread.toNat 4)
  size : m'.size = m.size

theorem Holds.length_lt (h : m.Holds as bs) (hp : p.toNat + 4 ≤ m.size)
    (hm : m.size ≤ UInt32.size) (hapart : (as ++ List.range' p.toNat 4).Nodup) :
    bs.length < UInt32.size := by
  have hlength : as.length = bs.length := by
    have hboth := congrArg List.length h
    rwa [List.length_map, List.length_map] at hboth
  have hin : as ++ List.range' p.toNat 4 ⊆ List.range m.size := by
    intro a ha
    rw [List.mem_range]
    rcases List.mem_append.mp ha with ha | ha
    · exact h.lt_size ha
    · rw [List.mem_range'_1] at ha
      omega
  have hle := (List.subperm_of_subset hapart hin).length_le
  rw [List.length_append, List.length_range', List.length_range] at hle
  omega

end GuestMemory

namespace GuestM

variable {s s' : GuestState} {array nread : Address} {count : UInt32} {vs : List IoVec}
  {data : Bytes} {n : Nat}

theorem scatter_eq_ok (hvs : s.memory.iovecs array count = .ok vs) :
    scatter array count data s = .ok n s' ↔
      ∃ m, s.memory.scatterAll data vs = (.ok n, m) ∧ { s with memory := m } = s' := by
  unfold scatter GuestMemory.scatter
  rw [hvs]
  dsimp only
  rcases s.memory.scatterAll data vs with ⟨k | k, m⟩ <;> simp

open GuestMemory in
theorem filled_of_scatter_put (hm : s.memory.size ≤ UInt32.size)
    (hvs : s.memory.iovecs array count = .ok vs)
    (hapart : (room vs ++ List.range' nread.toNat 4).Nodup) (hroom : data.length ≤ totalCapacity vs)
    {u : Unit} (hok : (scatter array count data >>= fun n => put nread 4 n) s = .ok u s') :
    Filled s.memory vs nread data s'.memory ∧ s'.host = s.host := by
  obtain ⟨n, s₁, hscatter, hput⟩ := HostM.bind_eq_ok.mp hok
  obtain ⟨m₁, hs, rfl⟩ := (scatter_eq_ok hvs).mp hscatter
  obtain ⟨m₂, hw, rfl⟩ := put_eq_ok.mp hput
  obtain ⟨hn, hholds, hsame⟩ := scatterAll_fills hs (List.nodup_append.mp hapart).1
  rw [Nat.min_eq_right hroom] at hn
  subst hn
  rw [List.take_length] at hholds
  have hsize : m₁.size = s.memory.size := by
    have hspec := (scatterAll_spec s.memory data vs).1
    rwa [hs] at hspec
  have hfree : ((room vs).take data.length ++ List.range' nread.toNat 4).Nodup :=
    hapart.sublist ((List.take_sublist ..).append_right _)
  have hin := le_size_of_write hw
  have hcell := sameBut_write hw
  rw [Bytes.length_ofNatLE] at hin hcell
  have hcount := hholds.length_lt hin (hsize ▸ hm) hfree
  refine ⟨⟨?_, readNat_writeNat hw hcount, hsame.trans hcell, (size_write hw).trans hsize⟩, rfl⟩
  exact hholds.sameBut hcell fun a ha ha' => (List.nodup_append.mp hfree).2.2 a ha a ha' rfl

end GuestM

namespace Import

open GuestMemory

variable {s s' : GuestState} {fd : Fd} {array nread : Address} {count : UInt32} {offset : UInt64}
  {vs : List IoVec} {i : Nat} {path : List String} {position : UInt64} {append : Bool}
  {bytes : Bytes}

theorem length_readAt_le (bytes : Bytes) (offset : UInt64) (max : Nat) :
    (readAt bytes offset max).length ≤ max := by
  rw [readAt, List.length_take]
  exact Nat.min_le_left ..

section Reads

variable (hm : s.memory.size ≤ UInt32.size)
  (hfd : s.host.fds.get? fd = some (.file i path position append))
  (hb : s.host.nodeAt? i path = some (.file bytes)) (hvs : s.memory.iovecs array count = .ok vs)
  (hapart : (room vs ++ List.range' nread.toNat 4).Nodup)
include hm hfd hb hvs hapart

theorem filled_of_fdRead (hok : (Import.fdRead fd array count nread).call s = .ok () s') :
    Filled s.memory vs nread (readAt bytes position (totalCapacity vs)) s'.memory ∧
      s'.host = { s.host with
        fds := s.host.fds.set fd (.file i path
          (position + UInt64.ofNat (readAt bytes position (totalCapacity vs)).length) append) } := by
  obtain ⟨capacity, s₁, hload, hok⟩ := HostM.bind_eq_ok.mp hok
  obtain ⟨hcapacity, rfl⟩ := GuestM.load_eq_ok.mp hload
  rw [capacity_eq_ok.mpr ⟨vs, hvs, rfl⟩] at hcapacity
  cases hcapacity
  obtain ⟨data, s₂, hhost, hok⟩ := HostM.bind_eq_ok.mp hok
  obtain ⟨h, hread, rfl⟩ := GuestM.host_eq_ok.mp hhost
  have hstep : s.host.step (.fdRead fd (totalCapacity vs)) = (.ok (.bytes data), h) :=
    (step_map_eq_ok rfl).mpr ⟨data, hread, rfl⟩
  have hfilled (hroom : data.length ≤ totalCapacity vs) :=
    GuestM.filled_of_scatter_put (s := { s with host := h }) hm hvs hapart hroom hok
  rw [Host.step_fdRead_eq hfd hb] at hstep
  cases hstep
  exact hfilled (length_readAt_le ..)

theorem filled_of_fdPread (hok : (Import.fdPread fd array count offset nread).call s = .ok () s') :
    Filled s.memory vs nread (readAt bytes offset (totalCapacity vs)) s'.memory ∧
      s'.host = s.host := by
  obtain ⟨capacity, s₁, hload, hok⟩ := HostM.bind_eq_ok.mp hok
  obtain ⟨hcapacity, rfl⟩ := GuestM.load_eq_ok.mp hload
  rw [capacity_eq_ok.mpr ⟨vs, hvs, rfl⟩] at hcapacity
  cases hcapacity
  obtain ⟨data, s₂, hhost, hok⟩ := HostM.bind_eq_ok.mp hok
  obtain ⟨h, hread, rfl⟩ := GuestM.host_eq_ok.mp hhost
  obtain ⟨hpread, rfl⟩ := HostM.read_eq_ok.mp hread
  rw [Host.fdPread_eq hfd, Host.fileBytes_eq_ok.mpr hb] at hpread
  cases hpread
  exact GuestM.filled_of_scatter_put hm hvs hapart (length_readAt_le ..) hok

end Reads

/-- A file that is read into buffers which share no address with each other or with the word for
the number of bytes: each read that goes through gives what the file holds from its start on, as
far as there is room, fills the buffers with it in their order, tells how much it is, and changes
nothing else of the memory. A read at the position moves it by just as much. -/
theorem read_fills_buffers {s : GuestState} (hm : s.memory.size ≤ UInt32.size) :
    (∀ array count n, s.memory.capacity array count = .ok n → n < UInt64.size) ∧
    ∀ fd i path position append bytes array count nread vs,
      s.host.fds.get? fd = some (.file i path position append) →
      s.host.nodeAt? i path = some (.file bytes) → bytes.length < UInt64.size →
      s.memory.iovecs array count = .ok vs → (room vs ++ List.range' nread.toNat 4).Nodup →
        s.memory.capacity array count = .ok (totalCapacity vs) ∧
        (∀ start, (readAt bytes start (totalCapacity vs)).length =
          min (totalCapacity vs) (bytes.length - min start.toNat bytes.length)) ∧
        (∀ s', GuestRun.callImport true (.fdRead fd array count nread) s = (.ok 0, s') →
          Filled s.memory vs nread (readAt bytes position (totalCapacity vs)) s'.memory ∧
          ∃ after : UInt64, after.toNat =
              position.toNat + (readAt bytes position (totalCapacity vs)).length ∧
            s'.host = { s.host with fds := s.host.fds.set fd (.file i path after append) }) ∧
        ∀ offset s',
          GuestRun.callImport true (.fdPread fd array count offset nread) s = (.ok 0, s') →
            Filled s.memory vs nread (readAt bytes offset (totalCapacity vs)) s'.memory ∧
              s'.host = s.host := by
  refine ⟨fun array count n hn => capacity_lt hm hn, ?_⟩
  intro fd i path position append bytes array count nread vs hfd hb hlen hvs hapart
  refine ⟨capacity_eq_ok.mpr ⟨vs, hvs, rfl⟩, fun start => ?_, fun s' hok => ?_,
    fun offset s' hok => filled_of_fdPread hm hfd hb hvs hapart ((callImport_eq_zero rfl).mp hok)⟩
  · rw [readAt, List.length_take, List.length_drop]
    omega
  · obtain ⟨hfilled, hhost⟩ := filled_of_fdRead hm hfd hb hvs hapart ((callImport_eq_zero rfl).mp hok)
    exact ⟨hfilled, _, toNat_add_length_readAt hlen _, hhost⟩

def withTwoBuffers : GuestState where
  memory := { bytes := [32, 0, 0, 0, 2, 0, 0, 0, 40, 0, 0, 0, 3, 0, 0, 0], untouched := 48 }
  host := (Host.fresh [] [] [⟨".", .file "a" [5, 6, 7, 8, 9] .empty⟩] .discard .discard 9
    none).runCalls [.pathOpen 3 "a" {} false, .fdRead 4 1]

theorem read_fills_two_buffers :
    (∃ s', GuestRun.callImport true (.fdRead 4 0 2 24) withTwoBuffers = (.ok 0, s') ∧
      Filled withTwoBuffers.memory [⟨32, 2⟩, ⟨40, 3⟩] 24 [6, 7, 8, 9] s'.memory) ∧
    ∃ s', GuestRun.callImport true (.fdPread 4 0 2 3 24) withTwoBuffers = (.ok 0, s') ∧
      Filled withTwoBuffers.memory [⟨32, 2⟩, ⟨40, 3⟩] 24 [8, 9] s'.memory ∧
        s'.host = withTwoBuffers.host := by
  have hm : withTwoBuffers.memory.size ≤ UInt32.size := by decide
  have hfd : withTwoBuffers.host.fds.get? 4 = some (.file 0 ["a"] 1 false) := by rfl
  have hb : withTwoBuffers.host.nodeAt? 0 ["a"] = some (.file [5, 6, 7, 8, 9]) := by rfl
  have hvs : withTwoBuffers.memory.iovecs 0 2 = .ok [⟨32, 2⟩, ⟨40, 3⟩] := by decide +kernel
  have hfour : readAt [5, 6, 7, 8, 9] 1 (totalCapacity [⟨32, 2⟩, ⟨40, 3⟩]) = [6, 7, 8, 9] := by
    decide +kernel
  have htwo : readAt [5, 6, 7, 8, 9] 3 (totalCapacity [⟨32, 2⟩, ⟨40, 3⟩]) = [8, 9] := by
    decide +kernel
  obtain ⟨-, -, hmoving, hstaying⟩ := (read_fills_buffers hm).2 4 0 ["a"] 1 false _ 0 2 24 _
    hfd hb (by decide) hvs (by decide +kernel)
  rw [hfour] at hmoving
  constructor
  · have hanswer : (GuestRun.callImport true (.fdRead 4 0 2 24) withTwoBuffers).1 = .ok 0 := by
      decide +kernel
    refine ⟨_, Prod.ext hanswer rfl, ?_⟩
    exact (hmoving _ (Prod.ext hanswer rfl)).1
  · have hanswer : (GuestRun.callImport true (.fdPread 4 0 2 3 24) withTwoBuffers).1 = .ok 0 := by
      decide +kernel
    have hstays := hstaying 3 _ (Prod.ext hanswer rfl)
    rw [htwo] at hstays
    exact ⟨_, Prod.ext hanswer rfl, hstays⟩

end Import

end Buildbox
