import Buildbox.Bytes
import Buildbox.Host.Errno
import Buildbox.Text.Utf8

/-! The linear memory of a guest. Every access is checked against its bounds before anything is
read or written. -/

namespace Buildbox

abbrev Address := UInt32

structure Stretch where
  bytes : Bytes
  untouched : Nat := 0
  deriving DecidableEq, Repr, Inhabited

/-- A memory from its lowest address up: a stretch, and the stretches above it. What was never
touched takes no room, so that a memory may be as large as all that can be addressed. -/
structure GuestMemory where
  bytes : Bytes
  untouched : Nat := 0
  above : List Stretch := []
  deriving DecidableEq, Repr, Inhabited

structure IoVec where
  pointer : Address
  length : UInt32
  deriving DecidableEq, Repr, Inhabited

def Address.add? (a : Address) (n : Nat) : Except Errno Address :=
  if a.toNat + n < UInt32.size then .ok (a + UInt32.ofNat n) else .error .fault

namespace Stretch

def size (s : Stretch) : Nat :=
  s.bytes.length + s.untouched

def contents (s : Stretch) : Bytes :=
  s.bytes ++ List.replicate s.untouched 0

def take (n : Nat) (s : Stretch) : Stretch :=
  ⟨s.bytes.take n, min (n - s.bytes.length) s.untouched⟩

def drop (n : Nat) (s : Stretch) : Stretch :=
  ⟨s.bytes.drop n, s.untouched - (n - s.bytes.length)⟩

def takeAll : Nat → List Stretch → List Stretch
  | _, [] => []
  | n, s :: rest => s.take n :: takeAll (n - s.size) rest

def dropAll : Nat → List Stretch → List Stretch
  | _, [] => []
  | n, s :: rest => s.drop n :: dropAll (n - s.size) rest

@[simp] theorem length_contents (s : Stretch) : s.contents.length = s.size := by
  simp [contents, size]

@[simp] theorem contents_take (n : Nat) (s : Stretch) :
    (s.take n).contents = s.contents.take n := by
  simp [take, contents, List.take_append]

@[simp] theorem contents_drop (n : Nat) (s : Stretch) :
    (s.drop n).contents = s.contents.drop n := by
  simp [drop, contents, List.drop_append]

theorem contents_takeAll (n : Nat) (l : List Stretch) :
    (takeAll n l).flatMap contents = (l.flatMap contents).take n := by
  induction l generalizing n with
  | nil => simp [takeAll]
  | cons s rest ih => simp [takeAll, ih, List.take_append]

theorem contents_dropAll (n : Nat) (l : List Stretch) :
    (dropAll n l).flatMap contents = (l.flatMap contents).drop n := by
  induction l generalizing n with
  | nil => simp [dropAll]
  | cons s rest ih => simp [dropAll, ih, List.drop_append]

end Stretch

namespace GuestMemory

def stretches (m : GuestMemory) : List Stretch :=
  ⟨m.bytes, m.untouched⟩ :: m.above

def size (m : GuestMemory) : Nat :=
  m.stretches.foldr (fun s n => s.size + n) 0

def contents (m : GuestMemory) : Bytes :=
  m.stretches.flatMap Stretch.contents

def lay (s : Stretch) (m : GuestMemory) : GuestMemory :=
  if s.untouched = 0 then { m with bytes := s.bytes ++ m.bytes }
  else if m.bytes = [] then ⟨s.bytes, s.untouched + m.untouched, m.above⟩
  else ⟨s.bytes, s.untouched, m.stretches⟩

def ofStretches (l : List Stretch) : GuestMemory :=
  l.foldr lay { bytes := [] }

@[simp] theorem length_contents (m : GuestMemory) : m.contents.length = m.size := by
  unfold contents size
  induction m.stretches with
  | nil => rfl
  | cons s rest ih => simp [ih]

@[simp] theorem contents_lay (s : Stretch) (m : GuestMemory) :
    (lay s m).contents = s.contents ++ m.contents := by
  unfold lay
  split
  · next h => simp [contents, stretches, Stretch.contents, h]
  · split
    · next h =>
      simp [contents, stretches, Stretch.contents, h, List.append_assoc,
        ← List.replicate_append_replicate]
    · rfl

@[simp] theorem contents_ofStretches (l : List Stretch) :
    (ofStretches l).contents = l.flatMap Stretch.contents := by
  induction l with
  | nil => rfl
  | cons s rest ih => exact (contents_lay s _).trans (congrArg _ ih)

def check (m : GuestMemory) (p : Address) (n : Nat) : Except Errno Unit :=
  if p.toNat + n ≤ m.size then .ok () else .error .fault

def slice (m : GuestMemory) (p : Address) (n : Nat) : Except Errno Bytes := do
  m.check p n
  return (Stretch.takeAll n (Stretch.dropAll p.toNat m.stretches)).flatMap Stretch.contents

def write (m : GuestMemory) (p : Address) (data : Bytes) : Except Errno GuestMemory := do
  m.check p data.length
  return ofStretches (Stretch.takeAll p.toNat m.stretches ++
    { bytes := data } :: Stretch.dropAll (p.toNat + data.length) m.stretches)

def grow (m : GuestMemory) (n : Nat) : GuestMemory :=
  ofStretches (m.stretches ++ [⟨[], n⟩])

theorem slice_eq {m : GuestMemory} {p : Address} {n : Nat} (h : p.toNat + n ≤ m.size) :
    m.slice p n = .ok ((m.contents.drop p.toNat).take n) := by
  simp [slice, check, h, contents, Stretch.contents_takeAll, Stretch.contents_dropAll, bind,
    Except.bind, pure, Except.pure]

theorem slice_eq_fault_iff {m : GuestMemory} {p : Address} {n : Nat} :
    m.slice p n = .error .fault ↔ m.size < p.toNat + n := by
  by_cases h : p.toNat + n ≤ m.size
  · simp [slice_eq h, Nat.not_lt.mpr h]
  · simp [slice, check, h, bind, Except.bind, Nat.lt_of_not_le h]

theorem contents_write {m m' : GuestMemory} {p : Address} {data : Bytes}
    (h : m.write p data = .ok m') :
    m'.contents =
      m.contents.take p.toNat ++ data ++ m.contents.drop (p.toNat + data.length) := by
  by_cases hp : p.toNat + data.length ≤ m.size
  · simp only [write, check, hp, if_true, bind, Except.bind, pure, Except.pure,
      Except.ok.injEq] at h
    subst h
    rw [contents_ofStretches, List.flatMap_append, List.flatMap_cons, Stretch.contents_takeAll,
      Stretch.contents_dropAll, List.append_assoc]
    simp [contents, Stretch.contents]
  · simp [write, check, hp, bind, Except.bind] at h

def readNat (m : GuestMemory) (p : Address) (k : Nat) : Except Errno Nat := do
  return Bytes.toNatLE (← m.slice p k)

def writeNat (m : GuestMemory) (p : Address) (k value : Nat) : Except Errno GuestMemory :=
  m.write p (Bytes.ofNatLE k value)

def readText (m : GuestMemory) (p : Address) (n : Nat) : Except Errno String := do
  match Utf8.decode? (← m.slice p n) with
  | some s => return s
  | none => throw .ilseq

def iovecsFrom (m : GuestMemory) (array : Address) : (i count : Nat) → Except Errno (List IoVec)
  | _, 0 => .ok []
  | i, count + 1 => do
    let pointerAt ← array.add? (8 * i)
    let lengthAt ← pointerAt.add? 4
    let pointer := UInt32.ofNat (← m.readNat pointerAt 4)
    let length := UInt32.ofNat (← m.readNat lengthAt 4)
    let rest ← m.iovecsFrom array (i + 1) count
    return ⟨pointer, length⟩ :: rest

def iovecs (m : GuestMemory) (array : Address) (count : UInt32) : Except Errno (List IoVec) :=
  m.iovecsFrom array 0 count.toNat

def gatherAll (m : GuestMemory) : List IoVec → Except Errno Bytes
  | [] => .ok []
  | v :: vs => do
    let part ← m.slice v.pointer v.length.toNat
    let rest ← m.gatherAll vs
    return part ++ rest

def gather (m : GuestMemory) (array : Address) (count : UInt32) : Except Errno Bytes := do
  m.gatherAll (← m.iovecs array count)

/-- Fills the buffers in order until the data is used up. What was written before a fault stays. -/
def scatterAll (m : GuestMemory) (data : Bytes) : List IoVec → Except Errno Nat × GuestMemory
  | [] => (.ok 0, m)
  | v :: vs =>
    if data = [] then (.ok 0, m)
    else
      let now := data.take v.length.toNat
      match m.write v.pointer now with
      | .error e => (.error e, m)
      | .ok m =>
        match m.scatterAll (data.drop v.length.toNat) vs with
        | (.ok n, m) => (.ok (now.length + n), m)
        | (.error e, m) => (.error e, m)

def scatter (m : GuestMemory) (array : Address) (count : UInt32) (data : Bytes) :
    Except Errno Nat × GuestMemory :=
  match m.iovecs array count with
  | .ok vs => m.scatterAll data vs
  | .error e => (.error e, m)

def totalCapacity (vs : List IoVec) : Nat :=
  vs.foldl (fun n v => n + v.length.toNat) 0

def capacity (m : GuestMemory) (array : Address) (count : UInt32) : Except Errno Nat := do
  return totalCapacity (← m.iovecs array count)

end GuestMemory

end Buildbox
