import Buildbox.Guest.Memory
import Buildbox.Host.Call

/-! What a guest's calls act on, its memory together with its host, and the records they read and
write there. -/

namespace Buildbox

structure GuestState where
  memory : GuestMemory
  host : Host
  deriving DecidableEq, Repr, Inhabited

/-- A call of a guest. What it did before it failed stays done. -/
abbrev GuestM := EStateM Refusal GuestState

namespace GuestM

def load {α : Type} (f : GuestMemory → Except Errno α) : GuestM α := fun s =>
  match f s.memory with
  | .ok a => .ok a s
  | .error e => .error (.errno e) s

def store (f : GuestMemory → Except Errno GuestMemory) : GuestM Unit := fun s =>
  match f s.memory with
  | .ok memory => .ok () { s with memory }
  | .error e => .error (.errno e) s

def host {α : Type} (call : HostM α) : GuestM α := fun s =>
  match call s.host with
  | .ok a h => .ok a { s with host := h }
  | .error e h => .error e { s with host := h }

def lookup {α : Type} (f : Host → Except Errno α) : GuestM α :=
  host (HostM.read f)

def scatter (array : Address) (count : UInt32) (data : Bytes) : GuestM Nat := fun s =>
  match s.memory.scatter array count data with
  | (.ok n, memory) => .ok n { s with memory }
  | (.error e, memory) => .error (.errno e) { s with memory }

def put (p : Address) (k value : Nat) : GuestM Unit :=
  store fun m => m.writeNat p k value

def putBytes (p : Address) (data : Bytes) : GuestM Unit :=
  store fun m => m.write p data

def text (p : Address) (length : UInt32) : GuestM String :=
  load fun m => m.readText p length.toNat

def putStrings (table : Address) : (index : Nat) → Address → List String → GuestM Unit
  | _, _, [] => return ()
  | index, cursor, s :: rest => do
    let slot ← load fun _ => table.add? (UInt32.ofNat index * 4).toNat
    put slot 4 cursor.toNat
    let bytes := Utf8.encode s
    putBytes cursor bytes
    let stop ← load fun _ => cursor.add? (UInt32.ofNat bytes.length).toNat
    put stop 1 0
    putStrings table (index + 1) (stop + 1) rest

def stringsSize (items : List String) : Nat :=
  items.foldl (fun n s => n + (Utf8.encode s).length + 1) 0

def putSizes (count size : Address) (items : List String) : GuestM Unit := do
  put count 4 items.length
  put size 4 (stringsSize items)

def subscriptionSize : Nat := 48

def eventSize : Nat := 32

def subscriptionAt (m : GuestMemory) (p : Address) : Except Errno Subscription := do
  let userdata := UInt64.ofNat (← m.readNat p 8)
  let kind := UInt8.ofNat (← m.readNat (← p.add? 8) 1)
  if kind = 0 then
    let clock := UInt32.ofNat (← m.readNat (← p.add? 16) 4)
    let timeout := UInt64.ofNat (← m.readNat (← p.add? 24) 8)
    let flags ← m.readNat (← p.add? 40) 2
    return .clock userdata clock timeout (flags % 2 = 1)
  else if kind = 1 ∨ kind = 2 then
    return .fd userdata (UInt32.ofNat (← m.readNat (← p.add? 16) 4)) kind
  else throw .inval

def subscriptionsFrom (m : GuestMemory) (array : Address) :
    (i count : Nat) → Except Errno (List Subscription)
  | _, 0 => .ok []
  | i, count + 1 => do
    let s ← subscriptionAt m (← array.add? (subscriptionSize * i))
    let rest ← subscriptionsFrom m array (i + 1) count
    return s :: rest

def subscriptions (array : Address) (count : UInt32) : GuestM (List Subscription) :=
  load fun m => subscriptionsFrom m array 0 count.toNat

def putEvents (array : Address) : (i : Nat) → List PollEvent → GuestM Unit
  | _, [] => return ()
  | i, e :: rest => do
    let p ← load fun _ => array.add? (eventSize * i)
    putBytes p (List.replicate eventSize 0)
    put p 8 e.userdata.toNat
    put (p + 8) 2 ((e.error.map Errno.code).getD 0)
    put (p + 10) 1 e.kind.toNat
    putEvents array (i + 1) rest

end GuestM

end Buildbox
