import Buildbox.Host.Files

/-! Clocks, chance and waiting. Time passes for a host only while it waits. -/

namespace Buildbox

inductive Clock where
  | realtime
  | monotonic
  | processTime
  | threadTime
  deriving DecidableEq, Repr

def Clock.ofCode? (code : UInt32) : Option Clock :=
  if code = 0 then some .realtime
  else if code = 1 then some .monotonic
  else if code = 2 then some .processTime
  else if code = 3 then some .threadTime
  else none

inductive Subscription where
  | clock (userdata : UInt64) (clock : UInt32) (timeout : UInt64) (absolute : Bool)
  | fd (userdata : UInt64) (fd : Fd) (kind : UInt8)
  deriving DecidableEq, Repr, Inhabited

structure PollEvent where
  userdata : UInt64
  error : Option Errno
  kind : UInt8
  deriving DecidableEq, Repr, Inhabited

namespace Host

def epoch : Nat := 1767225600000000000

def clockTime (h : Host) (code : UInt32) : Except Errno UInt64 :=
  match Clock.ofCode? code with
  | some .realtime => .ok (UInt64.ofNat (epoch + h.elapsed))
  | some _ => .ok (UInt64.ofNat h.elapsed)
  | none => .error .inval

def clockResolution (code : UInt32) : Except Errno UInt64 :=
  match Clock.ofCode? code with
  | some _ => .ok 1000
  | none => .error .inval

def nextEntropy (x : UInt64) : UInt64 :=
  let x := x ^^^ (x <<< 13)
  let x := x ^^^ (x >>> 7)
  x ^^^ (x <<< 17)

def randomBytes (h : Host) : Nat → Bytes × Host
  | 0 => ([], h)
  | n + 1 =>
    let x := nextEntropy h.entropy
    let (rest, h) := randomBytes { h with entropy := x } n
    ((x >>> 32).toUInt8 :: rest, h)

def readyEvent? (h : Host) : Subscription → Option PollEvent
  | .fd userdata fd kind =>
    let error := match h.fdCheck fd with
      | .ok () => none
      | .error e => some e
    some ⟨userdata, error, kind⟩
  | .clock .. => none

def delay? (h : Host) : Subscription → Option Nat
  | .clock _ clock timeout absolute =>
    let now := match h.clockTime clock with
      | .ok t => t.toNat
      | .error _ => 0
    some (if absolute then timeout.toNat - now else timeout.toNat)
  | .fd .. => none

def clockEvent? : Subscription → Option PollEvent
  | .clock userdata .. => some ⟨userdata, none, 0⟩
  | .fd .. => none

/-- Waits for the first of the clocks, unless a descriptor is asked for; no events when the
deadline comes first. -/
def poll (h : Host) (subscriptions : List Subscription) : Option (List PollEvent) × Host :=
  match subscriptions.filterMap h.readyEvent? with
  | event :: events => (some (event :: events), h)
  | [] =>
    let events := subscriptions.filterMap clockEvent?
    match (subscriptions.filterMap h.delay?).min? with
    | none => (some events, h)
    | some wait =>
      match h.deadline with
      | none => (some events, { h with elapsed := h.elapsed + wait })
      | some deadline =>
        let left := deadline - h.elapsed
        if left ≤ wait then (none, { h with elapsed := h.elapsed + left })
        else (some events, { h with elapsed := h.elapsed + wait })

end Host

end Buildbox
