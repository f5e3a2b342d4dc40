import Buildbox.Proofs.Guest.Strings
import Buildbox.Proofs.Host.Checked
import Buildbox.Proofs.Lists

/-! The imports that compute addresses, written once more with addresses as numbers. A number that is
computed with a check is a fault where it is no word, one that is computed without is out of range
there, and an access is a fault where it does not lie in memory. -/

namespace Buildbox

/-- A guest's call whose addresses are numbers. -/
abbrev ExactM := EStateM Halt GuestState

namespace Exact

section Numbers

def word (n : Nat) : Checked Nat :=
  if n < UInt32.size then .ok n else .error .outOfRange

def word? (n : Nat) : Checked Nat :=
  if n < UInt32.size then .ok n else .error (.code .fault)

end Numbers

section Reads

variable (m : GuestMemory)

def readNat (p k : Nat) : Checked Nat :=
  if p + k ≤ m.size then .ok (Bytes.toNatLE ((m.contents.drop p).take k))
  else .error (.code .fault)

def iovecsFrom (array : Nat) : (i count : Nat) → Checked (List IoVec)
  | _, 0 => .ok []
  | i, count + 1 => do
    let offset ← word? (8 * i)
    let pointerAt ← word? (array + offset)
    let lengthAt ← word? (pointerAt + 4)
    let pointer := UInt32.ofNat (← readNat m pointerAt 4)
    let length := UInt32.ofNat (← readNat m lengthAt 4)
    let rest ← iovecsFrom array (i + 1) count
    return ⟨pointer, length⟩ :: rest

def iovecs (array : Address) (count : UInt32) : Checked (List IoVec) :=
  iovecsFrom m array.toNat 0 count.toNat

def subscriptionAt (p : Nat) : Checked Subscription := do
  let userdata := UInt64.ofNat (← readNat m p 8)
  let kind := UInt8.ofNat (← readNat m (← word? (p + 8)) 1)
  if kind = 0 then
    let clock := UInt32.ofNat (← readNat m (← word? (p + 16)) 4)
    let timeout := UInt64.ofNat (← readNat m (← word? (p + 24)) 8)
    let flags ← readNat m (← word? (p + 40)) 2
    return .clock userdata clock timeout (flags % 2 = 1)
  else if kind = 1 ∨ kind = 2 then
    return .fd userdata (UInt32.ofNat (← readNat m (← word? (p + 16)) 4)) kind
  else throw (.code .inval)

def subscriptionsFrom (array : Nat) : (i count : Nat) → Checked (List Subscription)
  | _, 0 => .ok []
  | i, count + 1 => do
    let offset ← word? (GuestM.subscriptionSize * i)
    let s ← subscriptionAt m (← word? (array + offset))
    let rest ← subscriptionsFrom array (i + 1) count
    return s :: rest

end Reads

section Calls

def lift {α : Type} (x : GuestM α) : ExactM α := fun s =>
  match x s with
  | .ok a s => .ok a s
  | .error e s => .error (.ofRefusal e) s

def load {α : Type} (f : GuestMemory → Checked α) : ExactM α := fun s =>
  match f s.memory with
  | .ok a => .ok a s
  | .error h => .error h s

def putBytes (p : Nat) (data : Bytes) : ExactM Unit := fun s =>
  if p + data.length ≤ s.memory.size then lift (GuestM.putBytes (UInt32.ofNat p) data) s
  else .error (.code .fault) s

def put (p k value : Nat) : ExactM Unit :=
  putBytes p (Bytes.ofNatLE k value)

def putString (table index cursor : Nat) (t : String) : ExactM Nat := do
  let offset ← load fun _ => word (4 * index)
  let slot ← load fun _ => word? (table + offset)
  put slot 4 cursor
  putBytes cursor (Utf8.encode t)
  let length ← load fun _ => word (Utf8.encode t).length
  let stop ← load fun _ => word? (cursor + length)
  put stop 1 0
  load fun _ => word (stop + 1)

def putStrings (table : Nat) : (index cursor : Nat) → List String → ExactM Unit
  | _, _, [] => return ()
  | index, cursor, t :: rest => do
    let next ← putString table index cursor t
    putStrings table (index + 1) next rest

def putEvents (array : Nat) : (i : Nat) → List PollEvent → ExactM Unit
  | _, [] => return ()
  | i, e :: rest => do
    let index ← load fun _ => word i
    let offset ← load fun _ => word? (GuestM.eventSize * index)
    let p ← load fun _ => word? (array + offset)
    putBytes p (List.replicate GuestM.eventSize 0)
    put p 8 e.userdata.toNat
    let errorAt ← load fun _ => word (p + 8)
    put errorAt 2 ((e.error.map Errno.code).getD 0)
    let kindAt ← load fun _ => word (p + 10)
    put kindAt 1 e.kind.toNat
    putEvents array (i + 1) rest

def fill (data : Bytes) (vs : List IoVec) : ExactM Nat := fun s =>
  match s.memory.scatterAll data vs with
  | (.ok n, memory) => .ok n { s with memory }
  | (.error e, memory) => .error (.code e) { s with memory }

def scatter (array : Address) (count : UInt32) (data : Bytes) : ExactM Nat := do
  fill data (← load (iovecs · array count))

def capacity (array : Address) (count : UInt32) : ExactM Nat := do
  return GuestMemory.totalCapacity (← load (iovecs · array count))

def gather (array : Address) (count : UInt32) : ExactM Bytes := do
  let vs ← load (iovecs · array count)
  lift (GuestM.load (·.gatherAll vs))

end Calls

open GuestM in
def call : Import → ExactM Unit
  | .argsGet table buffer => do
    Exact.putStrings table.toNat 0 buffer.toNat (← get).host.args
  | .environGet table buffer => do
    Exact.putStrings table.toNat 0 buffer.toNat (← get).host.env
  | .fdFdstatGet fd out => do
    let (kind, append) ← lift (lookup (·.fdFdstat fd))
    Exact.putBytes out.toNat (List.replicate 24 0)
    Exact.put out.toNat 1 kind.code.toNat
    let flagsAt ← Exact.load fun _ => word (out.toNat + 2)
    Exact.put flagsAt 2 append.toNat
    let baseAt ← Exact.load fun _ => word (out.toNat + 8)
    Exact.put baseAt 8 Import.allRights
    let inheritingAt ← Exact.load fun _ => word (out.toNat + 16)
    Exact.put inheritingAt 8 Import.allRights
  | .fdPrestatGet fd out => do
    let name ← lift (lookup (·.fdPrestatName fd))
    Exact.putBytes out.toNat (List.replicate 8 0)
    Exact.put out.toNat 1 0
    let lengthAt ← Exact.load fun _ => word (out.toNat + 4)
    Exact.put lengthAt 4 (Utf8.encode name).length
  | .fdPread fd array count offset nread => do
    let capacity ← capacity array count
    let data ← lift (lookup (·.fdPread fd capacity offset))
    let placed ← Exact.scatter array count data
    Exact.put nread.toNat 4 placed
  | .fdRead fd array count nread => do
    let capacity ← capacity array count
    let data ← lift (host (Host.fdRead fd capacity))
    let placed ← Exact.scatter array count data
    Exact.put nread.toNat 4 placed
  | .fdPwrite fd array count offset nwritten => do
    let data ← gather array count
    let written ← lift (host (Host.fdPwrite fd data offset))
    Exact.put nwritten.toNat 4 written
  | .fdWrite fd array count nwritten => do
    let data ← gather array count
    let written ← lift (host (Host.fdWrite fd data))
    Exact.put nwritten.toNat 4 written
  | i => lift i.call

open GuestM in
def pollCall (input output : Address) (count : UInt32) (nevents : Address) : ExactM Signal := do
  if count.toInt32 ≤ 0 then throw (.code .inval)
  let wanted ← Exact.load fun m => subscriptionsFrom m input.toNat 0 count.toNat
  match ← lift (host (modifyGet (·.poll wanted))) with
  | none => return .interrupt
  | some events =>
    Exact.putEvents output.toNat 0 events
    Exact.put nevents.toNat 4 events.length
    return .goOn

def perform : Import → ExactM Signal
  | .procExit code => return .exit code
  | .pollOneoff input output count nevents => pollCall input output count nevents
  | i => do
    call i
    return .goOn

section Reads

variable {α β γ : Type} {m : GuestMemory} {a p array : Address} {n k : Nat}

open Checked

theorem bind_eq_answer {v : α → γ} {x : Checked γ} {y : Except Errno α} {f : γ → Checked β}
    {g : α → Except Errno β} (hx : x = answer (v <$> y)) (hfg : ∀ a, f (v a) = answer (g a)) :
    x >>= f = answer (y >>= g) := by
  rw [hx]
  cases y with
  | ok a => exact hfg a
  | error e => rfl

theorem bind_eq_answer_same {x : Checked α} {y : Except Errno α} {f : α → Checked β}
    {g : α → Except Errno β} (hx : x = answer y) (hfg : ∀ a, f a = answer (g a)) :
    x >>= f = answer (y >>= g) :=
  bind_eq_answer (v := id) (hx.trans (by rw [id_map])) hfg

theorem word?_eq : word? (a.toNat + n) = answer (UInt32.toNat <$> a.add? n) := by
  unfold word?
  split
  · next h =>
    obtain ⟨b, hb, hat⟩ := GuestMemory.exists_add? h
    rw [hb, ← hat]
    rfl
  · next h =>
    have hfault : a.add? n = .error .fault := if_neg h
    rw [hfault]
    rfl

theorem word?_offset_bind {f : Nat → Checked β} :
    (word? n >>= fun offset => word? (a.toNat + offset) >>= f) = word? (a.toNat + n) >>= f := by
  by_cases h : n < UInt32.size
  · have hn : word? n = .ok n := if_pos h
    rw [hn]
    rfl
  · have hn : word? n = .error (.code .fault) := if_neg h
    have hfault : word? (a.toNat + n) = .error (.code .fault) := if_neg (by omega)
    rw [hn, hfault]
    rfl

theorem readNat_eq : readNat m p.toNat k = answer (m.readNat p k) := by
  unfold readNat GuestMemory.readNat
  split
  · next h =>
    rw [GuestMemory.slice_eq h]
    rfl
  · next h =>
    rw [GuestMemory.slice_eq_fault_iff.mpr (Nat.lt_of_not_le h)]
    rfl

theorem iovecsFrom_eq (i count : Nat) :
    iovecsFrom m array.toNat i count = answer (m.iovecsFrom array i count) := by
  induction count generalizing i with
  | zero => rfl
  | succ count ih =>
    rw [iovecsFrom, GuestMemory.iovecsFrom, word?_offset_bind]
    refine bind_eq_answer word?_eq fun pointerAt => ?_
    refine bind_eq_answer word?_eq fun lengthAt => ?_
    refine bind_eq_answer_same readNat_eq fun pointer => ?_
    refine bind_eq_answer_same readNat_eq fun length => ?_
    exact bind_eq_answer_same (ih (i + 1)) fun _ => rfl

theorem subscriptionAt_eq : subscriptionAt m p.toNat = answer (GuestM.subscriptionAt m p) := by
  refine bind_eq_answer_same readNat_eq fun userdata => ?_
  refine bind_eq_answer word?_eq fun kindAt => ?_
  refine bind_eq_answer_same readNat_eq fun kind => ?_
  dsimp only
  split
  · refine bind_eq_answer word?_eq fun clockAt => ?_
    refine bind_eq_answer_same readNat_eq fun clock => ?_
    refine bind_eq_answer word?_eq fun timeoutAt => ?_
    refine bind_eq_answer_same readNat_eq fun timeout => ?_
    refine bind_eq_answer word?_eq fun flagsAt => ?_
    exact bind_eq_answer_same readNat_eq fun _ => rfl
  · split
    · refine bind_eq_answer word?_eq fun fdAt => ?_
      exact bind_eq_answer_same readNat_eq fun _ => rfl
    · rfl

theorem subscriptionsFrom_eq (i count : Nat) :
    subscriptionsFrom m array.toNat i count = answer (GuestM.subscriptionsFrom m array i count) := by
  induction count generalizing i with
  | zero => rfl
  | succ count ih =>
    rw [subscriptionsFrom, GuestM.subscriptionsFrom, word?_offset_bind]
    refine bind_eq_answer word?_eq fun p => ?_
    refine bind_eq_answer_same subscriptionAt_eq fun subscription => ?_
    exact bind_eq_answer_same (ih (i + 1)) fun _ => rfl

end Reads

section Parts

variable {α β γ : Type} {s s' : GuestState} {a p : Address} {n k value : Nat} {data : Bytes}
  {array : Address} {count : UInt32}

open Checked

theorem toNat_field {b : Address} (hroom : a.toNat + k ≤ UInt32.size) (hb : b.toNat < k) :
    (a + b).toNat = a.toNat + b.toNat := by
  have hlt : a.toNat + b.toNat < UInt32.size := by omega
  rw [UInt32.toNat_add]
  exact Nat.mod_eq_of_lt hlt

theorem lift_eq_ok {x : GuestM α} {b : α} : lift x s = .ok b s' ↔ x s = .ok b s' := by
  unfold lift
  cases x s <;> simp

theorem lift_eq_code {x : GuestM α} {e : Errno} :
    lift x s = .error (.code e) s' ↔ x s = .error (.errno e) s' := by
  unfold lift
  cases x s with
  | ok a s₁ => simp
  | error e' s₁ => cases e' <;> simp [Halt.ofRefusal]

theorem lift_map_of_ok {x : GuestM α} {b : α} (v : α → β) (h : x s = .ok b s') :
    lift (v <$> x) s = .ok (v b) s' := by
  change lift (EStateM.map v x) s = _
  simp only [lift, EStateM.map, h]

theorem bind_eq_lift {v : α → γ} {x : ExactM γ} {y : GuestM α} {f : γ → ExactM β}
    {g : α → GuestM β} (hx : x s = lift (v <$> y) s)
    (hfg : ∀ a s', y s = .ok a s' → f (v a) s' = lift (g a) s') :
    (x >>= f) s = lift (y >>= g) s := by
  change EStateM.bind x f s = lift (EStateM.bind y g) s
  change x s = lift (EStateM.map v y) s at hx
  simp only [EStateM.bind, EStateM.map, lift] at hx ⊢
  rw [hx]
  cases hy : y s with
  | ok a s' => exact hfg a s' hy
  | error e s' => rfl

theorem bind_eq_lift_same {x : ExactM α} {y : GuestM α} {f : α → ExactM β} {g : α → GuestM β}
    (hx : x s = lift y s) (hfg : ∀ a s', y s = .ok a s' → f a s' = lift (g a) s') :
    (x >>= f) s = lift (y >>= g) s :=
  bind_eq_lift (v := id) (hx.trans (by rw [id_map])) hfg

theorem load_bind {x : GuestMemory → Checked α} {b : α} {f : α → ExactM β}
    (hx : x s.memory = .ok b) : (load x >>= f) s = f b s := by
  change EStateM.bind (load x) f s = _
  unfold EStateM.bind load
  rw [hx]

theorem load_bind_error {x : GuestMemory → Checked α} {h : Halt} {f : α → ExactM β}
    (hx : x s.memory = .error h) : (load x >>= f) s = .error h s := by
  change EStateM.bind (load x) f s = _
  unfold EStateM.bind load
  rw [hx]

theorem load_word_bind {f : Nat → ExactM β} (hn : n < UInt32.size) :
    (load (fun _ => word n) >>= f) s = f n s :=
  load_bind (if_pos hn)

theorem load_answer {f : GuestMemory → Checked α} {g : GuestMemory → Except Errno α}
    (hfg : f s.memory = answer (g s.memory)) : load f s = lift (GuestM.load g) s := by
  unfold load lift GuestM.load
  rw [hfg]
  cases g s.memory <;> rfl

theorem load_address :
    load (fun _ => word? (a.toNat + n)) s =
      lift (UInt32.toNat <$> GuestM.load fun _ => a.add? n) s := by
  have hload : load (fun _ => word? (a.toNat + n)) s =
      lift (GuestM.load fun _ => UInt32.toNat <$> a.add? n) s := load_answer word?_eq
  rw [hload]
  cases a.add? n <;> rfl

theorem load_offset_bind {f : Nat → ExactM β} :
    (load (fun _ => word? n) >>= fun offset => load (fun _ => word? (a.toNat + offset)) >>= f) s =
      (load (fun _ => word? (a.toNat + n)) >>= f) s := by
  by_cases h : n < UInt32.size
  · exact load_bind (if_pos h)
  · rw [load_bind_error (if_neg h), load_bind_error (if_neg (by omega))]

theorem putBytes_eq : putBytes p.toNat data s = lift (GuestM.putBytes p data) s := by
  unfold putBytes
  split
  · rw [UInt32.ofNat_toNat]
  · next h =>
    have hfault := GuestMemory.write_eq_error.mpr ⟨Nat.lt_of_not_le h, rfl⟩
    simp only [lift, GuestM.putBytes, GuestM.store, hfault, Halt.ofRefusal]

theorem put_eq : put p.toNat k value s = lift (GuestM.put p k value) s :=
  putBytes_eq

theorem size_putBytes {u : Unit} (h : GuestM.putBytes p data s = .ok u s') :
    s'.memory.size = s.memory.size ∧ p.toNat + data.length ≤ s.memory.size := by
  obtain ⟨m, hw, rfl⟩ := GuestM.putBytes_eq_ok.mp h
  exact ⟨GuestMemory.size_write hw, GuestMemory.le_size_of_write hw⟩

theorem size_put {u : Unit} (h : GuestM.put p k value s = .ok u s') :
    s'.memory.size = s.memory.size ∧ p.toNat + k ≤ s.memory.size := by
  obtain ⟨hsize, hin⟩ := size_putBytes (p := p) h
  rw [Bytes.length_ofNatLE] at hin
  exact ⟨hsize, hin⟩

theorem load_bind_load {f : GuestMemory → Except Errno α} {g : α → GuestMemory → Except Errno β} :
    GuestM.load (fun m => f m >>= fun a => g a m) =
      GuestM.load f >>= fun a => GuestM.load (g a) := by
  funext s
  change _ = EStateM.bind _ _ s
  simp only [GuestM.load, EStateM.bind]
  cases f s.memory <;> rfl

theorem load_iovecs :
    load (iovecs · array count) s = lift (GuestM.load (·.iovecs array count)) s :=
  load_answer (iovecsFrom_eq 0 count.toNat)

theorem fill_eq {vs : List IoVec} (hvs : s.memory.iovecs array count = .ok vs) :
    fill data vs s = lift (GuestM.scatter array count data) s := by
  simp only [fill, lift, GuestM.scatter, GuestMemory.scatter, hvs]
  rcases s.memory.scatterAll data vs with ⟨e | n, m⟩ <;> rfl

theorem scatter_eq : scatter array count data s = lift (GuestM.scatter array count data) s := by
  have hload : iovecs s.memory array count = answer (s.memory.iovecs array count) :=
    iovecsFrom_eq 0 count.toNat
  unfold scatter
  cases hvs : s.memory.iovecs array count with
  | ok vs =>
    rw [load_bind (hload.trans (congrArg answer hvs))]
    exact fill_eq hvs
  | error e =>
    rw [load_bind_error (hload.trans (congrArg answer hvs))]
    simp only [lift, GuestM.scatter, GuestMemory.scatter, hvs, Halt.ofRefusal]

theorem capacity_eq : capacity array count s = lift (GuestM.load (·.capacity array count)) s := by
  have hparts : GuestM.load (·.capacity array count) =
      GuestM.load (·.iovecs array count) >>= fun vs =>
        GuestM.load fun _ => pure (GuestMemory.totalCapacity vs) := load_bind_load
  rw [hparts]
  exact bind_eq_lift_same load_iovecs fun _ _ _ => rfl

theorem gather_eq : gather array count s = lift (GuestM.load (·.gather array count)) s := by
  have hparts : GuestM.load (·.gather array count) =
      GuestM.load (·.iovecs array count) >>= fun vs => GuestM.load (·.gatherAll vs) :=
    load_bind_load
  rw [hparts]
  exact bind_eq_lift_same load_iovecs fun _ _ _ => rfl

end Parts

section Events

variable {s s' : GuestState} {array input output nevents : Address} {count : UInt32}
  {events : List PollEvent} {wanted : List Subscription}

theorem length_subscriptionsFrom {m : GuestMemory} {i k : Nat}
    (h : GuestM.subscriptionsFrom m array i k = .ok wanted) : wanted.length = k := by
  induction k generalizing i wanted with
  | zero =>
    cases h
    rfl
  | succ k ih =>
    unfold GuestM.subscriptionsFrom at h
    obtain ⟨p, -, h⟩ := ok_of_bind h
    obtain ⟨subscription, -, h⟩ := ok_of_bind h
    obtain ⟨rest, hrest, h⟩ := ok_of_bind h
    cases h
    rw [List.length_cons, ih hrest]

theorem length_le_of_poll {h : Host} (hpoll : (h.poll wanted).1 = some events) :
    events.length ≤ wanted.length := by
  have hclocks : (wanted.filterMap Host.clockEvent?).length ≤ wanted.length :=
    List.length_filterMap_le ..
  unfold Host.poll at hpoll
  split at hpoll
  · next event more hready =>
    cases hpoll
    rw [← hready]
    exact List.length_filterMap_le ..
  · dsimp only at hpoll
    split at hpoll
    · cases hpoll
      exact hclocks
    · split at hpoll
      · cases hpoll
        exact hclocks
      · split at hpoll
        · cases hpoll
        · cases hpoll
          exact hclocks

theorem putEvents_eq {i : Nat} (hm : s.memory.size ≤ UInt32.size)
    (hi : i + events.length ≤ UInt32.size) :
    putEvents array.toNat i events s = lift (GuestM.putEvents array i events) s := by
  induction events generalizing i s with
  | nil => rfl
  | cons e events ih =>
    rw [List.length_cons] at hi
    rw [putEvents, GuestM.putEvents, load_word_bind (by omega), load_offset_bind]
    refine bind_eq_lift load_address fun p s₁ hp => ?_
    obtain ⟨-, rfl⟩ := GuestM.load_eq_ok.mp hp
    refine bind_eq_lift_same putBytes_eq fun _ s₂ hzeros => ?_
    obtain ⟨hsize₂, hin⟩ := size_putBytes hzeros
    refine bind_eq_lift_same put_eq fun _ s₃ huserdata => ?_
    -- The event has been cleared as a whole before, so that all of it lies in memory.
    have hroom : p.toNat + 32 ≤ UInt32.size := Nat.le_trans hin hm
    have height : (p + 8).toNat = p.toNat + 8 := toNat_field hroom (by decide)
    have hten : (p + 10).toNat = p.toNat + 10 := toNat_field hroom (by decide)
    rw [load_word_bind (by omega), ← height]
    refine bind_eq_lift_same put_eq fun _ s₄ herror => ?_
    rw [load_word_bind (by omega), ← hten]
    refine bind_eq_lift_same put_eq fun _ s₅ hkind => ?_
    have hsize : s₅.memory.size = s.memory.size := by
      rw [(size_put hkind).1, (size_put herror).1, (size_put huserdata).1, hsize₂]
    exact ih (hsize ▸ hm) (by omega)

theorem pollCall_eq (hm : s.memory.size ≤ UInt32.size) :
    pollCall input output count nevents s =
      lift (Import.pollCall input output count nevents) s := by
  unfold pollCall Import.pollCall
  split
  · rfl
  · refine bind_eq_lift_same (load_answer (subscriptionsFrom_eq 0 count.toNat))
      fun wanted s₁ hwanted => ?_
    obtain ⟨hread, rfl⟩ := GuestM.load_eq_ok.mp hwanted
    refine bind_eq_lift_same rfl fun answer s₂ hanswer => ?_
    obtain ⟨h, hpoll, rfl⟩ := GuestM.host_eq_ok.mp hanswer
    have hlength := length_subscriptionsFrom hread
    have hcount := count.toNat_lt_size
    cases answer with
    | none => rfl
    | some events =>
      have hevents : events.length ≤ wanted.length :=
        length_le_of_poll (congrArg Prod.fst (HostM.modifyGet_eq_ok.mp hpoll))
      refine bind_eq_lift_same (putEvents_eq hm (by omega)) fun _ s₃ _ => ?_
      exact bind_eq_lift_same put_eq fun _ _ _ => rfl

end Events

section Records

variable {s : GuestState} {fd : Fd} {out : Address} (hm : s.memory.size ≤ UInt32.size)
include hm

theorem call_fdFdstatGet_eq :
    call (.fdFdstatGet fd out) s = lift (Import.call (.fdFdstatGet fd out)) s := by
  refine bind_eq_lift_same rfl fun (kind, append) s₁ hstat => ?_
  obtain ⟨h, -, rfl⟩ := GuestM.host_eq_ok.mp hstat
  refine bind_eq_lift_same putBytes_eq fun _ s₂ hzeros => ?_
  have hroom : out.toNat + 24 ≤ UInt32.size := Nat.le_trans (size_putBytes hzeros).2 hm
  have htwo : (out + 2).toNat = out.toNat + 2 := toNat_field hroom (by decide)
  have height : (out + 8).toNat = out.toNat + 8 := toNat_field hroom (by decide)
  have hsixteen : (out + 16).toNat = out.toNat + 16 := toNat_field hroom (by decide)
  refine bind_eq_lift_same put_eq fun _ s₃ _ => ?_
  rw [load_word_bind (by omega), ← htwo]
  refine bind_eq_lift_same put_eq fun _ s₄ _ => ?_
  rw [load_word_bind (by omega), ← height]
  refine bind_eq_lift_same put_eq fun _ s₅ _ => ?_
  rw [load_word_bind (by omega), ← hsixteen]
  exact put_eq

theorem call_fdPrestatGet_eq :
    call (.fdPrestatGet fd out) s = lift (Import.call (.fdPrestatGet fd out)) s := by
  refine bind_eq_lift_same rfl fun name s₁ hname => ?_
  obtain ⟨h, -, rfl⟩ := GuestM.host_eq_ok.mp hname
  refine bind_eq_lift_same putBytes_eq fun _ s₂ hzeros => ?_
  have hroom : out.toNat + 8 ≤ UInt32.size := Nat.le_trans (size_putBytes hzeros).2 hm
  have hfour : (out + 4).toNat = out.toNat + 4 := toNat_field hroom (by decide)
  refine bind_eq_lift_same put_eq fun _ s₃ _ => ?_
  rw [load_word_bind (by omega), ← hfour]
  exact put_eq

end Records

end Exact

end Buildbox
