/-! The mailbox of a worker. Posted requests wait in a queue. One that is taken while another is
handled is dropped: its stream of replies closes empty. The stream of a handled request closes
only after the worker is free again. -/

namespace Buildbox

abbrev Ticket := Nat

structure Mailbox (α : Type) where
  posted : Nat := 0
  queue : List (Ticket × α) := []
  busy : Bool := false
  handling : List Ticket := []
  closing : List Ticket := []
  closed : List Ticket := []
  dropped : List Ticket := []
  deriving DecidableEq, Repr, Inhabited

namespace Mailbox

variable {α ρ τ : Type}

def post (m : Mailbox α) (request : α) : Ticket × Mailbox α :=
  (m.posted, { m with posted := m.posted + 1, queue := m.queue ++ [(m.posted, request)] })

def take (m : Mailbox α) : Option (Ticket × Option α) × Mailbox α :=
  match m.queue with
  | [] => (none, m)
  | (ticket, request) :: queue =>
    -- A request that meets a busy worker is taken, and nobody handles it.
    if m.busy then (some (ticket, none), { m with queue, dropped := m.dropped ++ [ticket] })
    else
      (some (ticket, some request),
        { m with queue, busy := true, handling := m.handling ++ [ticket] })

def release (m : Mailbox α) (ticket : Ticket) : Mailbox α :=
  if ticket ∈ m.handling then
    { m with busy := false, handling := m.handling.erase ticket, closing := m.closing ++ [ticket] }
  else m

def close (m : Mailbox α) (ticket : Ticket) : Mailbox α :=
  if ticket ∈ m.closing then
    { m with closing := m.closing.erase ticket, closed := m.closed ++ [ticket] }
  else m

inductive Action (α : Type) where
  | post (request : α)
  | take
  | release (ticket : Ticket)
  | close (ticket : Ticket)
  deriving DecidableEq, Repr, Inhabited

def act (m : Mailbox α) : Action α → Mailbox α
  | .post request => (m.post request).2
  | .take => m.take.2
  | .release ticket => m.release ticket
  | .close ticket => m.close ticket

def takeUpTo (m : Mailbox α) : Nat → List (Ticket × Option α) × Mailbox α
  | 0 => ([], m)
  | n + 1 =>
    match m.take with
    | (none, m) => ([], m)
    | (some taken, m) =>
      let (rest, m) := m.takeUpTo n
      (taken :: rest, m)

def handleAll (handle : α → τ → List ρ × τ) :
    List (Ticket × Option α) → Mailbox α → τ → List (List ρ) × Mailbox α × τ
  | [], m, s => ([], m, s)
  | (_, none) :: rest, m, s =>
    let (replies, m, s) := handleAll handle rest m s
    ([] :: replies, m, s)
  | (ticket, some request) :: rest, m, s =>
    let (now, s) := handle request s
    let (replies, m, s) := handleAll handle rest ((m.release ticket).close ticket) s
    (now :: replies, m, s)

def serve (handle : α → τ → List ρ × τ) (m : Mailbox α) (s : τ) : List (List ρ) × Mailbox α × τ :=
  let (taken, m) := m.takeUpTo m.queue.length
  handleAll handle taken m s

def answerAll (handle : α → τ → List ρ × τ) (requests : List α) (m : Mailbox α) (s : τ) :
    List (List ρ) × Mailbox α × τ :=
  (requests.foldl (fun m request => (m.post request).2) m).serve handle s

def answer (handle : α → τ → List ρ × τ) (request : α) (m : Mailbox α) (s : τ) :
    List ρ × Mailbox α × τ :=
  let (replies, m, s) := m.answerAll handle [request] s
  (replies.getLast?.getD [], m, s)

end Mailbox

end Buildbox
