import Buildbox.Guest.Run
import Buildbox.Host.Listing

/-! A guest that lists a directory through one buffer, with as many calls as it takes. -/

namespace Buildbox

structure Lister where
  fd : Fd
  buffer : Address
  length : UInt32
  used : Address
  deriving DecidableEq, Repr, Inhabited

namespace Lister

def round (l : Lister) (cookie : UInt64) (s : GuestState) : Option (Bytes × GuestState) :=
  match GuestRun.callImport true (.fdReaddir l.fd l.buffer l.length cookie l.used) s with
  | (.ok 0, s) =>
    match GuestRun.look s.memory (.upTo l.buffer l.length.toNat l.used) with
    | .ok (.bytes bs) => some (bs, s)
    | _ => none
  | _ => none

def list (l : Lister) :
    (rounds : Nat) → (cookie : UInt64) → GuestState → Option (List Dirent × GuestState)
  | 0, _, _ => none
  | rounds + 1, cookie, s =>
    match l.round cookie s with
    | none => none
    | some (bs, s) =>
      let seen := Listing.wholeEntries bs
      if bs.length < l.length.toNat then some (seen, s)
      else
        let next := (seen.getLast?.map (·.next)).getD cookie
        (l.list rounds next s).map fun (more, s) => (seen ++ more, s)

end Lister

end Buildbox
