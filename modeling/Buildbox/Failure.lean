import Buildbox.Tree.Mount

/-! What can go wrong, by cause, and the text that reports it. -/

namespace Buildbox

inductive FetchReason where
  | notFound
  | status (code : Nat) (phrase : String)
  | other (detail : String)
  deriving DecidableEq, Repr, Inhabited

def FetchReason.message : FetchReason → String
  | notFound => "not found"
  | status code phrase => "HTTP " ++ toString code ++ " " ++ phrase
  | other detail => detail

inductive ArchiveFault where
  | shortEntry (path : String) (declared held : Nat)
  | conflict (c : PathConflict)
  | malformed (detail : String)
  deriving DecidableEq, Repr, Inhabited

def ArchiveFault.message : ArchiveFault → String
  | shortEntry path declared held =>
    path ++ ": header declares " ++ toString declared ++ " bytes, archive holds " ++ toString held
  | conflict c => "Path conflict in virtual filesystem: " ++ c.message
  | malformed detail => detail

inductive ConfigFault where
  | blank (key : String)
  | extension (key ext : String)
  | sameExtension
  | noEntryPoint
  | unreadable (path detail : String)
  | malformed (detail : String)
  deriving DecidableEq, Repr, Inhabited

def ConfigFault.message : ConfigFault → String
  | blank key => key ++ " must not be empty"
  | extension key ext => key ++ " must be a bare extension, got " ++ Text.quoted ext
  | sameExtension => "transpile.source_ext and transpile.target_ext must differ"
  | noEntryPoint => "execute.entry_points needs at least one name"
  | unreadable path detail => "cannot read " ++ path ++ ": " ++ detail
  | malformed detail => detail

inductive Failure where
  | fetch (url : String) (reason : FetchReason)
  | archive (url : String) (fault : ArchiveFault)
  | transpile (filename stderr : String)
  | compile (diagnostics : String)
  | compileCrash (detail : String)
  | instantiate (detail : String)
  | busy (stage : String)
  | workerGone (worker : String)
  | fileNotFound (path : String)
  | pathConflict (c : PathConflict)
  | duplicateMount (name : String)
  | config (fault : ConfigFault)
  | io (detail : String)
  | encoding (detail : String)
  deriving DecidableEq, Repr, Inhabited

namespace Failure

def ofMount : MountError → Failure
  | .duplicate name => .duplicateMount name
  | .missing name => .fileNotFound ("mount " ++ name)
  | .conflict c => .pathConflict c

def isBusy : Failure → Bool
  | busy _ => true
  | _ => false

def message : Failure → String
  | fetch url reason => "Fetch failed for " ++ url ++ ": " ++ reason.message
  | archive url fault => "Malformed archive " ++ url ++ ": " ++ fault.message
  | transpile filename stderr => "Transpile failed for " ++ filename ++ ": " ++ stderr
  | compile _ => "Compilation failed"
  | compileCrash detail => "Compiler crashed: " ++ detail
  | instantiate detail => "Sandbox instantiation failed: " ++ detail
  | busy stage => "Stage busy: " ++ stage
  | workerGone worker => "Worker unavailable: " ++ worker
  | fileNotFound path => "Virtual file not found: " ++ path
  | pathConflict c => "Path conflict in virtual filesystem: " ++ c.message
  | duplicateMount name => "Duplicate mount point: " ++ name
  | config fault => "Configuration error: " ++ fault.message
  | io detail => "IO error: " ++ detail
  | encoding detail => "Serialization error: " ++ detail

end Failure

end Buildbox
