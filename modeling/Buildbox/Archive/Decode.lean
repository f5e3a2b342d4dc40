import Buildbox.Archive.Gzip
import Buildbox.Archive.Tar
import Buildbox.Failure

/-! Archives as directory trees. -/

namespace Buildbox.Archive

def trimDots : List Char → List Char
  | '.' :: '/' :: rest => trimDots rest
  | cs => cs

/-- The path of an entry below the wanted part of an archive, if it lies there. -/
def keptPath? (only : Option String) (path : Bytes) : Option String :=
  let path := trimDots (Utf8.lossy path)
  match only with
  | none => some (String.ofList path)
  | some lead => (Text.dropLeading? lead.toList path).map String.ofList

def addEntry (only : Option String) (d : Directory) (e : Tar.Entry) :
    Except ArchiveFault Directory :=
  match keptPath? only e.path with
  | none => .ok d
  | some path =>
    let segments := Path.segments path
    if segments = [] then .ok d
    else match e.kind with
      | .directory =>
        match d.ensureDir segments path with
        | (.ok _, d) => .ok d
        | (.error c, _) => .error (.conflict c)
      | .file =>
        if e.data.length ≠ e.size then .error (.shortEntry path e.size e.data.length)
        else match d.insertFile path e.data with
          | (.ok (), d) => .ok d
          | (.error c, _) => .error (.conflict c)
      | _ => .ok d

def addEntries (only : Option String) (d : Directory) (es : List Tar.Entry) :
    Except ArchiveFault Directory :=
  es.foldlM (addEntry only) d

/-- The tree of a container. With `only`, entries elsewhere are left out and that part of the
path is taken off. -/
def ofTar (bs : Bytes) (only : Option String) : Except ArchiveFault Directory := do
  let (es, fault) := Tar.entries bs
  let d ← addEntries only .empty es
  match fault with
  | none => return d
  | some detail => throw (.malformed detail)

def unpack (bs : Bytes) : Except ArchiveFault Bytes :=
  if Gzip.isGzip bs then
    (Gzip.decompress bs).mapError fun fault => .malformed fault.message
  else .ok bs

def decode (url : String) (bs : Bytes) (only : Option String) : Except Failure Directory :=
  match unpack bs with
  | .error fault => .error (.archive url fault)
  | .ok content =>
    match ofTar content only with
    | .ok d => .ok d
    | .error fault => .error (.archive url fault)

end Buildbox.Archive
