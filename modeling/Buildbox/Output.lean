import Buildbox.Text.Stream

/-! Where the output of a sandboxed program goes. -/

namespace Buildbox

inductive Channel where
  | diagnostic
  | preview
  deriving DecidableEq, Repr, Inhabited

structure OutputChunk where
  channel : Channel
  text : String
  deriving DecidableEq, Repr, Inhabited

inductive Redirect where
  | discard
  | capture
  | forward (channel : Channel)
  deriving DecidableEq, Repr, Inhabited

structure OutputSink where
  redirect : Redirect
  decoder : Utf8.StreamDecoder := {}
  captured : String := ""
  bytesWritten : UInt64 := 0
  deriving DecidableEq, Repr, Inhabited

namespace OutputSink

def emit (s : OutputSink) (text : String) : OutputSink × List OutputChunk :=
  if text = "" then (s, [])
  else match s.redirect with
    | .discard => (s, [])
    | .capture => ({ s with captured := s.captured ++ text }, [])
    | .forward channel => (s, [⟨channel, text⟩])

def write (s : OutputSink) (bytes : Bytes) : OutputSink × List OutputChunk :=
  let s := { s with bytesWritten := s.bytesWritten + UInt64.ofNat bytes.length }
  if s.redirect = .discard then (s, [])
  else
    let (text, decoder) := s.decoder.decode bytes
    emit { s with decoder } text

def finish (s : OutputSink) : String × List OutputChunk :=
  let (text, decoder) := s.decoder.finish
  let (s, chunks) := emit { s with decoder } text
  (s.captured, chunks)

end OutputSink

end Buildbox
