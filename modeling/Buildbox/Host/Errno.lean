/-! The codes that host calls answer to a guest. -/

namespace Buildbox

inductive Errno where
  | badf
  | exist
  | fault
  | fbig
  | ilseq
  | inval
  | isdir
  | noent
  | nosys
  | notdir
  | notempty
  | notsup
  | spipe
  | notcapable
  deriving DecidableEq, Repr, Inhabited

namespace Errno

def code : Errno → Nat
  | badf => 8
  | exist => 20
  | fault => 21
  | fbig => 22
  | ilseq => 25
  | inval => 28
  | isdir => 31
  | noent => 44
  | nosys => 52
  | notdir => 54
  | notempty => 55
  | notsup => 58
  | spipe => 70
  | notcapable => 76

theorem code_ne_zero (e : Errno) : e.code ≠ 0 := by
  cases e <;> decide

end Errno

/-- Why a host call answers no value. A guest is told a code. Where a file would be longer than any
byte string can be it is told nothing: its run is over, and nothing of the host is kept. -/
inductive Refusal where
  | errno (e : Errno)
  | overlong
  deriving DecidableEq, Repr, Inhabited

instance : Coe Errno Refusal := ⟨.errno⟩

end Buildbox
