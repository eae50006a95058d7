/-!
# Output with an optional limit

A sink keeps what is written up to its limit. A write that does not fit stores what does and fails,
so the stored bytes are always a prefix of what was written.
-/

namespace Pds1

/-- A write did not fit. -/
inductive WriteError where
  | full
  deriving DecidableEq

def WriteError.message : WriteError → String
  | full => "failed to write whole buffer"

structure Sink where
  /-- Number of bytes accepted in all. -/
  limit : Option Nat := none
  bytes : Array UInt8 := #[]
  deriving DecidableEq

namespace Sink

/-- Whether `n` more bytes fit. -/
def fits (s : Sink) (n : Nat) : Bool := s.limit.all fun limit => s.bytes.size + n ≤ limit

/-- Stores what fits and tells whether that was everything. -/
def write (s : Sink) (data : Array UInt8) : Except WriteError Unit × Sink :=
  if s.fits data.size then (.ok (), { s with bytes := s.bytes ++ data })
  else
    (.error .full, { s with
      bytes := s.bytes ++ data.extract 0 (s.limit.getD 0 - s.bytes.size) })

def writeText (s : Sink) (text : String) : Except WriteError Unit × Sink :=
  s.write text.toUTF8.data

@[simp] theorem limit_write (s : Sink) (data : Array UInt8) :
    (s.write data).2.limit = s.limit := by
  rw [write]
  split <;> rfl

end Sink

end Pds1
