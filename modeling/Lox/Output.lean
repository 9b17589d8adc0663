import Lox.Failure
/-!
# Output

What programs print is collected in a sink. A sink may have a limit: once it has taken that many
line ends it refuses every further piece. A piece is taken whole or not at all.
-/

namespace Lox

structure Sink where
  text : String
  lines : Nat
  limit : Option Nat
  refusesFlush : Bool
  deriving DecidableEq

namespace Sink

/-- An empty sink that takes everything. -/
def unlimited : Sink := ⟨"", 0, none, false⟩

def isFull (s : Sink) : Bool := s.limit.any (· ≤ s.lines)

/-- Adds a piece of text to a sink that is not full. -/
def add (s : Sink) (piece : String) : Sink :=
  { s with text := s.text ++ piece, lines := s.lines + piece.toList.count '\n' }

/-- Adds a text and then a line end, each if the sink is not full. If the line end is refused the
text stays. -/
def writeLine (s : Sink) (line : String) : Sink × Option SinkFault :=
  if s.isFull then (s, some .full)
  else
    let s := s.add line
    if s.isFull then (s, some .full) else (s.add "\n", none)

/-- What a flush meets. -/
def flush (s : Sink) : Option SinkFault := if s.refusesFlush then some .flushRefused else none

/-- Takes the collected text out. The count of lines goes on. -/
def drain (s : Sink) : String × Sink := (s.text, { s with text := "" })

end Sink

end Lox
