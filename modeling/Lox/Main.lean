import Lox.CommandLine
import Std.Time.DateTime.Timestamp
/-!
# The program

What a program does is decided elsewhere, as a function of the arguments, of the bytes that are read
and of what the clock shows. Here the clock is set, files are opened, bytes are read, and the two
outputs are written.
-/

namespace Lox.CommandLine

-- powers of natural numbers are those of the core library, under any imports
attribute [local instance (2000)] instPowNat

/-- More steps than any process gets to. -/
def unbounded : Nat := 2 ^ (62 : Nat)

/-- A clock that starts at the present. -/
def presentClock : IO Clock := do
  let present := (← Std.Time.Timestamp.now).toMillisecondsSinceUnixEpoch.toInt
  return ⟨⟨fun taken slept => present + taken + slept, 0, 0⟩⟩

/-- Waits for as long as a program has slept. -/
def waitFor (clock : Clock) : IO Unit := IO.sleep clock.readings.slept.toUInt32

/-- What the system says about an access that failed. -/
def systemReason : IO.Error → String
  | .noFileOrDirectory _ code details
  | .permissionDenied _ code details
  | .inappropriateType _ code details
  | .invalidArgument _ code details
  | .resourceExhausted _ code details
  | .otherError code details => details ++ " (os error " ++ toString code ++ ")"
  | e => toString e

/-- Tries to read a file. -/
def readContents (path : String) : IO FileContents := do
  match ← (IO.FS.Handle.mk path .read).toBaseIO with
  | .error e => return .notOpened (systemReason e)
  | .ok handle =>
    match ← handle.readBinToEnd.toBaseIO with
    | .error e => return .notRead (systemReason e)
    | .ok contents => return .bytes contents

/-- Writes to both outputs. -/
def Transcript.write (t : Transcript) : IO Unit := do
  let out ← IO.getStdout
  out.putStr t.out
  out.flush
  IO.eprint t.err

/-- The bytes up to and with the next line end, or up to the end of the input. -/
partial def readLine (input : IO.FS.Stream) (line : ByteArray) : IO ByteArray := do
  let next ← input.read 1
  let line := line ++ next
  if next.isEmpty || next.toList = [10] then return line else readLine input line

/-- Answers lines until there are no more, or one is no text. -/
partial def answerLines (mode : Mode) (input : IO.FS.Stream) (session : Session) : IO UInt32 := do
  Transcript.write ⟨promptText, ""⟩
  let line ← readLine input ByteArray.empty
  if line.isEmpty then return 0
  match promptLine unbounded mode (session.timed (← presentClock)) line with
  | none => return 1
  | some (.error report) =>
    Transcript.write ⟨"", report⟩
    return 1
  | some (.ok response) =>
    response.transcript.write
    waitFor response.session.state.clock
    answerLines mode input response.session

/-- Writes what a process leaves behind. -/
def Outcome.write (o : Outcome) : IO UInt32 := do
  o.transcript.write
  return o.exitCode.toUInt32

/-- Does what was asked for. -/
def Request.answer (request : Request) : IO UInt32 := do
  if request.log then IO.FS.writeFile "app.log" ""
  match request.scripts with
  | [] =>
    answerLines request.mode (← IO.getStdin) (Session.fresh Sink.unlimited (← presentClock))
  | [path] =>
    match script unbounded (← presentClock) request.mode path (← readContents path) with
    | none => return 1
    | some outcome => outcome.write
  | _ => usage.write

end Lox.CommandLine

def main (arguments : List String) : IO UInt32 :=
  match Lox.CommandLine.Request.ofArguments? arguments with
  | some request => request.answer
  | none => do
    IO.eprintln "Usage: lox [--log] [--tokens | --ast] [script]"
    return 2
