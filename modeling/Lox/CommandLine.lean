import Lox.Program.Written
import Lox.Session
import Lox.Text.Quoted
import Lox.Text.Utf8
/-!
# The command line

The program runs one script, or the lines of a prompt one by one in a single session. Instead of
running a program it can list its tokens or write its tree. What goes to standard output and to
standard error is a function of the arguments, of the bytes that are read and of what the clock
shows; opening files and writing is left to the caller.
-/

namespace Lox

namespace CommandLine

/-- What is done with each program. -/
inductive Mode where
  | run
  | tokens
  | tree
  deriving Repr, DecidableEq

/-! ## Arguments -/

/-- What the arguments ask for. -/
structure Request where
  scripts : List String
  log : Bool
  tokens : Bool
  tree : Bool
  deriving Repr, DecidableEq

namespace Request

/-- Asks for a prompt. -/
def empty : Request := ⟨[], false, false, false⟩

def mode (r : Request) : Mode :=
  if r.tokens then .tokens else if r.tree then .tree else .run

/-- Adds a script. Its name may not be empty. -/
def addScript (r : Request) (name : String) : Option Request :=
  if name.isEmpty then none else some { r with scripts := r.scripts ++ [name] }

/-- Sets an option, each of which may be given once. Listing tokens excludes writing the tree. -/
def addOption (r : Request) (name : String) : Option Request :=
  match name with
  | "--log" => if r.log then none else some { r with log := true }
  | "--tokens" => if r.tokens || r.tree then none else some { r with tokens := true }
  | "--ast" => if r.tokens || r.tree then none else some { r with tree := true }
  | _ => none

/-- Adds arguments in order. A single hyphen is a script, and after a double one all are. -/
def addArguments (r : Request) : List String → Option Request
  | [] => some r
  | "--" :: scripts => scripts.foldlM addScript r
  | argument :: rest => do
    let isOption := argument.startsWith "-" && argument ≠ "-"
    let r ← if isOption then r.addOption argument else r.addScript argument
    r.addArguments rest

/-- Reads all arguments, if they make sense. -/
def ofArguments? (arguments : List String) : Option Request := empty.addArguments arguments

end Request

/-! ## One program -/

/-- What is written to the two outputs. -/
structure Transcript where
  out : String
  err : String
  deriving Repr, DecidableEq

/-- Texts, one on a line. -/
def lines (texts : List String) : String := String.join (texts.map (· ++ "\n"))

def diagnosticLines (faults : List Diagnostic) : String := lines (faults.map Diagnostic.text)

/-- The lines that report why a program was not run to its end. -/
def errorLines : RunError → String
  | .static faults => diagnosticLines faults
  | .runtime failure => lines [failure.text]

/-- What one program comes to. -/
structure Response where
  transcript : Transcript
  isSound : Bool
  session : Session

/-- Runs a program, if it ends within `limit` steps. -/
def runProgram (limit : Nat) (session : Session) (source : String) : Option Response := do
  let (session, result) ← session.run limit source
  let (printed, output) := session.state.output.drain
  let session := { session with state := { session.state with output } }
  return match result with
    | .ok () => ⟨⟨printed, ""⟩, true, session⟩
    | .error e@(.static _) => ⟨⟨printed, errorLines e⟩, false, session⟩
    | .error e@(.runtime _) => ⟨⟨printed, errorLines e⟩, true, session⟩

/-- Lists the tokens of a program. -/
def listTokens (session : Session) (source : String) : Response :=
  let faults := Source.faults source
  ⟨⟨lines ((Source.tokens source).map Token.listing), diagnosticLines faults⟩,
    faults.isEmpty, session⟩

/-- Writes the tree of a program. -/
def writeTree (session : Session) (source : String) : Response :=
  match session.parse source with
  | (.ok program, session) => ⟨⟨lines (program.map Stmt.written), ""⟩, true, session⟩
  | (.error faults, session) => ⟨⟨"", diagnosticLines faults⟩, false, session⟩

/-- Does with a program what the mode asks for. -/
def respond (limit : Nat) (mode : Mode) (session : Session) (source : String) : Option Response :=
  match mode with
  | .run => runProgram limit session source
  | .tokens => some (listTokens session source)
  | .tree => some (writeTree session source)

/-! ## Scripts -/

/-- What a process leaves behind. -/
structure Outcome where
  transcript : Transcript
  exitCode : Nat
  deriving Repr, DecidableEq

/-- What came of the attempt to read a file. -/
inductive FileContents where
  | bytes (contents : ByteArray)
  | notOpened (reason : String)
  | notRead (reason : String)

/-- The report of something that went wrong outside any program. -/
def trouble (context reason : String) : String :=
  "Error: " ++ context ++ "\n\nCaused by:\n    " ++ reason ++ "\n"

/-- The text of a script, or the report that it cannot be had. -/
def scriptText (path : String) : FileContents → Except String String
  | .notOpened reason => .error (trouble ("Failed to open file " ++ Text.quotedPath path) reason)
  | .notRead reason => .error (trouble ("Failed to read file " ++ Text.quotedPath path) reason)
  | .bytes contents =>
    match Text.decode contents with
    | .ok source => .ok source
    | .error malformed =>
      .error (trouble ("File " ++ Text.quotedPath path ++ " is not valid UTF-8") malformed.message)

/-- The exit code after a script. -/
def Response.exitCode (r : Response) : Nat := if r.isSound then r.session.exitCode else 65

/-- Does with a script what the mode asks for, in a session of its own. -/
def script (limit : Nat) (clock : Clock) (mode : Mode) (path : String) (file : FileContents) :
    Option Outcome :=
  match scriptText path file with
  | .error report => some ⟨⟨"", report⟩, 1⟩
  | .ok source => do
    let response ← respond limit mode (Session.fresh Sink.unlimited clock) source
    return ⟨response.transcript, response.exitCode⟩

/-- What is written if more than one script is given. -/
def usage : Outcome := ⟨⟨"Usage: lox [script]\n", ""⟩, 64⟩

/-! ## The prompt -/

/-- What is written before each line is read. -/
def promptText : String := "> "

/-- What is written if a line of the prompt is no text. -/
def badLine : String :=
  trouble "Failed to read from standard input" "stream did not contain valid UTF-8"

/-- What comes of one line of the prompt: a response, after which the errors are forgotten, or no
text. -/
def promptLine (limit : Nat) (mode : Mode) (session : Session) (line : ByteArray) :
    Option (Except String Response) :=
  match Text.decode line with
  | .error _ => some (.error badLine)
  | .ok source => do
    let response ← respond limit mode session source
    return .ok { response with session := response.session.resetErrors }

/-- Cuts bytes after each line end. -/
def splitLines (bytes : List UInt8) : List (List UInt8) :=
  bytes.foldr (fun b rest =>
    match rest with
    | [] => [[b]]
    | line :: lines => if b = 10 then [b] :: rest else (b :: line) :: lines) []

/-- Answers the lines of a prompt in one session, up to the last one or one that is no text. -/
def promptFrom (limit : Nat) (mode : Mode) (session : Session) (before : Transcript) :
    List (List UInt8) → Option Outcome
  | [] => some ⟨{ before with out := before.out ++ promptText }, 0⟩
  | line :: rest =>
    match promptLine limit mode session ⟨line.toArray⟩ with
    | none => none
    | some (.error report) => some ⟨⟨before.out ++ promptText, before.err ++ report⟩, 1⟩
    | some (.ok response) =>
      let after : Transcript :=
        ⟨before.out ++ promptText ++ response.transcript.out,
          before.err ++ response.transcript.err⟩
      promptFrom limit mode response.session after rest

/-- Answers all lines of an input. -/
def prompt (limit : Nat) (clock : Clock) (mode : Mode) (input : ByteArray) : Option Outcome :=
  promptFrom limit mode (Session.fresh Sink.unlimited clock) ⟨"", ""⟩ (splitLines input.toList)

end CommandLine

end Lox
