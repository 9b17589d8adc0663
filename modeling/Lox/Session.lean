import Lox.Machine.Step
import Lox.Program.Parser
import Lox.Program.Scoping
import Lox.Source
/-!
# Sessions

A session runs one program after another on one state: what a program defines at the top level is
there for the next one, and functions of earlier programs stay alive. References are numbered on
and on, so that the addresses of all programs fit in one table.

A program that is statically at fault is not run at all. The session remembers whether any program
was at fault, statically or while it ran, until it is told to forget.
-/

namespace Lox

/-- Why a program was not run to its end. -/
inductive RunError where
  | static (faults : List Diagnostic)
  | runtime (failure : Failure)
  deriving DecidableEq

namespace RunError

def text : RunError → String
  | static faults => toString faults.length ++ " static error(s)"
  | runtime failure => failure.text

/-- The exit code of a process that ends with the error. -/
def exitCode : RunError → Nat
  | static _ => 65
  | runtime _ => 70

end RunError

structure Session where
  state : State
  /-- The number of the next reference. -/
  nextId : Nat
  hadStaticError : Bool
  hadRuntimeError : Bool

namespace Session

/-- A session that has run nothing. -/
def fresh (output : Sink) (clock : Clock) : Session :=
  ⟨State.initial output clock, 0, false, false⟩

/-- The session with another clock, and so with other times to read. -/
def timed (s : Session) (clock : Clock) : Session := { s with state := { s.state with clock } }

/-- Forgets the errors of the programs so far, and nothing else. -/
def resetErrors (s : Session) : Session :=
  { s with hadStaticError := false, hadRuntimeError := false }

/-- The exit code of a process that ends with the session. A static error outweighs others. -/
def exitCode (s : Session) : Nat :=
  if s.hadStaticError then 65 else if s.hadRuntimeError then 70 else 0

/-- Reads a program without running it. Numbers of references are used up in any case. -/
def parse (s : Session) (source : String) : Except (List Diagnostic) (List Stmt) × Session :=
  let outcome := parseProgram (Source.tokens source) s.nextId
  let lexical := Source.faults source
  let result :=
    match outcome.result with
    | .ok program => if lexical.isEmpty then .ok program else .error lexical
    | .error faults => .error (lexical ++ faults)
  (result, { s with nextId := outcome.nextId })

/-- Ends a run before it has begun. -/
def rejected (s : Session) (faults : List Diagnostic) : Session × Except RunError Machine :=
  ({ s with hadStaticError := true }, .error (.static faults))

/-- Reads and checks a program, and makes a machine that is about to run it. -/
def load (s : Session) (source : String) : Session × Except RunError Machine :=
  match s.parse source with
  | (.error faults, s) => s.rejected faults
  | (.ok program, s) =>
    let found := Scoping.ofProgram program
    let s := { s with state := s.state.noteAddresses found.addresses }
    if found.faults.isEmpty then (s, .ok (Machine.ofProgram program s.state))
    else s.rejected found.faults

/-- Takes over what a halted machine leaves behind. -/
def conclude (s : Session) (c : Completion) (st : State) : Session × Except RunError Unit :=
  match c with
  | .raised failure =>
    ({ s with state := st, hadRuntimeError := true }, .error (.runtime failure))
  | _ => ({ s with state := st }, .ok ())

/-- Runs a program, if it ends within `limit` steps. -/
def run (s : Session) (limit : Nat) (source : String) : Option (Session × Except RunError Unit) :=
  match s.load source with
  | (s, .error e) => some (s, .error e)
  | (s, .ok machine) =>
    let machine := machine.run limit
    machine.result?.map fun c => s.conclude c machine.state

end Session

end Lox
