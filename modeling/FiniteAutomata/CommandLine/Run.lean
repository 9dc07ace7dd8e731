import FiniteAutomata.CommandLine.Arguments
import FiniteAutomata.CommandLine.Report
import FiniteAutomata.Format.Reader
import FiniteAutomata.Format.Writer
import FiniteAutomata.Stopwatch

/-!
Runs of the command line. The jobs are done one after another: each one loads its operands, computes,
asks where to put the result, and writes it there. The first failure ends the run.
-/

namespace FiniteAutomata.CommandLine

open Text

structure Host (m : Type → Type) where
  openFile : String → m (Except String ByteSource)
  /-- Creates a file or empties it, and writes a text to it. -/
  saveFile : String → String → m (Except String Unit)
  print : String → m Unit
  tell : String → m Unit
  /-- Reads a line of the input, or an empty text at its end. -/
  readLine : m (Except StreamFault String)
  /-- The time in milliseconds. -/
  now : m Nat

section

variable {m : Type → Type} [Monad m] (host : Host m)

def load (path : String) : ExceptT Report m Automaton := do
  match ← host.openFile path with
  | .error reason => throw { message := s!"Cannot open {path}", causes := [reason] }
  | .ok source =>
    match Format.read source with
    | .error error =>
      throw { message := s!"Cannot read automaton from {path}", causes := [error.message] }
    | .ok a => return a

def reported (result : Except OperationFailure Automaton) : ExceptT Report m Automaton :=
  match result with
  | .error failure => throw { message := failure.message }
  | .ok a => return a

/-- The result of a job. The left operand is loaded first. -/
def compute (limit : Option Nat) : Job → ExceptT Report m Automaton
  | .binary operation left right => do
    let a ← load host left
    let b ← load host right
    reported (operation.apply limit a b)
  | .unary operation input => do
    let a ← load host input
    reported (operation.apply limit a)

def question (job : Job) : String :=
  s!"Enter the name of the file to save the result of the {job.describe}, or press enter to print to stdout:"

/-- Asks for the path of the file for the result of a job. An empty path stands for the output. -/
def askPath (job : Job) : ExceptT Report m String := do
  host.tell (question job)
  match ← host.readLine with
  | .error fault => throw { message := fault.message }
  | .ok line => return String.ofList (trim line.toList)

def put (path : String) (a : Automaton) : ExceptT Report m Unit := do
  if path.isEmpty then host.print (Format.write a)
  else match ← host.saveFile path (Format.write a) with
    | .error reason => throw { message := s!"Cannot create {path}", causes := [reason] }
    | .ok () => return ()

def runJob (limit : Option Nat) (watch : Stopwatch) (job : Job) : ExceptT Report m Stopwatch := do
  let number := watch.steps.length
  let watch := watch.start job.name (← host.now)
  let a ← (compute host limit job).adapt (·.within s!"The {job.describe} failed")
  let watch := watch.finish number (← host.now)
  put host (← askPath host job) a
  return watch

/-- Does the jobs of an invocation and answers with the exit status: 0, or 1 after a failure. -/
def run (i : Invocation) : m Nat := do
  match ← (i.jobs.foldlM (runJob host i.limit) {}).run with
  | .error report =>
    host.tell report.render
    return 1
  | .ok watch =>
    if i.timed then watch.laps.forM fun lap => host.tell lap.describe
    return 0

end

end FiniteAutomata.CommandLine
