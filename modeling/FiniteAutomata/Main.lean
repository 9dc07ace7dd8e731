import FiniteAutomata.CommandLine.Run

/-!
The program: the command line on the files and the terminal of the system.
-/

namespace FiniteAutomata.Main

open CommandLine Text

def describe (e : IO.Error) : String :=
  match e with
  | .noFileOrDirectory _ code details => s!"{details} (os error {code})"
  | .permissionDenied _ code details => s!"{details} (os error {code})"
  | .inappropriateType _ code details => s!"{details} (os error {code})"
  | .resourceExhausted _ code details => s!"{details} (os error {code})"
  | .invalidArgument _ code details => s!"{details} (os error {code})"
  | _ => toString e

def attempt {α : Type} (action : IO α) : IO (Except String α) := do
  try
    return .ok (← action)
  catch e =>
    return .error (describe e)

/-- Opens a file and reads it to its end, or as far as it can be read. -/
def openFile (path : String) : IO (Except String ByteSource) := do
  match ← attempt (IO.FS.Handle.mk path .read) with
  | .error reason => return .error reason
  | .ok handle =>
    match ← attempt handle.readBinToEnd with
    | .error reason => return .ok { bytes := [], failure := some reason }
    | .ok bytes => return .ok { bytes := bytes.data.toList }

def saveFile (path text : String) : IO (Except String Unit) := attempt do
  let handle ← IO.FS.Handle.mk path .write
  handle.putStr text
  handle.flush

def readLine : IO (Except StreamFault String) := do
  let input ← IO.getStdin
  try
    return .ok (← input.getLine)
  catch _ =>
    return .error .notUtf8

def systemHost : Host IO where
  openFile := openFile
  saveFile := saveFile
  print text := do
    let output ← IO.getStdout
    output.putStr text
    output.flush
  tell text := IO.eprintln text
  readLine := readLine
  now := IO.monoMsNow

end FiniteAutomata.Main

/-- Runs the command line. A refused one has the exit status 2. -/
def main (arguments : List String) : IO UInt32 := do
  match FiniteAutomata.CommandLine.Invocation.parse arguments with
  | .error e =>
    IO.eprintln e.message
    return 2
  | .ok invocation =>
    return UInt32.ofNat (← FiniteAutomata.CommandLine.run FiniteAutomata.Main.systemHost invocation)
