import FiniteAutomata.CommandLine.FileTree
import FiniteAutomata.CommandLine.Run

/-!
Runs as functions. A world holds all that a run can read and change, and no time passes in it.
-/

namespace FiniteAutomata.CommandLine

open Text

/-- The files around a run. A run can open and read a file, and it can create or empty one and write to it. -/
class FileSystem (τ : Type) where
  openFile : τ → String → Except String ByteSource
  /-- Puts some bytes into the file at a path, or tells why this file cannot be created. -/
  saveFile : τ → String → List UInt8 → Except String Unit × τ

instance : FileSystem FileTree where
  openFile tree path := (tree.openFile path).mapError (·.message)
  saveFile tree path bytes :=
    match tree.saveFile path bytes with
    | .ok saved => (.ok (), saved)
    | .error e => (.error e.message, tree)

/-- The surroundings of a run: the files, what is left of the input, and all that has been written. -/
structure World (τ : Type) where
  tree : τ
  input : LineStream := { lines := [] }
  output : String := ""
  diagnostics : List String := []

variable {τ : Type}

namespace World

/-- The next line of the input, or the fault or the end after the last one. -/
def nextLine (w : World τ) : Except StreamFault String × World τ :=
  match w.input.lines, w.input.stop with
  | line :: lines, stop => (.ok line, { w with input := { lines, stop } })
  | [], some fault => (.error fault, w)
  | [], none => (.ok "", w)

def host [FileSystem τ] : Host (StateM (World τ)) where
  openFile path := fun w => (FileSystem.openFile w.tree path, w)
  saveFile path text := fun w =>
    let (answer, tree) := FileSystem.saveFile w.tree path text.toUTF8.data.toList
    (answer, { w with tree })
  print text := fun w => ((), { w with output := w.output ++ text })
  tell text := fun w => ((), { w with diagnostics := w.diagnostics ++ [text] })
  readLine := nextLine
  now := pure 0

end World

def runIn [FileSystem τ] (w : World τ) (i : Invocation) : Nat × World τ := (run World.host i).run w

end FiniteAutomata.CommandLine
