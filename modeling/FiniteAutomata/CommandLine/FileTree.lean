import FiniteAutomata.SortedMap
import FiniteAutomata.SortedSet
import FiniteAutomata.Text.Lines

/-!
A tree of files and directories, with a working directory. Paths are looked up step by step, from the
root when they begin with a slash and from the working directory otherwise, and every step but the last
one has to lead to a directory. There are no links, and everything may be read and written.
-/

namespace FiniteAutomata.CommandLine

open Text

inductive SystemError where
  | noSuchFile
  | notDirectory
  | isDirectory
  | nameTooLong
  | nulInName
deriving DecidableEq

def SystemError.message : SystemError → String
  | .noSuchFile => "No such file or directory (os error 2)"
  | .notDirectory => "Not a directory (os error 20)"
  | .isDirectory => "Is a directory (os error 21)"
  | .nameTooLong => "File name too long (os error 36)"
  | .nulInName => "file name contained an unexpected NUL byte"

/-- The names on the way from the root to a file or a directory. -/
abbrev Location := List String

/-- The files, with their bytes, the directories other than the root, and the directory from which
paths are looked up. -/
structure FileTree where
  files : SortedMap Location (List UInt8) := ∅
  directories : SortedSet Location := ∅
  working : Location := []

namespace FileTree

/-- The tree with a directory and those around it. -/
def addDirectory (t : FileTree) (location : Location) : FileTree :=
  let around := (List.range location.length).map fun n => location.take (n + 1)
  { t with directories := t.directories ∪ .ofList around }

/-- The tree with a file of some bytes, and with the directories around it. -/
def addFile (t : FileTree) (location : Location) (bytes : List UInt8) : FileTree :=
  let t := t.addDirectory location.dropLast
  { t with files := t.files.insert location bytes }

/-- The tree that holds nothing but a working directory and the directories around it. -/
def ofWorking (location : Location) : FileTree := addDirectory { working := location } location

/-- The files in the working directory and in those below it, at their locations from there. -/
def workingFiles (t : FileTree) : List (Location × List UInt8) :=
  t.files.entries.filterMap fun file =>
    (t.working.isPrefixOf? file.1).map fun location => (location, file.2)

def isDirectory (t : FileTree) (location : Location) : Bool :=
  location.isEmpty || decide (location ∈ t.directories)

def checkDirectory (t : FileTree) (location : Location) : Except SystemError Unit :=
  if t.isDirectory location then .ok ()
  else if (t.files.find? location).isSome then .error .notDirectory
  else .error .noSuchFile

/-- The location that is reached from another one by some steps. A step can be taken from a directory
only; an empty one and a dot stay there, and two dots go back, though not beyond the root. -/
def walk (t : FileTree) (location : Location) : List String → Except SystemError Location
  | [] => .ok location
  | step :: steps => do
    t.checkDirectory location
    if step = "" ∨ step = "." then t.walk location steps
    else if step = ".." then t.walk location.dropLast steps
    else if 255 < step.utf8ByteSize then throw .nameTooLong
    else t.walk (location ++ [step]) steps

def steps (path : String) : Except SystemError (List String) :=
  if path.toList.contains '\x00' then .error .nulInName
  else if 4095 < path.utf8ByteSize then .error .nameTooLong
  else if path = "" then .error .noSuchFile
  else .ok ((path.toList.splitOn '/').map String.ofList)

/-- The directory in which the steps of a path begin. -/
def origin (t : FileTree) (path : String) : Location :=
  if path.toList.head? = some '/' then [] else t.working

/-- The bytes of the file at a path. A directory can be opened, and fails when it is read. -/
def openFile (t : FileTree) (path : String) : Except SystemError ByteSource := do
  let location ← t.walk (t.origin path) (← steps path)
  if t.isDirectory location then
    return { bytes := [], failure := some SystemError.isDirectory.message }
  match t.files.find? location with
  | some bytes => return { bytes }
  | none => throw .noSuchFile

/-- The tree with some bytes as the file at a path, in place of what that file held. The path has to
end with the name of a file in a directory that exists. What is wrong with the way to that directory
counts before what is wrong with the name. -/
def saveFile (t : FileTree) (path : String) (bytes : List UInt8) : Except SystemError FileTree := do
  let backwards := (← steps path).reverse
  let names := backwards.dropWhile (· = "")
  let around ← t.walk (t.origin path) (names.drop 1).reverse
  t.checkDirectory around
  let name := names.head?.getD ""
  if names.length < backwards.length ∨ name = "." ∨ name = ".." then
    throw .isDirectory
  let location ← t.walk around [name]
  if t.isDirectory location then
    throw .isDirectory
  return { t with files := t.files.insert location bytes }

end FileTree

end FiniteAutomata.CommandLine
