import FiniteAutomata.Format.Document
import FiniteAutomata.Format.Error
import FiniteAutomata.Text.Decimal

/-!
Writing automaton files. Markers fill two columns, one space stands before every state number and
every field, and each line ends with a line feed.
-/

namespace FiniteAutomata.Format

open Text

def Header.render (h : Header) : List Char :=
  h.kind.name.toList ++ h.symbols.flatMap (fun s => ' ' :: s.toList) ++ ['\n']

def renderMarker (isInitial isFinal : Bool) : List Char :=
  match isInitial, isFinal with
  | true, true => ['<', '>']
  | true, false => [' ', '>']
  | false, true => [' ', '<']
  | false, false => [' ', ' ']

def renderField (targets : List StateId) : List Char :=
  if targets.isEmpty then ['-'] else ['|'].intercalate (targets.map Decimal.render)

def StateLine.render (l : StateLine) : List Char :=
  renderMarker l.isInitial l.isFinal ++ ' ' :: Decimal.render l.state ++
    l.targets.flatMap (fun qs => ' ' :: renderField qs) ++ ['\n']

def Document.render (d : Document) : String :=
  String.ofList (d.header.render ++ d.lines.flatMap (·.render))

def write (a : Automaton) : String := (Document.ofAutomaton a).render

/-- The file of an automaton, written to a place that takes `capacity` bytes and then fails. -/
def writeWithin (capacity : Nat) (reason : String) (a : Automaton) : Except Error String :=
  let text := write a
  if capacity < text.utf8ByteSize then .error (.stream (.failed reason)) else .ok text

end FiniteAutomata.Format
