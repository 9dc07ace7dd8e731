import FiniteAutomata.Format.Document
import FiniteAutomata.Format.Error
import FiniteAutomata.Text.Blank
import FiniteAutomata.Text.Decimal

/-!
Reading automaton files. The first line is the header, such as `DFA a b`; each later line is blank or
describes a state, such as `<> 0 1|2 -`. The first fault in the order of the lines is the answer, and
the automaton is validated only after the last line.
-/

namespace FiniteAutomata.Format

open Text

def kindOfName? (name : String) : Option Kind :=
  if name = Kind.dfa.name then some .dfa else if name = Kind.nfa.name then some .nfa else none

/-- The first element that occurs in `seen` or before. -/
def firstRepeat? (seen : List Symbol) : List Symbol → Option Symbol
  | [] => none
  | s :: symbols => if s ∈ seen then some s else firstRepeat? (s :: seen) symbols

/-- The header on a line: the kind, then distinct symbols, with blanks between them. -/
def Header.parse (line : String) : Except Error Header :=
  match (tokens line.toList).map String.ofList with
  | [] => .error .emptyFile
  | name :: symbols =>
    match kindOfName? name with
    | none => .error (.unknownKind name)
    | some kind =>
      match firstRepeat? [] symbols with
      | some s => .error (.duplicateSymbol s)
      | none => .ok { kind, symbols }

/-- The marks at the start of a text, initial first, and what follows the marker. -/
def splitMarker : List Char → (Bool × Bool) × List Char
  | '<' :: '>' :: rest => ((true, true), rest)
  | '>' :: '<' :: rest => ((true, true), rest)
  | '>' :: rest => ((true, false), rest)
  | '<' :: rest => ((false, true), rest)
  | rest => ((false, false), rest)

def parseIndex (number : Nat) (numeral : List Char) : Except Error StateId :=
  match Decimal.parse? numeral with
  | some q => .ok q
  | none => .error (.invalidIndex number (String.ofList numeral))

/-- The targets in a field: none for a hyphen, else the numerals between bars. -/
def parseField (number : Nat) (field : List Char) : Except Error (List StateId) :=
  if field = ['-'] then .ok []
  else
    let numerals := field.splitOn '|'
    if numerals.all Decimal.isNumeral then numerals.mapM (parseIndex number)
    else .error (.invalidField number (String.ofList field))

/-- The state line in a text: an optional marker, a state number and, after blanks, `width` fields. -/
def StateLine.parse (width number : Nat) (text : List Char) : Except Error StateLine := do
  let ((isInitial, isFinal), rest) := splitMarker (trimStart text)
  let numeral := (trimStart rest).takeWhile Char.isDigit
  let rest := (trimStart rest).dropWhile Char.isDigit
  if numeral.isEmpty || rest.head?.any (!isBlank ·) then
    throw (.invalidStateLine number)
  let state ← parseIndex number numeral
  let fields := tokens rest
  if fields.length ≠ width then
    throw (.fieldCount number width fields.length)
  let targets ← fields.mapM (parseField number)
  return { isInitial, isFinal, state, targets }

/-- The state lines in texts of which the first has the number `number`; blank ones are skipped. -/
def parseLines (width number : Nat) : List String → Except Error (List StateLine)
  | [] => .ok []
  | text :: texts =>
    if text.toList.all isBlank then parseLines width (number + 1) texts
    else do
      let line ← StateLine.parse width number text.toList
      let lines ← parseLines width (number + 1) texts
      return line :: lines

/-- The document in a stream of lines. A fault of the stream counts after those of its lines. -/
def Document.parse (stream : LineStream) : Except Error Document :=
  match stream.lines with
  | [] => .error (stream.stop.elim .emptyFile .stream)
  | first :: texts => do
    let header ← Header.parse first
    let lines ← parseLines header.symbols.length 2 texts
    match stream.stop with
    | some fault => throw (.stream fault)
    | none => return { header, lines }

def read (source : ByteSource) : Except Error Automaton := do
  let document ← Document.parse (.ofSource source)
  match document.automaton.validate with
  | .ok () => return document.automaton
  | .error fault => throw (.invalid fault)

end FiniteAutomata.Format
