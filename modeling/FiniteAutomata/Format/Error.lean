import FiniteAutomata.Automaton.Validation
import FiniteAutomata.Text.Lines

/-!
The faults of automaton files. Those of a state line carry its number, counting every line of the
file from 1.
-/

namespace FiniteAutomata.Format

inductive Error where
  /-- There is no line, or the first one is blank. -/
  | emptyFile
  | unknownKind (token : String)
  | duplicateSymbol (symbol : Symbol)
  | invalidStateLine (line : Nat)
  | fieldCount (line expected found : Nat)
  /-- A field is neither a hyphen nor numerals between bars. -/
  | invalidField (line : Nat) (field : String)
  /-- A numeral is above the largest state number. -/
  | invalidIndex (line : Nat) (text : String)
  | stream (fault : Text.StreamFault)
  | invalid (fault : Fault)
deriving DecidableEq

def Error.message : Error → String
  | .emptyFile => "The file is empty"
  | .unknownKind token => s!"Unknown automaton kind {token}, expected DFA or NFA"
  | .duplicateSymbol symbol => s!"Symbol {symbol} occurs more than once in the header"
  | .invalidStateLine line => s!"Line {line}: invalid state line"
  | .fieldCount line expected found =>
    s!"Line {line}: expected {expected} transition fields but found {found}"
  | .invalidField line field => s!"Line {line}: invalid transition field {field}"
  | .invalidIndex line text => s!"Line {line}: invalid state index {text}"
  | .stream fault => fault.message
  | .invalid fault => fault.message

end FiniteAutomata.Format
