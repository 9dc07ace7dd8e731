import FiniteAutomata.CommandLine.Job
import FiniteAutomata.Text.Decimal

/-!
The arguments of the command line. Options may come in any order and those of operations may be
repeated. The options are recorded one by one, each with the indices of its values, and the indices
give the order in which the jobs were asked for. There is no option that prints a help text.
-/

namespace FiniteAutomata.CommandLine

open Text

structure Invocation where
  jobs : List Job := []
  limit : Option Nat := none
  timed : Bool := false
deriving DecidableEq

inductive UsageError where
  | nothingGiven
  | unknownOption (argument : String)
  | unexpectedValue (value : String)
  | missingValue (name : String)
  | repeatedOption (name : String)
  | invalidValue (name value : String)
deriving DecidableEq

def UsageError.message : UsageError → String
  | .nothingGiven => "error: no arguments were given"
  | .unknownOption argument => s!"error: unknown option {argument}"
  | .unexpectedValue value => s!"error: unexpected value {value}"
  | .missingValue name => s!"error: wrong number of values for --{name}"
  | .repeatedOption name => s!"error: --{name} may be given only once"
  | .invalidValue name value => s!"error: invalid value {value} for --{name}"

/-- An argument by its form. -/
inductive Word where
  /-- Two hyphens alone, after which every argument is a value. -/
  | separator
  /-- Two hyphens and a name, perhaps with an equals sign and a value. -/
  | option (name : String) (attached : Option String)
  /-- One hyphen and something else. -/
  | cluster (argument : String)
  | value (text : String)
deriving DecidableEq

/-- The option after two hyphens, with the value behind its equals sign, if there is one. -/
def Word.ofOption (text : List Char) : Word :=
  let name := String.ofList (text.takeWhile (· != '='))
  match text.dropWhile (· != '=') with
  | [] => .option name none
  | _ :: attached => .option name (some (String.ofList attached))

def Word.ofArgument (argument : String) : Word :=
  match argument.toList with
  | '-' :: '-' :: [] => .separator
  | '-' :: '-' :: text => .ofOption text
  | '-' :: _ :: _ => .cluster argument
  | _ => .value argument

inductive OptionKind where
  | operation (operation : Operation)
  | limit
  | timed

def OptionKind.ofName? : String → Option OptionKind
  | "union" => some (.operation (.binary .union))
  | "intersection" => some (.operation (.binary .intersection))
  | "concatenation" => some (.operation (.binary .concatenation))
  | "determinization" => some (.operation (.unary .determinization))
  | "minimization" => some (.operation (.unary .minimization))
  | "max-states" => some .limit
  | "time" => some .timed
  | _ => none

/-- The number in a text of digits, before which one plus sign may stand. -/
def parseLimit? (text : String) : Option Nat :=
  match text.toList with
  | '+' :: digits => Decimal.parse? digits
  | digits => Decimal.parse? digits

/-- The uses of one option, in their order. -/
structure Occurrences where
  groups : List (List String) := []
  /-- An index for each value of each group. -/
  indices : List Nat := []

/-- The groups, each with the index of its first value, of which there are `position` values before. -/
def Occurrences.located (indices : List Nat) (position : Nat) : List (List String) → List (Nat × List String)
  | [] => []
  | values :: groups =>
    (indices[position]?.getD 0, values) :: located indices (position + values.length) groups

/-- What was recorded of the options. -/
structure Matches where
  uses : Operation → Occurrences := fun _ => {}
  limit : Option Nat := none
  timed : Bool := false
  /-- The last index given away; every option has one, and every value. -/
  lastIndex : Nat := 0

namespace Matches

def addUse (m : Matches) (operation : Operation) (values : List String) : Matches :=
  let before := m.uses operation
  let after :=
    { groups := before.groups ++ [values]
      indices := before.indices ++ List.range' (m.lastIndex + 2) values.length }
  { m with
    uses := fun o => if o = operation then after else m.uses o
    lastIndex := m.lastIndex + 1 + values.length }

def setLimit (m : Matches) (text : String) : Except UsageError Matches :=
  if m.limit.isSome then .error (.repeatedOption "max-states")
  else match parseLimit? text with
    | some limit => .ok { m with limit := some limit, lastIndex := m.lastIndex + 2 }
    | none => .error (.invalidValue "max-states" text)

def setTimed (m : Matches) : Except UsageError Matches :=
  if m.timed then .error (.repeatedOption "time") else .ok { m with timed := true, lastIndex := m.lastIndex + 1 }

/-- What was recorded, and what some words ask for. A value in the same word as its option is the only
one that this option gets. -/
def addWords (m : Matches) : List Word → Except UsageError Matches
  | [] => .ok m
  | .separator :: [] => .ok m
  | .separator :: .value text :: _ => .error (.unexpectedValue text)
  | .separator :: _ :: _ => .error (.unexpectedValue "--")
  | .cluster argument :: _ => .error (.unknownOption argument)
  | .value text :: _ => .error (.unexpectedValue text)
  | .option name attached :: words =>
    match OptionKind.ofName? name, attached, words with
    | none, _, _ => .error (.unknownOption name)
    | some (.operation (.binary operation)), none, .value left :: .value right :: words =>
      (m.addUse (.binary operation) [left, right]).addWords words
    | some (.operation (.unary operation)), some input, words =>
      (m.addUse (.unary operation) [input]).addWords words
    | some (.operation (.unary operation)), none, .value input :: words =>
      (m.addUse (.unary operation) [input]).addWords words
    | some .limit, some text, words => do (← m.setLimit text).addWords words
    | some .limit, none, .value text :: words => do (← m.setLimit text).addWords words
    | some .timed, none, words => do (← m.setTimed).addWords words
    | some .timed, some text, _ => .error (.unexpectedValue text)
    | some _, _, _ => .error (.missingValue name)

/-- The jobs of an operation, each with the index of its first operand. -/
def indexedJobs (m : Matches) (operation : Operation) : List (Nat × Job) :=
  (Occurrences.located (m.uses operation).indices 0 (m.uses operation).groups).filterMap fun use =>
    (Job.ofOperands? operation use.2).map fun job => (use.1, job)

/-- The jobs of all operations in the order of the command line. -/
def jobsInOrder (m : Matches) : List Job :=
  ((Operation.all.flatMap m.indexedJobs).mergeSort fun a b => decide (a.1 ≤ b.1)).map (·.2)

end Matches

/-- The invocation that some arguments stand for. At least one option must be given. -/
def Invocation.parse (arguments : List String) : Except UsageError Invocation := do
  let m ← ({} : Matches).addWords (arguments.map Word.ofArgument)
  if m.lastIndex = 0 then throw .nothingGiven
  return { jobs := m.jobsInOrder, limit := m.limit, timed := m.timed }

end FiniteAutomata.CommandLine
