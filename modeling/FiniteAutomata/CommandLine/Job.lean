import FiniteAutomata.Combination

/-!
Jobs of the command line: an operation on automata with the paths of its operands.
-/

namespace FiniteAutomata.CommandLine

inductive BinaryOperation where
  | union
  | intersection
  | concatenation
deriving DecidableEq

inductive UnaryOperation where
  | determinization
  | minimization
deriving DecidableEq

namespace BinaryOperation

def name : BinaryOperation → String
  | union => "union"
  | intersection => "intersection"
  | concatenation => "concatenation"

def apply (limit : Option Nat) : BinaryOperation → Automaton → Automaton → Except OperationFailure Automaton
  | union, a, b => a.union b limit
  | intersection, a, b => a.intersection b limit
  | concatenation, a, b => a.concatenation b limit

end BinaryOperation

namespace UnaryOperation

def name : UnaryOperation → String
  | determinization => "determinization"
  | minimization => "minimization"

def apply (limit : Option Nat) : UnaryOperation → Automaton → Except OperationFailure Automaton
  | determinization, a => a.determinize limit
  | minimization, a => a.minimize limit

end UnaryOperation

inductive Operation where
  | binary (operation : BinaryOperation)
  | unary (operation : UnaryOperation)
deriving DecidableEq

namespace Operation

/-- The name of the operation, which is also the name of its option. -/
def name : Operation → String
  | binary operation => operation.name
  | unary operation => operation.name

def all : List Operation :=
  [.binary .union, .binary .intersection, .binary .concatenation, .unary .determinization, .unary .minimization]

end Operation

inductive Job where
  | binary (operation : BinaryOperation) (left right : String)
  | unary (operation : UnaryOperation) (input : String)
deriving DecidableEq

namespace Job

/-- The job of an operation on some operands, if these are as many as the operation takes. -/
def ofOperands? : Operation → List String → Option Job
  | .binary operation, [left, right] => some (.binary operation left right)
  | .unary operation, [input] => some (.unary operation input)
  | _, _ => none

def name : Job → String
  | binary operation _ _ => operation.name
  | unary operation _ => operation.name

def describe : Job → String
  | binary operation left right => s!"{operation.name} of {left} and {right}"
  | unary operation input => s!"{operation.name} of {input}"

end Job

end FiniteAutomata.CommandLine
