/-!
Reports of failures: what failed, and the causes from the nearest to the deepest one.
-/

namespace FiniteAutomata.CommandLine

structure Report where
  message : String
  causes : List String := []
deriving DecidableEq

namespace Report

/-- The report of a failure that the given one has caused. -/
def within (r : Report) (message : String) : Report := { message, causes := r.message :: r.causes }

/-- A cause after its label, with its later lines moved to the right by `indent`. -/
def renderCause (label indent cause : String) : String :=
  label ++ ("\n" ++ indent).intercalate (cause.splitOn "\n")

/-- The causes, numbered from 0 when there are several. -/
def renderCauses : List String → List String
  | [cause] => [renderCause "    " "    " cause]
  | causes => causes.zipIdx.map fun c =>
    let digits := toString c.2
    let room := String.ofList (List.replicate (5 - digits.length) ' ')
    renderCause s!"{room}{digits}: " "       " c.1

def render (r : Report) : String :=
  let first := s!"Error: {r.message}"
  if r.causes.isEmpty then first
  else "\n".intercalate (first :: "" :: "Caused by:" :: renderCauses r.causes)

end Report

end FiniteAutomata.CommandLine
