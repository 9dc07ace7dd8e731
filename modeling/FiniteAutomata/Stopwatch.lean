/-!
Stopwatches for named steps. Steps are numbered as they are started, and their laps are listed in the
order in which they are finished. A step that is finished again has another lap, and one that is never
finished has none.
-/

namespace FiniteAutomata

/-- A step that has been started, with the time of its start in milliseconds. -/
structure StartedStep where
  name : String
  start : Nat
deriving DecidableEq

/-- A finished step and the milliseconds that it took. -/
structure Lap where
  name : String
  duration : Nat
deriving DecidableEq

/-- The steps started so far, and the laps so far. -/
structure Stopwatch where
  steps : List StartedStep := []
  laps : List Lap := []
deriving DecidableEq

namespace Stopwatch

def start (w : Stopwatch) (name : String) (now : Nat) : Stopwatch :=
  { w with steps := w.steps ++ [{ name, start := now }] }

def finish (w : Stopwatch) (number : Nat) (now : Nat) : Stopwatch :=
  match w.steps[number]? with
  | some step => { w with laps := w.laps ++ [{ name := step.name, duration := now - step.start }] }
  | none => w

def finished (w : Stopwatch) : List String := w.laps.map (·.name)

end Stopwatch

/-- The lap on a line, in seconds with three decimals. -/
def Lap.describe (lap : Lap) : String :=
  let seconds := lap.duration / 1000
  let rest := toString (lap.duration % 1000)
  let zeros := String.ofList (List.replicate (3 - rest.length) '0')
  s!"Time {lap.name}: {seconds}.{zeros}{rest}s"

end FiniteAutomata
