import LocaleLift.Log.Session

/-! Log programs: steps that set the logger up, log records, and change the level for a while. -/
namespace LocaleLift.Log

/-- A step of a log program. -/
inductive Step where
  | setUp (level : Level) (file : Option Path)
  | emit (level : Level) (message : Text)
  | within (level : Level) (steps : List Step)

/-- What can be seen of a program that is run: a change of the level that is about to begin, and
each step that is done, with the level and the number of handlers after it. -/
inductive Event where
  | entered (level : Level)
  | done (step : Step) (level : Level) (handlers : Nat)

open Session in
/-- Run a step that leaves the level as it found it, whatever happens. -/
def keepingLevel {α : Type} (step : StepM α) : StepM α := do
  let level := (← get).logger.level
  try
    let a ← step
    setLevel level
    pure a
  catch e =>
    setLevel level
    throw e

def done (step : Step) : Session.StepM Event := do
  let l := (← get).logger
  return .done step l.level l.handlers.length

mutual

def Step.run (time : Text) : Step → Session.StepM (List Event)
  | .setUp level file => do
    Session.setUp .standard level file
    return [← done (.setUp level file)]
  | .emit level message => do
    modify (Session.log time ⟨.program, level, message⟩)
    return [← done (.emit level message)]
  | .within level steps => do
    let inside ← keepingLevel do
      Session.setLevel level
      Step.runAll time steps
    return .entered level :: inside ++ [← done (.within level steps)]

def Step.runAll (time : Text) : List Step → Session.StepM (List Event)
  | [] => return []
  | s :: ss => do
    let es ← s.run time
    return es ++ (← Step.runAll time ss)

end

end LocaleLift.Log
