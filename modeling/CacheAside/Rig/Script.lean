import CacheAside.Rig.Step

/-!
# Scripted data sources

A data source whose answer is known beforehand. When asked, it notes that, makes some steps, and then
fails or answers.
-/

namespace CacheAside.Rig

inductive ScriptError where
  /-- The failure that the script asks for. -/
  | failed (reason : String)
  /-- The scripted answer is no value of the kind in question. -/
  | malformed
  deriving DecidableEq

structure Script (α : Type) where
  during : List Step := []
  failure : Option String := none
  answer : Except ScriptError α

namespace Script

variable {α : Type}

/-- Makes some steps, whatever they answer. -/
def makeSteps (l : Layers) : List Step → World Base Notes → World Base Notes
  | [], w => w
  | step :: steps, w => makeSteps l steps (step.run l w).2

/-- Asks the data source; the argument says for what. -/
def run (l : Layers) (s : Script α) (asked : Option (List String)) :
    Computation Base Notes ScriptError α := fun w =>
  let w := makeSteps l s.during { w with outside.asked := some asked }
  match s.failure with
  | some reason => (.error (.failed reason), w)
  | none => (s.answer, w)

end Script

end CacheAside.Rig
