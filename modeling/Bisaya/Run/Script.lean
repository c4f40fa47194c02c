import Bisaya.Parse.Stmt
import Bisaya.Run.Exec

namespace Bisaya

inductive Outcome where
  | done
  | failed (e : RuntimeError)
  | unfinished
  deriving DecidableEq, Repr

/-- The end of a run with prepared answers: the variables asked for, among them one for which there
was no answer, and the answers left over. -/
structure Ending where
  outcome : Outcome
  machine : Machine
  asked : List String
  remaining : List String

/-- Gives out the answers in order; a run that asks for more fails. -/
def Run.play : Run → List String → Ending
  | .done m, answers => ⟨.done, m, [], answers⟩
  | .failed e m, answers => ⟨.failed e, m, [], answers⟩
  | .unfinished m, answers => ⟨.unfinished, m, [], answers⟩
  | .asks name m _, [] => ⟨.failed (.noInput name), m, [name], []⟩
  | .asks name _ resume, a :: answers =>
    let ending := (resume a).play answers
    { ending with asked := name :: ending.asked }

/-- Reads and runs a program text with prepared answers, in an empty environment. -/
def interpret (n : Nat) (source : String) (answers : List String) : Except ParseError Ending := do
  let program ← parse source
  return (execAll n program .start).play answers

end Bisaya
