import Bisaya.Expr.Eval
import Bisaya.Stmt.Basic

namespace Bisaya

def Segment.eval (env : Env) : Segment → Except RuntimeError (Option String)
  | newline => .ok none
  | escape c => .ok (some (String.singleton c))
  | expr e => do
    let v ← e.eval env
    return some v.text

/-- The texts between the line ends, each line begun by `line`. -/
def splitLines (line : String) : List (Option String) → List String
  | [] => [line]
  | none :: rest => line :: splitLines "" rest
  | some s :: rest => splitLines (line ++ s) rest

/-- Empty lines are dropped. -/
def render (env : Env) (segments : List Segment) : Except RuntimeError (List String) := do
  let pieces ← segments.mapM (Segment.eval env)
  return (splitLines "" pieces).filter (· ≠ "")

end Bisaya
