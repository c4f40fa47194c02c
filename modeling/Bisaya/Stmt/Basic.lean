import Bisaya.Expr.Basic

namespace Bisaya

structure Item where
  name : String
  initial : Option Value
  deriving DecidableEq

/-- Every target receives the one value. -/
structure Assignment where
  targets : List String
  value : Expr
  deriving DecidableEq

inductive Direction where
  | up | down
  deriving DecidableEq, Repr

/-- `name++` or `name--`. -/
structure Step where
  name : String
  direction : Direction
  deriving DecidableEq, Repr

/-- What a loop does after each run of its body. -/
inductive Update where
  | assign (a : Assignment)
  | step (s : Step)
  deriving DecidableEq

inductive Segment where
  | newline
  | escape (c : Char)
  | expr (e : Expr)
  deriving DecidableEq

mutual

inductive Stmt where
  /-- `MUGNA` -/
  | declare (ty : DataType) (items : List Item)
  | assign (a : Assignment)
  | step (s : Step)
  /-- `IPAKITA` -/
  | print (segments : List Segment)
  /-- `DAWAT` -/
  | read (names : List String)
  /-- `KUNG` with what follows its block. -/
  | choose (test : Expr) (body : List Stmt) (rest : Chain)
  /-- `ALANG SA` -/
  | loop (init : Assignment) (test : Expr) (update : Update) (body : List Stmt)

/-- The rest of a conditional: nothing, `KUNG WALA`, or `KUNG DILI` and a further rest. -/
inductive Chain where
  | done
  | wala (body : List Stmt)
  | dili (test : Expr) (body : List Stmt) (rest : Chain)

end

abbrev Program := List Stmt

def Stmt.name : Stmt → String
  | declare .. => "declaration"
  | assign _ => "assignment"
  | step _ => "increment"
  | print _ => "print"
  | read _ => "input"
  | choose .. => "conditional"
  | loop .. => "loop"

end Bisaya
