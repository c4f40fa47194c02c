import Bisaya.Entry
import Bisaya.Run.Basic
import Bisaya.Stmt.Render

namespace Bisaya

def Direction.op : Direction → Arith
  | up => .add
  | down => .sub

namespace Run

def declare (ty : DataType) : List Item → Machine → Run
  | [], m => done m
  | i :: items, m => (change m (m.env.declare i.name ty i.initial)).andThen (declare ty items)

def store (v : Value) : List String → Machine → Run
  | [], m => done m
  | name :: names, m => (change m (m.env.assign name v)).andThen (store v names)

/-- The value is computed once and stored from right to left. -/
def assign (a : Assignment) (m : Machine) : Run :=
  match a.value.eval m.env with
  | .ok v => store v a.targets.reverse m
  | .error e => failed e m

/-- The value of a variable moved by one; only numbers can be. -/
def stepped (env : Env) (s : Step) : Except RuntimeError Value := do
  let x ← env.lookup s.name
  match x.value.type? with
  | none => throw (.unset (.binary (.arith s.direction.op)))
  | some .numero | some .tipik => s.direction.op.apply x.value (.numero 1)
  | some ty => throw (.unsupported (.binary (.arith s.direction.op)) ty)

def step (s : Step) (m : Machine) : Run := change m do
  let v ← stepped m.env s
  m.env.assign s.name v

def update : Update → Machine → Run
  | .assign a => assign a
  | .step s => step s

/-- Prints all lines of the statement or none. -/
def print (segments : List Segment) (m : Machine) : Run :=
  match render m.env segments with
  | .ok lines => done { m with output := m.output ++ lines }
  | .error e => failed e m

def read : List String → Machine → Run
  | [], m => done m
  | name :: names, m =>
    match m.env.lookup name with
    | .error e => failed e m
    | .ok x => asks name m fun raw =>
      match Entry.read? x.ty raw with
      | none => failed (.invalidInput name x.ty raw) m
      | some v => (change m (m.env.assign name v)).andThen (read names)

def branch (test : Expr) (yes no : Machine → Run) (m : Machine) : Run :=
  match test.test m.env with
  | .ok true => yes m
  | .ok false => no m
  | .error e => failed e m

/-- Rounds of a loop as long as its condition holds, `n` of them at most. -/
def rounds (test : Expr) (body change : Machine → Run) : Nat → Machine → Run
  | 0, m => unfinished m
  | n + 1, m =>
    branch test (fun m => (body m).andThen fun m => (change m).andThen (rounds test body change n))
      done m

end Run

mutual

/-- The run of a statement in which every loop goes through at most `n` rounds. -/
def Stmt.exec (n : Nat) : Stmt → Machine → Run
  | .declare ty items, m => Run.declare ty items m
  | .assign a, m => Run.assign a m
  | .step s, m => Run.step s m
  | .print segments, m => Run.print segments m
  | .read names, m => Run.read names m
  | .choose test body rest, m => Run.branch test (execAll n body) (rest.exec n) m
  | .loop init test update body, m =>
    (Run.assign init m).andThen (Run.rounds test (execAll n body) (Run.update update) n)

/-- The first condition that holds chooses the block. -/
def Chain.exec (n : Nat) : Chain → Machine → Run
  | .done, m => Run.done m
  | .wala body, m => execAll n body m
  | .dili test body rest, m => Run.branch test (execAll n body) (rest.exec n) m

def execAll (n : Nat) : List Stmt → Machine → Run
  | [], m => Run.done m
  | s :: rest, m => (s.exec n m).andThen (execAll n rest)

end

theorem execAll_append (n : Nat) (p q : List Stmt) (m : Machine) :
    execAll n (p ++ q) m = (execAll n p m).andThen (execAll n q) := by
  induction p generalizing m with
  | nil => rfl
  | cons s p ih => simp [execAll, Run.andThen_assoc, ← ih]

end Bisaya
