import Mathlib
import Bisaya.Run.Script

namespace Bisaya

inductive Action where
  | declare (name : String) (ty : DataType) (initial : Option Value)
  | assign (name : String) (v : Value)
  | test (e : Expr)

/-- The variables after the action, or why it fails. -/
def Action.apply (env : Env) : Action → Except RuntimeError Env
  | declare name ty initial => env.declare name ty initial
  | assign name v => env.assign name v
  | test e => (e.test env).map fun _ => env

structure Event where
  env : Env
  action : Action

inductive Journal where
  | done (m : Machine)
  | failed (e : RuntimeError) (m : Machine)
  | unfinished (m : Machine)
  | asks (name : String) (m : Machine) (resume : String → Journal)
  | note (event : Event) (next : Journal)

namespace Journal

def run : Journal → Run
  | done m => .done m
  | failed e m => .failed e m
  | unfinished m => .unfinished m
  | asks name m resume => .asks name m fun raw => (resume raw).run
  | note _ next => next.run

def events : Journal → List String → List Event
  | asks _ _ resume, a :: answers => (resume a).events answers
  | note event next, answers => event :: next.events answers
  | _, _ => []

def andThen : Journal → (Machine → Journal) → Journal
  | done m, next => next m
  | failed e m, _ => failed e m
  | unfinished m, _ => unfinished m
  | asks name m resume, next => asks name m fun raw => (resume raw).andThen next
  | note event rest, next => note event (rest.andThen next)

def change (m : Machine) (a : Action) : Journal :=
  note ⟨m.env, a⟩ <|
    match a.apply m.env with
    | .ok env => done { m with env := env }
    | .error e => failed e m

def declare (ty : DataType) : List Item → Machine → Journal
  | [], m => done m
  | i :: items, m => (change m (.declare i.name ty i.initial)).andThen (declare ty items)

def store (v : Value) : List String → Machine → Journal
  | [], m => done m
  | name :: names, m => (change m (.assign name v)).andThen (store v names)

def assign (a : Assignment) (m : Machine) : Journal :=
  match a.value.eval m.env with
  | .ok v => store v a.targets.reverse m
  | .error e => failed e m

def step (s : Step) (m : Machine) : Journal :=
  match Run.stepped m.env s with
  | .ok v => change m (.assign s.name v)
  | .error e => failed e m

def update : Update → Machine → Journal
  | .assign a => assign a
  | .step s => step s

def print (segments : List Segment) (m : Machine) : Journal :=
  match render m.env segments with
  | .ok lines => done { m with output := m.output ++ lines }
  | .error e => failed e m

def read : List String → Machine → Journal
  | [], m => done m
  | name :: names, m =>
    match m.env.lookup name with
    | .error e => failed e m
    | .ok x => asks name m fun raw =>
      match Entry.read? x.ty raw with
      | none => failed (.invalidInput name x.ty raw) m
      | some v => (change m (.assign name v)).andThen (read names)

def branch (test : Expr) (yes no : Machine → Journal) (m : Machine) : Journal :=
  -- noted before the outcome is known, so that a run that fails here ends with this note
  note ⟨m.env, .test test⟩ <|
    match test.test m.env with
    | .ok true => yes m
    | .ok false => no m
    | .error e => failed e m

def rounds (test : Expr) (body change : Machine → Journal) : Nat → Machine → Journal
  | 0, m => unfinished m
  | n + 1, m =>
    branch test (fun m => (body m).andThen fun m => (change m).andThen (rounds test body change n))
      done m

end Journal

mutual

def Stmt.journal (n : Nat) : Stmt → Machine → Journal
  | .declare ty items, m => .declare ty items m
  | .assign a, m => .assign a m
  | .step s, m => .step s m
  | .print segments, m => .print segments m
  | .read names, m => .read names m
  | .choose test body rest, m => .branch test (journalAll n body) (rest.journal n) m
  | .loop init test update body, m =>
    (Journal.assign init m).andThen (.rounds test (journalAll n body) (.update update) n)

def Chain.journal (n : Nat) : Chain → Machine → Journal
  | .done, m => .done m
  | .wala body, m => journalAll n body m
  | .dili test body rest, m => .branch test (journalAll n body) (rest.journal n) m

def journalAll (n : Nat) : List Stmt → Machine → Journal
  | [], m => .done m
  | s :: rest, m => (s.journal n m).andThen (journalAll n rest)

end

namespace Journal

theorem run_andThen (j : Journal) (next : Machine → Journal) :
    (j.andThen next).run = j.run.andThen fun m => (next m).run := by
  induction j with
  | asks name m resume ih => simp only [andThen, run, Run.andThen, ih]
  | note event rest ih => simpa only [andThen, run] using ih
  | _ => rfl

theorem run_change (m : Machine) (a : Action) :
    (change m a).run = Run.change m (a.apply m.env) := by
  rw [change, run]
  cases a.apply m.env <;> rfl

theorem run_declare (ty : DataType) (items : List Item) (m : Machine) :
    (declare ty items m).run = Run.declare ty items m := by
  induction items generalizing m with
  | nil => rfl
  | cons i items ih =>
    rw [declare, run_andThen, run_change, Run.declare]
    simp only [ih, Action.apply]

theorem run_store (v : Value) (names : List String) (m : Machine) :
    (store v names m).run = Run.store v names m := by
  induction names generalizing m with
  | nil => rfl
  | cons name names ih =>
    rw [store, run_andThen, run_change, Run.store]
    simp only [ih, Action.apply]

theorem run_assign (a : Assignment) (m : Machine) : (assign a m).run = Run.assign a m := by
  unfold assign Run.assign
  cases a.value.eval m.env with
  | ok v => exact run_store v a.targets.reverse m
  | error e => rfl

theorem run_step (s : Step) (m : Machine) : (step s m).run = Run.step s m := by
  unfold step Run.step
  cases Run.stepped m.env s with
  | ok v => exact run_change m (.assign s.name v)
  | error e => rfl

theorem run_update (u : Update) (m : Machine) : (update u m).run = Run.update u m := by
  cases u with
  | assign a => exact run_assign a m
  | step s => exact run_step s m

theorem run_print (segments : List Segment) (m : Machine) :
    (print segments m).run = Run.print segments m := by
  unfold print Run.print
  cases render m.env segments <;> rfl

theorem run_read (names : List String) (m : Machine) : (read names m).run = Run.read names m := by
  induction names generalizing m with
  | nil => rfl
  | cons name names ih =>
    unfold read Run.read
    cases m.env.lookup name with
    | error e => rfl
    | ok x =>
      simp only [run, Run.asks.injEq, true_and]
      funext raw
      cases Entry.read? x.ty raw with
      | none => rfl
      | some v =>
        simp only [run_andThen, run_change, ih, Action.apply]

theorem run_branch (test : Expr) (yes no : Machine → Journal) (m : Machine) :
    (branch test yes no m).run =
      Run.branch test (fun m => (yes m).run) (fun m => (no m).run) m := by
  unfold branch Run.branch
  rw [run]
  cases test.test m.env with
  | error e => rfl
  | ok b => cases b <;> rfl

theorem run_rounds (test : Expr) (body change : Machine → Journal) (n : Nat) (m : Machine) :
    (rounds test body change n m).run =
      Run.rounds test (fun m => (body m).run) (fun m => (change m).run) n m := by
  induction n generalizing m with
  | zero => rfl
  | succ n ih =>
    rw [rounds, run_branch, Run.rounds]
    simp only [run_andThen, ih]
    rfl

end Journal

mutual

/-- Without its notes a journal is the run of the statement. -/
theorem Stmt.run_journal (n : Nat) (s : Stmt) (m : Machine) : (s.journal n m).run = s.exec n m := by
  cases s with
  | declare ty items => exact Journal.run_declare ty items m
  | assign a => exact Journal.run_assign a m
  | step s => exact Journal.run_step s m
  | print segments => exact Journal.run_print segments m
  | read names => exact Journal.run_read names m
  | choose test body rest =>
    rw [Stmt.journal, Journal.run_branch, Stmt.exec]
    simp only [run_journalAll n body, Chain.run_journal n rest]
  | loop init test update body =>
    rw [Stmt.journal, Journal.run_andThen, Journal.run_assign, Stmt.exec]
    congr 1
    funext m
    rw [Journal.run_rounds]
    simp only [run_journalAll n body, Journal.run_update]

theorem Chain.run_journal (n : Nat) (c : Chain) (m : Machine) :
    (c.journal n m).run = c.exec n m := by
  cases c with
  | done => rfl
  | wala body => exact run_journalAll n body m
  | dili test body rest =>
    rw [Chain.journal, Journal.run_branch, Chain.exec]
    simp only [run_journalAll n body, Chain.run_journal n rest]

theorem run_journalAll (n : Nat) (ss : List Stmt) (m : Machine) :
    (journalAll n ss m).run = execAll n ss m := by
  cases ss with
  | nil => rfl
  | cons s ss =>
    rw [journalAll, Journal.run_andThen, Stmt.run_journal n s, execAll]
    simp only [run_journalAll n ss]

end

namespace Journal

/-- The journal starts with the variables `env`, and each note finds what the one before it left. -/
inductive From : Env → Journal → Prop where
  | done (m : Machine) : From m.env (done m)
  | failed (e : RuntimeError) (m : Machine) : From m.env (failed e m)
  | unfinished (m : Machine) : From m.env (unfinished m)
  | asks (name : String) (m : Machine) {resume : String → Journal}
      (h : ∀ raw, From m.env (resume raw)) : From m.env (asks name m resume)
  | ok {env env' : Env} {a : Action} {next : Journal} (ha : a.apply env = .ok env')
      (h : From env' next) : From env (note ⟨env, a⟩ next)
  | error {m : Machine} {a : Action} {e : RuntimeError} (ha : a.apply m.env = .error e) :
      From m.env (note ⟨m.env, a⟩ (failed e m))

theorem From.andThen {env : Env} {j : Journal} {next : Machine → Journal} (hj : From env j)
    (hnext : ∀ m, From m.env (next m)) : From env (j.andThen next) := by
  induction hj with
  | done m => exact hnext m
  | failed e m => exact .failed e m
  | unfinished m => exact .unfinished m
  | asks name m _ ih => exact .asks name m ih
  | ok ha _ ih => exact .ok ha ih
  | error ha => exact .error ha

theorem from_change (m : Machine) (a : Action) : From m.env (change m a) := by
  unfold change
  cases ha : a.apply m.env with
  | ok env => exact .ok ha (.done { m with env := env })
  | error e => exact .error ha

theorem from_declare (ty : DataType) (items : List Item) (m : Machine) :
    From m.env (declare ty items m) := by
  induction items generalizing m with
  | nil => exact .done m
  | cons i items ih => exact (from_change m _).andThen ih

theorem from_store (v : Value) (names : List String) (m : Machine) :
    From m.env (store v names m) := by
  induction names generalizing m with
  | nil => exact .done m
  | cons name names ih => exact (from_change m _).andThen ih

theorem from_assign (a : Assignment) (m : Machine) : From m.env (assign a m) := by
  unfold assign
  cases a.value.eval m.env with
  | ok v => exact from_store v a.targets.reverse m
  | error e => exact .failed e m

theorem from_step (s : Step) (m : Machine) : From m.env (step s m) := by
  unfold step
  cases Run.stepped m.env s with
  | ok v => exact from_change m _
  | error e => exact .failed e m

theorem from_update (u : Update) (m : Machine) : From m.env (update u m) := by
  cases u with
  | assign a => exact from_assign a m
  | step s => exact from_step s m

theorem from_print (segments : List Segment) (m : Machine) : From m.env (print segments m) := by
  unfold print
  cases render m.env segments with
  | ok lines => exact .done { m with output := m.output ++ lines }
  | error e => exact .failed e m

theorem from_read (names : List String) (m : Machine) : From m.env (read names m) := by
  induction names generalizing m with
  | nil => exact .done m
  | cons name names ih =>
    unfold read
    cases m.env.lookup name with
    | error e => exact .failed e m
    | ok x =>
      refine .asks name m fun raw => ?_
      cases Entry.read? x.ty raw with
      | none => exact .failed _ m
      | some v => exact (from_change m _).andThen ih

theorem from_branch (test : Expr) {yes no : Machine → Journal} (hyes : ∀ m, From m.env (yes m))
    (hno : ∀ m, From m.env (no m)) (m : Machine) : From m.env (branch test yes no m) := by
  unfold branch
  cases htest : test.test m.env with
  | error e => exact .error (by rw [Action.apply, htest]; rfl)
  | ok b =>
    have ha : (Action.test test).apply m.env = .ok m.env := by rw [Action.apply, htest]; rfl
    cases b with
    | true => exact .ok ha (hyes m)
    | false => exact .ok ha (hno m)

theorem from_rounds (test : Expr) {body change : Machine → Journal}
    (hbody : ∀ m, From m.env (body m)) (hchange : ∀ m, From m.env (change m)) (n : Nat)
    (m : Machine) : From m.env (rounds test body change n m) := by
  induction n generalizing m with
  | zero => exact .unfinished m
  | succ n ih =>
    exact from_branch test (fun m => (hbody m).andThen fun m => (hchange m).andThen ih) .done m

end Journal

mutual

theorem Stmt.from_journal (n : Nat) (s : Stmt) (m : Machine) : (s.journal n m).From m.env := by
  cases s with
  | declare ty items => exact Journal.from_declare ty items m
  | assign a => exact Journal.from_assign a m
  | step s => exact Journal.from_step s m
  | print segments => exact Journal.from_print segments m
  | read names => exact Journal.from_read names m
  | choose test body rest =>
    exact Journal.from_branch test (from_journalAll n body) (Chain.from_journal n rest) m
  | loop init test update body =>
    exact (Journal.from_assign init m).andThen
      (Journal.from_rounds test (from_journalAll n body) (Journal.from_update update) n)

theorem Chain.from_journal (n : Nat) (c : Chain) (m : Machine) : (c.journal n m).From m.env := by
  cases c with
  | done => exact .done m
  | wala body => exact from_journalAll n body m
  | dili test body rest =>
    exact Journal.from_branch test (from_journalAll n body) (Chain.from_journal n rest) m

theorem from_journalAll (n : Nat) (ss : List Stmt) (m : Machine) :
    (journalAll n ss m).From m.env := by
  cases ss with
  | nil => exact .done m
  | cons s ss => exact (Stmt.from_journal n s m).andThen (from_journalAll n ss)

end

end Bisaya
