import Mathlib
import Bisaya.Run.Exec

namespace Bisaya

/-- The variables, the lines printed so far and the answers still to be given. -/
structure State where
  env : Env
  output : Array String
  answers : List String

/-- How a run has ended; that it came to its bound is no end. -/
inductive Result where
  | done
  | failed (e : RuntimeError)
  deriving DecidableEq, Repr

/-- Items are declared from left to right, up to the first that fails. -/
inductive Declares (ty : DataType) : List Item → Env → Result → Env → Prop where
  | nil (env : Env) : Declares ty [] env .done env
  | cons {i : Item} {items : List Item} {env env' env'' : Env} {o : Result}
      (h : env.declare i.name ty i.initial = .ok env') (hrest : Declares ty items env' o env'') :
      Declares ty (i :: items) env o env''
  | failed {i : Item} {env : Env} {e : RuntimeError}
      (h : env.declare i.name ty i.initial = .error e) (items : List Item) :
      Declares ty (i :: items) env (.failed e) env

/-- One value is stored under several names from right to left. -/
inductive Stores (v : Value) : List String → Env → Result → Env → Prop where
  | nil (env : Env) : Stores v [] env .done env
  | snoc {names : List String} {name : String} {env env' env'' : Env} {o : Result}
      (h : env.assign name v = .ok env') (hrest : Stores v names env' o env'') :
      Stores v (names ++ [name]) env o env''
  | failed {name : String} {env : Env} {e : RuntimeError} (h : env.assign name v = .error e)
      (names : List String) : Stores v (names ++ [name]) env (.failed e) env

/-- The value is computed once, before anything is stored. -/
inductive Assigns (a : Assignment) (env : Env) : Result → Env → Prop where
  | stored {v : Value} {o : Result} {env' : Env} (hvalue : a.value.eval env = .ok v)
      (h : Stores v a.targets env o env') : Assigns a env o env'
  | failed {e : RuntimeError} (h : a.value.eval env = .error e) : Assigns a env (.failed e) env

/-- Only a variable that holds a number can be moved by one. -/
inductive Moves (s : Step) (env : Env) : Result → Env → Prop where
  | undeclared (hx : env.get? s.name = none) : Moves s env (.failed (.undefined s.name)) env
  | unset {x : Variable} (hx : env.get? s.name = some x) (hvalue : x.value = .null) :
      Moves s env (.failed (.unset (.binary (.arith s.direction.op)))) env
  | unsupported {x : Variable} {ty : DataType} (hx : env.get? s.name = some x)
      (hty : x.value.type? = some ty) (h : ty = .letra ∨ ty = .tinuod) :
      Moves s env (.failed (.unsupported (.binary (.arith s.direction.op)) ty)) env
  | overflow {x : Variable} {ty : DataType} {e : RuntimeError} (hx : env.get? s.name = some x)
      (hty : x.value.type? = some ty) (hnumber : ty = .numero ∨ ty = .tipik)
      (h : s.direction.op.apply x.value (.numero 1) = .error e) : Moves s env (.failed e) env
  | moved {x : Variable} {ty : DataType} {v : Value} {env' : Env} (hx : env.get? s.name = some x)
      (hty : x.value.type? = some ty) (hnumber : ty = .numero ∨ ty = .tipik)
      (hv : s.direction.op.apply x.value (.numero 1) = .ok v)
      (h : env.put s.name ⟨x.ty, v⟩ = .ok env') : Moves s env .done env'
  | refused {x : Variable} {ty : DataType} {v : Value} {e : RuntimeError}
      (hx : env.get? s.name = some x) (hty : x.value.type? = some ty)
      (hnumber : ty = .numero ∨ ty = .tipik)
      (hv : s.direction.op.apply x.value (.numero 1) = .ok v)
      (h : env.put s.name ⟨x.ty, v⟩ = .error e) : Moves s env (.failed e) env

def Updates : Update → Env → Result → Env → Prop
  | .assign a => Assigns a
  | .step s => Moves s

/-- Names are looked up, asked for and assigned from left to right. An answer that was given is used
up, even if it is no value of the type. -/
inductive Asks : List String → Env → List String → Result → Env → List String → Prop where
  | nil (env : Env) (answers : List String) : Asks [] env answers .done env answers
  | cons {name raw : String} {names answers answers' : List String} {env env' env'' : Env}
      {x : Variable} {v : Value} {o : Result} (hx : env.lookup name = .ok x)
      (hv : Entry.read? x.ty raw = some v) (h : env.assign name v = .ok env')
      (hrest : Asks names env' answers o env'' answers') :
      Asks (name :: names) env (raw :: answers) o env'' answers'
  | undeclared {name : String} {env : Env} {e : RuntimeError} (h : env.lookup name = .error e)
      (names answers : List String) : Asks (name :: names) env answers (.failed e) env answers
  | unanswered {name : String} {env : Env} {x : Variable} (hx : env.lookup name = .ok x)
      (names : List String) : Asks (name :: names) env [] (.failed (.noInput name)) env []
  | invalid {name raw : String} {env : Env} {x : Variable} (hx : env.lookup name = .ok x)
      (hv : Entry.read? x.ty raw = none) (names answers : List String) :
      Asks (name :: names) env (raw :: answers) (.failed (.invalidInput name x.ty raw)) env answers
  | refused {name raw : String} {env : Env} {x : Variable} {v : Value} {e : RuntimeError}
      (hx : env.lookup name = .ok x) (hv : Entry.read? x.ty raw = some v)
      (h : env.assign name v = .error e) (names answers : List String) :
      Asks (name :: names) env (raw :: answers) (.failed e) env answers

structure Branch where
  condition : Option Expr
  body : List Stmt

def Chain.branches : Chain → List Branch
  | .done => []
  | .wala body => [⟨none, body⟩]
  | .dili test body rest => ⟨some test, body⟩ :: rest.branches

def Branch.test (env : Env) (b : Branch) : Except RuntimeError Bool :=
  match b.condition with
  | none => .ok true
  | some test => test.test env

/-- The block to run: that of the first branch whose condition holds, where all conditions before it
do not, or none; a condition that fails is the end of the search. -/
inductive Selects (env : Env) : List Branch → Except RuntimeError (List Stmt) → Prop where
  | first {before after : List Branch} {b : Branch} (hbefore : ∀ c ∈ before, c.test env = .ok false)
      (h : b.test env = .ok true) : Selects env (before ++ b :: after) (.ok b.body)
  | none {branches : List Branch} (h : ∀ c ∈ branches, c.test env = .ok false) :
      Selects env branches (.ok [])
  | failed {before after : List Branch} {b : Branch} {e : RuntimeError}
      (hbefore : ∀ c ∈ before, c.test env = .ok false) (h : b.test env = .error e) :
      Selects env (before ++ b :: after) (.error e)

inductive Task where
  | stmt (s : Stmt)
  | all (ss : List Stmt)
  | rounds (test : Expr) (update : Update) (body : List Stmt)

/-- The task takes the first state to the second with the outcome. -/
inductive Does : Task → State → Result → State → Prop where
  | declare {ty : DataType} {items : List Item} {st : State} {o : Result} {env : Env}
      (h : Declares ty items st.env o env) :
      Does (.stmt (.declare ty items)) st o { st with env := env }
  | assign {a : Assignment} {st : State} {o : Result} {env : Env} (h : Assigns a st.env o env) :
      Does (.stmt (.assign a)) st o { st with env := env }
  | step {s : Step} {st : State} {o : Result} {env : Env} (h : Moves s st.env o env) :
      Does (.stmt (.step s)) st o { st with env := env }
  | print {segments : List Segment} {st : State} {lines : List String}
      (h : render st.env segments = .ok lines) :
      Does (.stmt (.print segments)) st .done { st with output := st.output ++ lines }
  | printFailed {segments : List Segment} {st : State} {e : RuntimeError}
      (h : render st.env segments = .error e) : Does (.stmt (.print segments)) st (.failed e) st
  | read {names answers : List String} {st : State} {o : Result} {env : Env}
      (h : Asks names st.env st.answers o env answers) :
      Does (.stmt (.read names)) st o { st with env := env, answers := answers }
  | choose {test : Expr} {body chosen : List Stmt} {rest : Chain} {st st' : State} {o : Result}
      (hselect : Selects st.env (⟨some test, body⟩ :: rest.branches) (.ok chosen))
      (h : Does (.all chosen) st o st') : Does (.stmt (.choose test body rest)) st o st'
  | chooseFailed {test : Expr} {body : List Stmt} {rest : Chain} {st : State} {e : RuntimeError}
      (hselect : Selects st.env (⟨some test, body⟩ :: rest.branches) (.error e)) :
      Does (.stmt (.choose test body rest)) st (.failed e) st
  | loop {init : Assignment} {test : Expr} {update : Update} {body : List Stmt} {st st' : State}
      {env : Env} {o : Result} (hinit : Assigns init st.env .done env)
      (h : Does (.rounds test update body) { st with env := env } o st') :
      Does (.stmt (.loop init test update body)) st o st'
  | initFailed {init : Assignment} {test : Expr} {update : Update} {body : List Stmt} {st : State}
      {env : Env} {e : RuntimeError} (hinit : Assigns init st.env (.failed e) env) :
      Does (.stmt (.loop init test update body)) st (.failed e) { st with env := env }
  | roundsOver {test : Expr} {update : Update} {body : List Stmt} {st : State}
      (htest : test.test st.env = .ok false) : Does (.rounds test update body) st .done st
  | testFailed {test : Expr} {update : Update} {body : List Stmt} {st : State} {e : RuntimeError}
      (htest : test.test st.env = .error e) : Does (.rounds test update body) st (.failed e) st
  | round {test : Expr} {update : Update} {body : List Stmt} {st st' st'' : State} {env : Env}
      {o : Result} (htest : test.test st.env = .ok true) (hbody : Does (.all body) st .done st')
      (hupdate : Updates update st'.env .done env)
      (h : Does (.rounds test update body) { st' with env := env } o st'') :
      Does (.rounds test update body) st o st''
  | bodyFailed {test : Expr} {update : Update} {body : List Stmt} {st st' : State}
      {e : RuntimeError} (htest : test.test st.env = .ok true)
      (hbody : Does (.all body) st (.failed e) st') :
      Does (.rounds test update body) st (.failed e) st'
  | updateFailed {test : Expr} {update : Update} {body : List Stmt} {st st' : State} {env : Env}
      {e : RuntimeError} (htest : test.test st.env = .ok true)
      (hbody : Does (.all body) st .done st') (hupdate : Updates update st'.env (.failed e) env) :
      Does (.rounds test update body) st (.failed e) { st' with env := env }
  | nil (st : State) : Does (.all []) st .done st
  | cons {s : Stmt} {ss : List Stmt} {st st' st'' : State} {o : Result}
      (h : Does (.stmt s) st .done st') (hrest : Does (.all ss) st' o st'') :
      Does (.all (s :: ss)) st o st''
  | consFailed {s : Stmt} {st st' : State} {e : RuntimeError}
      (h : Does (.stmt s) st (.failed e) st') (ss : List Stmt) :
      Does (.all (s :: ss)) st (.failed e) st'

end Bisaya
