import Bisaya.Proofs.Run.BigStep
import Bisaya.Proofs.Run.Play
import Bisaya.Proofs.Run.Soundness

namespace Bisaya

def State.machine (st : State) : Machine := ⟨st.env, st.output⟩

@[simp] theorem State.machine_env (st : State) : st.machine.env = st.env := rfl

def Result.outcome : Result → Outcome
  | done => .done
  | failed e => .failed e

def Ending.state (e : Ending) : State := ⟨e.machine.env, e.machine.output, e.remaining⟩

/-- With these answers the run ends with the result and leaves the state. -/
def Run.Ends (r : Run) (answers : List String) (o : Result) (st : State) : Prop :=
  (r.play answers).outcome = o.outcome ∧ (r.play answers).state = st

theorem Run.ends_done (st : State) : (Run.done st.machine).Ends st.answers .done st := ⟨rfl, rfl⟩

theorem Run.ends_failed (e : RuntimeError) (st : State) :
    (Run.failed e st.machine).Ends st.answers (.failed e) st := ⟨rfl, rfl⟩

namespace Run.Ends

variable {r : Run} {next : Machine → Run} {answers : List String} {o o' : Result} {st st' : State}

theorem unique (h : r.Ends answers o st) (h' : r.Ends answers o' st') : o = o' ∧ st = st' := by
  have ho := h.1.symm.trans h'.1
  refine ⟨?_, h.2.symm.trans h'.2⟩
  cases o <;> cases o' <;> simp_all [Result.outcome]

theorem extend {r' : Run} (h : r.Ends answers o st) (hr : r.ExtendsTo r') :
    r'.Ends answers o st := by
  have hends : (r.play answers).outcome ≠ .unfinished := by
    rw [h.1]
    cases o <;> exact Outcome.noConfusion
  rwa [Ends, hr.play_eq answers hends]

theorem andThen (h : r.Ends answers .done st) (hnext : (next st.machine).Ends st.answers o st') :
    (r.andThen next).Ends answers o st' := by
  obtain ⟨ho, rfl⟩ := h
  rw [Ends, play_andThen, Ending.followedBy, ho]
  exact hnext

theorem andThen_failed {e : RuntimeError} (h : r.Ends answers (.failed e) st) :
    (r.andThen next).Ends answers (.failed e) st := by
  obtain ⟨ho, rfl⟩ := h
  rw [Ends, play_andThen, Ending.followedBy, ho]
  exact ⟨ho, rfl⟩

/-- Two runs in a row end where the second ends, or where the first fails. -/
theorem cases_andThen (h : (r.andThen next).Ends answers o st') :
    (∃ st, r.Ends answers .done st ∧ (next st.machine).Ends st.answers o st') ∨
      ∃ e, o = .failed e ∧ r.Ends answers (.failed e) st' := by
  rw [Ends, play_andThen, Ending.followedBy] at h
  cases hfirst : (r.play answers).outcome with
  | done =>
    rw [hfirst] at h
    exact .inl ⟨_, ⟨hfirst, rfl⟩, h⟩
  | failed e =>
    rw [hfirst] at h
    have hfailed : r.Ends answers (.failed e) (r.play answers).state := ⟨hfirst, rfl⟩
    obtain ⟨rfl, rfl⟩ := hfailed.unique h
    exact .inr ⟨e, rfl, hfailed⟩
  | unfinished =>
    rw [hfirst] at h
    have hbound := hfirst.symm.trans h.1
    cases o <;> cases hbound

end Run.Ends

theorem Declares.ends {ty : DataType} {items : List Item} {env env' : Env} {o : Result}
    (h : Declares ty items env o env') (output : Array String) (answers : List String) :
    (Run.declare ty items ⟨env, output⟩).Ends answers o ⟨env', output, answers⟩ := by
  induction h with
  | nil env => exact ⟨rfl, rfl⟩
  | cons h _ ih =>
    rw [Run.declare, h]
    exact ih
  | failed h items =>
    rw [Run.declare, h]
    exact ⟨rfl, rfl⟩

theorem exists_declares (ty : DataType) (items : List Item) (env : Env) :
    ∃ o env', Declares ty items env o env' := by
  induction items generalizing env with
  | nil => exact ⟨_, _, .nil env⟩
  | cons i items ih =>
    cases h : env.declare i.name ty i.initial with
    | error e => exact ⟨_, _, .failed h items⟩
    | ok env' =>
      obtain ⟨o, env'', hrest⟩ := ih env'
      exact ⟨_, _, .cons h hrest⟩

theorem Stores.ends {v : Value} {names : List String} {env env' : Env} {o : Result}
    (h : Stores v names env o env') (output : Array String) (answers : List String) :
    (Run.store v names.reverse ⟨env, output⟩).Ends answers o ⟨env', output, answers⟩ := by
  induction h with
  | nil env => exact ⟨rfl, rfl⟩
  | snoc h _ ih =>
    rw [List.reverse_concat, Run.store, h]
    exact ih
  | failed h names =>
    rw [List.reverse_concat, Run.store, h]
    exact ⟨rfl, rfl⟩

theorem exists_stores (v : Value) (names : List String) (env : Env) :
    ∃ o env', Stores v names env o env' := by
  rw [← names.reverse_reverse]
  induction names.reverse generalizing env with
  | nil => exact ⟨_, _, .nil env⟩
  | cons name names ih =>
    rw [List.reverse_cons]
    cases h : env.assign name v with
    | error e => exact ⟨_, _, .failed h names.reverse⟩
    | ok env' =>
      obtain ⟨o, env'', hrest⟩ := ih env'
      exact ⟨_, _, .snoc h hrest⟩

theorem Assigns.ends {a : Assignment} {env env' : Env} {o : Result} (h : Assigns a env o env')
    (output : Array String) (answers : List String) :
    (Run.assign a ⟨env, output⟩).Ends answers o ⟨env', output, answers⟩ := by
  unfold Run.assign
  cases h with
  | stored hvalue h =>
    rw [hvalue]
    exact h.ends output answers
  | failed h =>
    rw [h]
    exact ⟨rfl, rfl⟩

theorem exists_assigns (a : Assignment) (env : Env) : ∃ o env', Assigns a env o env' := by
  cases hvalue : a.value.eval env with
  | error e => exact ⟨_, _, .failed hvalue⟩
  | ok v =>
    obtain ⟨o, env', h⟩ := exists_stores v a.targets env
    exact ⟨o, env', .stored hvalue h⟩

section Moves

variable {s : Step} {env env' : Env} {x : Variable} {o : Result}

theorem Run.stepped_null (hx : env.get? s.name = some x) (hvalue : x.value = .null) :
    Run.stepped env s = .error (.unset (.binary (.arith s.direction.op))) := by
  simp only [Run.stepped, Env.lookup_of_get? hx, bind, Except.bind, hvalue, Value.type?]
  rfl

theorem Run.stepped_unsupported {ty : DataType} (hx : env.get? s.name = some x)
    (hty : x.value.type? = some ty) (h : ty = .letra ∨ ty = .tinuod) :
    Run.stepped env s = .error (.unsupported (.binary (.arith s.direction.op)) ty) := by
  rcases h with rfl | rfl <;>
    simp only [Run.stepped, Env.lookup_of_get? hx, bind, Except.bind, hty] <;> rfl

theorem Run.stepped_number {ty : DataType} (hx : env.get? s.name = some x)
    (hty : x.value.type? = some ty) (h : ty = .numero ∨ ty = .tipik) :
    Run.stepped env s = s.direction.op.apply x.value (.numero 1) := by
  rcases h with rfl | rfl <;>
    simp only [Run.stepped, Env.lookup_of_get? hx, bind, Except.bind, hty]

theorem Moves.ends (h : Moves s env o env') (output : Array String) (answers : List String) :
    (Run.step s ⟨env, output⟩).Ends answers o ⟨env', output, answers⟩ := by
  rw [Run.step]
  cases h with
  | undeclared hx =>
    rw [Run.stepped, Env.lookup, hx]
    exact ⟨rfl, rfl⟩
  | unset hx hvalue =>
    rw [Run.stepped_null hx hvalue]
    exact ⟨rfl, rfl⟩
  | unsupported hx hty h =>
    rw [Run.stepped_unsupported hx hty h]
    exact ⟨rfl, rfl⟩
  | overflow hx hty hnumber h =>
    rw [Run.stepped_number hx hty hnumber, h]
    exact ⟨rfl, rfl⟩
  | moved hx hty hnumber hv h | refused hx hty hnumber hv h =>
    rw [Run.stepped_number hx hty hnumber, hv]
    change (Run.change _ (env.assign s.name _)).Ends answers _ _
    rw [Env.assign_of_get? hx, h]
    exact ⟨rfl, rfl⟩

end Moves

theorem exists_moves (s : Step) (env : Env) : ∃ o env', Moves s env o env' := by
  cases hx : env.get? s.name with
  | none => exact ⟨_, _, .undeclared hx⟩
  | some x =>
    have hnumber {ty : DataType} (hty : x.value.type? = some ty)
        (hnumber : ty = .numero ∨ ty = .tipik) : ∃ o env', Moves s env o env' := by
      cases hv : s.direction.op.apply x.value (.numero 1) with
      | error e => exact ⟨_, _, .overflow hx hty hnumber hv⟩
      | ok v =>
        cases h : env.put s.name ⟨x.ty, v⟩ with
        | error e => exact ⟨_, _, .refused hx hty hnumber hv h⟩
        | ok env' => exact ⟨_, _, .moved hx hty hnumber hv h⟩
    cases hvalue : x.value with
    | null => exact ⟨_, _, .unset hx hvalue⟩
    | numero n => exact hnumber (by rw [hvalue]; rfl) (.inl rfl)
    | tipik y => exact hnumber (by rw [hvalue]; rfl) (.inr rfl)
    | letra t => exact ⟨_, _, .unsupported hx (by rw [hvalue]; rfl) (.inl rfl)⟩
    | tinuod b => exact ⟨_, _, .unsupported hx (by rw [hvalue]; rfl) (.inr rfl)⟩

theorem Updates.ends {u : Update} {env env' : Env} {o : Result} (h : Updates u env o env')
    (output : Array String) (answers : List String) :
    (Run.update u ⟨env, output⟩).Ends answers o ⟨env', output, answers⟩ := by
  cases u with
  | assign a => exact Assigns.ends h output answers
  | step s => exact Moves.ends h output answers

theorem exists_updates (u : Update) (env : Env) : ∃ o env', Updates u env o env' := by
  cases u with
  | assign a => exact exists_assigns a env
  | step s => exact exists_moves s env

theorem Asks.ends {names answers answers' : List String} {env env' : Env} {o : Result}
    (h : Asks names env answers o env' answers') (output : Array String) :
    (Run.read names ⟨env, output⟩).Ends answers o ⟨env', output, answers'⟩ := by
  induction h with
  | nil env answers => exact ⟨rfl, rfl⟩
  | cons hx hv h _ ih =>
    simp only [Run.read, hx, Run.Ends, Run.play, hv, h] at ih ⊢
    exact ih
  | undeclared h names answers =>
    simp only [Run.read, h]
    exact ⟨rfl, rfl⟩
  | unanswered hx names =>
    simp only [Run.read, hx]
    exact ⟨rfl, rfl⟩
  | invalid hx hv names answers =>
    simp only [Run.read, hx, Run.Ends, Run.play, hv]
    exact ⟨rfl, rfl⟩
  | refused hx hv h names answers =>
    simp only [Run.read, hx, Run.Ends, Run.play, hv, h]
    exact ⟨rfl, rfl⟩

theorem exists_asks (names : List String) (env : Env) (answers : List String) :
    ∃ o env' answers', Asks names env answers o env' answers' := by
  induction names generalizing env answers with
  | nil => exact ⟨_, _, _, .nil env answers⟩
  | cons name names ih =>
    cases hx : env.lookup name with
    | error e => exact ⟨_, _, _, .undeclared hx names answers⟩
    | ok x =>
      cases answers with
      | nil => exact ⟨_, _, _, .unanswered hx names⟩
      | cons raw answers =>
        cases hv : Entry.read? x.ty raw with
        | none => exact ⟨_, _, _, .invalid hx hv names answers⟩
        | some v =>
          cases h : env.assign name v with
          | error e => exact ⟨_, _, _, .refused hx hv h names answers⟩
          | ok env' =>
            obtain ⟨o, env'', answers', hrest⟩ := ih env' answers
            exact ⟨_, _, _, .cons hx hv h hrest⟩

namespace Selects

variable {env : Env} {test : Expr} {body : List Stmt} {branches : List Branch}

theorem of_true (h : test.test env = .ok true) (branches : List Branch) :
    Selects env (⟨some test, body⟩ :: branches) (.ok body) :=
  @first env [] branches ⟨some test, body⟩ (by simp) h

theorem of_error {e : RuntimeError} (h : test.test env = .error e) (branches : List Branch) :
    Selects env (⟨some test, body⟩ :: branches) (.error e) :=
  @failed env [] branches ⟨some test, body⟩ e (by simp) h

/-- A condition that does not hold is passed over. -/
theorem of_false (h : test.test env = .ok false) {r : Except RuntimeError (List Stmt)}
    (hrest : Selects env branches r) : Selects env (⟨some test, body⟩ :: branches) r := by
  have hall {before : List Branch} (hbefore : ∀ c ∈ before, c.test env = .ok false) :
      ∀ c ∈ ⟨some test, body⟩ :: before, c.test env = .ok false := by
    intro c hc
    rcases List.mem_cons.1 hc with rfl | hc
    · exact h
    · exact hbefore c hc
  cases hrest with
  | first hbefore hb => exact first (hall hbefore) hb
  | none hbranches => exact none (hall hbranches)
  | failed hbefore hb => exact failed (hall hbefore) hb

theorem eq_of_nil {r : Except RuntimeError (List Stmt)} (h : Selects env [] r) : r = .ok [] := by
  generalize hnil : [] = branches at h
  cases h with
  | first => simp at hnil
  | none => rfl
  | failed => simp at hnil

theorem cases_cons {b : Branch} {r : Except RuntimeError (List Stmt)}
    (h : Selects env (b :: branches) r) :
    (b.test env = .ok true ∧ r = .ok b.body) ∨
      (b.test env = .ok false ∧ Selects env branches r) ∨
      ∃ e, b.test env = .error e ∧ r = .error e := by
  generalize hcons : b :: branches = all at h
  cases h with
  | @first before after c hbefore hc =>
    cases before with
    | nil =>
      obtain ⟨rfl, -⟩ := List.cons.inj hcons
      exact .inl ⟨hc, rfl⟩
    | cons d before =>
      obtain ⟨rfl, rfl⟩ := List.cons.inj hcons
      obtain ⟨hb, hrest⟩ := List.forall_mem_cons.1 hbefore
      exact .inr (.inl ⟨hb, first hrest hc⟩)
  | none hall =>
    subst hcons
    obtain ⟨hb, hrest⟩ := List.forall_mem_cons.1 hall
    exact .inr (.inl ⟨hb, none hrest⟩)
  | @failed before after c e hbefore hc =>
    cases before with
    | nil =>
      obtain ⟨rfl, -⟩ := List.cons.inj hcons
      exact .inr (.inr ⟨e, hc, rfl⟩)
    | cons d before =>
      obtain ⟨rfl, rfl⟩ := List.cons.inj hcons
      obtain ⟨hb, hrest⟩ := List.forall_mem_cons.1 hbefore
      exact .inr (.inl ⟨hb, failed hrest hc⟩)

end Selects

def execSelected (n : Nat) (m : Machine) : Except RuntimeError (List Stmt) → Run
  | .ok body => execAll n body m
  | .error e => .failed e m

theorem Chain.exec_eq {m : Machine} (c : Chain) {r : Except RuntimeError (List Stmt)}
    (h : Selects m.env c.branches r) (n : Nat) : c.exec n m = execSelected n m r := by
  cases c with
  | done =>
    rw [h.eq_of_nil]
    rfl
  | wala body =>
    rcases h.cases_cons with ⟨-, rfl⟩ | ⟨hfalse, -⟩ | ⟨e, herror, -⟩
    · rfl
    · cases hfalse
    · cases herror
  | dili test body rest =>
    rw [Chain.exec, Run.branch]
    rcases h.cases_cons with ⟨htrue, rfl⟩ | ⟨hfalse, hrest⟩ | ⟨e, herror, rfl⟩
    · rw [show test.test m.env = .ok true from htrue]
      rfl
    · rw [show test.test m.env = .ok false from hfalse]
      exact Chain.exec_eq rest hrest n
    · rw [show test.test m.env = .error e from herror]
      rfl

def Task.exec (n : Nat) : Task → Machine → Run
  | .stmt s => s.exec n
  | .all ss => execAll n ss
  | .rounds test update body => Run.rounds test (execAll n body) (Run.update update) n

theorem Task.exec_extends {n n' : Nat} (hn : n ≤ n') (t : Task) (m : Machine) :
    (t.exec n m).ExtendsTo (t.exec n' m) := by
  cases t with
  | stmt s => exact s.exec_extends hn m
  | all ss => exact execAll_extends hn ss m
  | rounds test update body =>
    exact .rounds test (Run.update update) (execAll_extends hn body) hn m

/-- Under every bound that is large enough the task ends with the result. -/
def Task.Terminates (t : Task) (st : State) (o : Result) (st' : State) : Prop :=
  ∃ n, ∀ k, n ≤ k → (t.exec k st.machine).Ends st.answers o st'

theorem Task.terminates_of_ends {t : Task} {n : Nat} {st st' : State} {o : Result}
    (h : (t.exec n st.machine).Ends st.answers o st') : t.Terminates st o st' :=
  ⟨n, fun _ hk => h.extend (t.exec_extends hk st.machine)⟩

theorem Task.Terminates.unique {t : Task} {st st₁ st₂ : State} {o₁ o₂ : Result}
    (h₁ : t.Terminates st o₁ st₁) (h₂ : t.Terminates st o₂ st₂) : o₁ = o₂ ∧ st₁ = st₂ := by
  obtain ⟨n₁, h₁⟩ := h₁
  obtain ⟨n₂, h₂⟩ := h₂
  exact (h₁ _ (Nat.le_max_left n₁ n₂)).unique (h₂ _ (Nat.le_max_right n₁ n₂))

section Rounds

variable {test : Expr} {body change : Machine → Run} {st : State} {n : Nat}

theorem rounds_of_true (h : test.test st.env = .ok true) :
    Run.rounds test body change (n + 1) st.machine =
      (body st.machine).andThen fun m =>
        (change m).andThen (Run.rounds test body change n) := by
  rw [Run.rounds, Run.branch, State.machine_env, h]

theorem rounds_of_false (h : test.test st.env = .ok false) :
    Run.rounds test body change (n + 1) st.machine = .done st.machine := by
  rw [Run.rounds, Run.branch, State.machine_env, h]

theorem rounds_of_error {e : RuntimeError} (h : test.test st.env = .error e) :
    Run.rounds test body change (n + 1) st.machine = .failed e st.machine := by
  rw [Run.rounds, Run.branch, State.machine_env, h]

end Rounds

section Terminates

variable {st st' st'' : State} {o : Result} {e : RuntimeError}

theorem Task.terminates_print {segments : List Segment} {lines : List String}
    (h : render st.env segments = .ok lines) :
    (Task.stmt (.print segments)).Terminates st .done { st with output := st.output ++ lines } := by
  refine ⟨0, fun _ _ => ?_⟩
  rw [Task.exec, Stmt.exec, Run.print, State.machine_env, h]
  exact Run.ends_done { st with output := st.output ++ lines }

theorem Task.terminates_printFailed {segments : List Segment}
    (h : render st.env segments = .error e) :
    (Task.stmt (.print segments)).Terminates st (.failed e) st := by
  refine ⟨0, fun _ _ => ?_⟩
  rw [Task.exec, Stmt.exec, Run.print, State.machine_env, h]
  exact Run.ends_failed e st

/-- A conditional ends as the selected block does, or with the error of the selection. -/
theorem Task.terminates_choose {test : Expr} {body : List Stmt} {rest : Chain}
    {r : Except RuntimeError (List Stmt)}
    (hselect : Selects st.env (⟨some test, body⟩ :: rest.branches) r)
    (h : ∃ n, ∀ k, n ≤ k → (execSelected k st.machine r).Ends st.answers o st') :
    (Task.stmt (.choose test body rest)).Terminates st o st' := by
  obtain ⟨n, hn⟩ := h
  refine ⟨n, fun k hk => ?_⟩
  have hrun := Chain.exec_eq (m := st.machine) (.dili test body rest) hselect k
  change (Chain.exec k (.dili test body rest) st.machine).Ends _ _ _
  rw [hrun]
  exact hn k hk

section Rounds

variable {test : Expr} {update : Update} {body : List Stmt} {env : Env}

theorem Task.terminates_loop {init : Assignment} (hinit : Assigns init st.env .done env)
    (h : (Task.rounds test update body).Terminates { st with env := env } o st') :
    (Task.stmt (.loop init test update body)).Terminates st o st' := by
  obtain ⟨n, hn⟩ := h
  exact ⟨n, fun k hk => (hinit.ends _ _).andThen (hn k hk)⟩

theorem Task.terminates_roundsOver (htest : test.test st.env = .ok false) :
    (Task.rounds test update body).Terminates st .done st := by
  refine Task.terminates_of_ends (n := 1) ?_
  rw [Task.exec, rounds_of_false htest]
  exact Run.ends_done st

theorem Task.terminates_testFailed (htest : test.test st.env = .error e) :
    (Task.rounds test update body).Terminates st (.failed e) st := by
  refine Task.terminates_of_ends (n := 1) ?_
  rw [Task.exec, rounds_of_error htest]
  exact Run.ends_failed e st

theorem Task.terminates_round (htest : test.test st.env = .ok true)
    (hbody : (Task.all body).Terminates st .done st') (hupdate : Updates update st'.env .done env)
    (h : (Task.rounds test update body).Terminates { st' with env := env } o st'') :
    (Task.rounds test update body).Terminates st o st'' := by
  obtain ⟨n, hbody⟩ := hbody
  obtain ⟨n', hrounds⟩ := h
  -- the rounds that are left have one less to go, but their bodies have the same bound
  have hrest := (hrounds (max n n') (Nat.le_max_right n n')).extend
    (.rounds test (Run.update update) (execAll_extends (Nat.le_succ _) body) (Nat.le_refl _) _)
  refine Task.terminates_of_ends (n := max n n' + 1) ?_
  rw [Task.exec, rounds_of_true htest]
  refine (hbody (max n n' + 1) (by omega)).andThen ?_
  exact (hupdate.ends _ _).andThen hrest

theorem Task.terminates_bodyFailed (htest : test.test st.env = .ok true)
    (hbody : (Task.all body).Terminates st (.failed e) st') :
    (Task.rounds test update body).Terminates st (.failed e) st' := by
  obtain ⟨n, hbody⟩ := hbody
  refine Task.terminates_of_ends (n := n + 1) ?_
  rw [Task.exec, rounds_of_true htest]
  exact (hbody (n + 1) (by omega)).andThen_failed

theorem Task.terminates_updateFailed (htest : test.test st.env = .ok true)
    (hbody : (Task.all body).Terminates st .done st')
    (hupdate : Updates update st'.env (.failed e) env) :
    (Task.rounds test update body).Terminates st (.failed e) { st' with env := env } := by
  obtain ⟨n, hbody⟩ := hbody
  refine Task.terminates_of_ends (n := n + 1) ?_
  rw [Task.exec, rounds_of_true htest]
  exact (hbody (n + 1) (by omega)).andThen (hupdate.ends _ _).andThen_failed

end Rounds

theorem Task.terminates_cons {s : Stmt} {ss : List Stmt}
    (h : (Task.stmt s).Terminates st .done st') (hrest : (Task.all ss).Terminates st' o st'') :
    (Task.all (s :: ss)).Terminates st o st'' := by
  obtain ⟨n, hn⟩ := h
  obtain ⟨n', hn'⟩ := hrest
  refine ⟨max n n', fun k hk => ?_⟩
  exact (hn k (by omega)).andThen (hn' k (by omega))

theorem Does.terminates {t : Task} (h : Does t st o st') : t.Terminates st o st' := by
  induction h with
  | declare h => exact ⟨0, fun _ _ => h.ends _ _⟩
  | assign h => exact ⟨0, fun _ _ => h.ends _ _⟩
  | step h => exact ⟨0, fun _ _ => h.ends _ _⟩
  | read h => exact ⟨0, fun _ _ => h.ends _⟩
  | print h => exact Task.terminates_print h
  | printFailed h => exact Task.terminates_printFailed h
  | choose hselect _ ih => exact Task.terminates_choose hselect ih
  | chooseFailed hselect =>
    exact Task.terminates_choose hselect ⟨0, fun _ _ => Run.ends_failed _ _⟩
  | loop hinit _ ih => exact Task.terminates_loop hinit ih
  | initFailed hinit => exact ⟨0, fun _ _ => (hinit.ends _ _).andThen_failed⟩
  | roundsOver htest => exact Task.terminates_roundsOver htest
  | testFailed htest => exact Task.terminates_testFailed htest
  | round htest _ hupdate _ ihbody ih => exact Task.terminates_round htest ihbody hupdate ih
  | bodyFailed htest _ ihbody => exact Task.terminates_bodyFailed htest ihbody
  | updateFailed htest _ hupdate ihbody =>
    exact Task.terminates_updateFailed htest ihbody hupdate
  | nil st => exact ⟨0, fun _ _ => Run.ends_done st⟩
  | cons _ _ ih ihrest => exact Task.terminates_cons ih ihrest
  | consFailed _ ss ih =>
    obtain ⟨n, hn⟩ := ih
    exact ⟨n, fun k hk => (hn k hk).andThen_failed⟩

end Terminates

/-- What a conditional with these branches does. -/
def Chooses (branches : List Branch) (st : State) (o : Result) (st' : State) : Prop :=
  (∃ chosen, Selects st.env branches (.ok chosen) ∧ Does (.all chosen) st o st') ∨
    ∃ e, Selects st.env branches (.error e) ∧ o = .failed e ∧ st' = st

section Sound

variable {n : Nat} {test : Expr} {body : List Stmt} {st st' : State} {o : Result}

theorem chooses_of_branch_ends {branches : List Branch} {no : Machine → Run}
    (hbody : (execAll n body st.machine).Ends st.answers o st' → Does (.all body) st o st')
    (hno : (no st.machine).Ends st.answers o st' → Chooses branches st o st')
    (h : (Run.branch test (execAll n body) no st.machine).Ends st.answers o st') :
    Chooses (⟨some test, body⟩ :: branches) st o st' := by
  rw [Run.branch, State.machine_env] at h
  cases htest : test.test st.env with
  | error e =>
    rw [htest] at h
    obtain ⟨rfl, rfl⟩ := h.unique (Run.ends_failed e st)
    exact .inr ⟨e, .of_error htest branches, rfl, rfl⟩
  | ok b =>
    rw [htest] at h
    cases b with
    | true => exact .inl ⟨body, .of_true htest branches, hbody h⟩
    | false =>
      obtain ⟨chosen, hselect, hdoes⟩ | ⟨e, hselect, rfl, rfl⟩ := hno h
      · exact .inl ⟨chosen, .of_false htest hselect, hdoes⟩
      · exact .inr ⟨e, .of_false htest hselect, rfl, rfl⟩

theorem does_of_rounds_ends {update : Update} {k : Nat}
    (hbody : ∀ {st st' : State} {o : Result},
      (execAll n body st.machine).Ends st.answers o st' → Does (.all body) st o st')
    (h : (Run.rounds test (execAll n body) (Run.update update) k st.machine).Ends
      st.answers o st') : Does (.rounds test update body) st o st' := by
  induction k generalizing st with
  | zero =>
    -- no rule is about a run that comes to its bound
    have hbound : Outcome.unfinished = o.outcome := h.1
    cases o <;> cases hbound
  | succ k ih =>
    cases htest : test.test st.env with
    | error e =>
      rw [rounds_of_error htest] at h
      obtain ⟨rfl, rfl⟩ := h.unique (Run.ends_failed e st)
      exact .testFailed htest
    | ok b =>
      cases b with
      | false =>
        rw [rounds_of_false htest] at h
        obtain ⟨rfl, rfl⟩ := h.unique (Run.ends_done st)
        exact .roundsOver htest
      | true =>
        rw [rounds_of_true htest] at h
        obtain ⟨st₁, hfirst, h⟩ | ⟨e, rfl, hfailed⟩ := h.cases_andThen
        · obtain ⟨o₁, env, hupdate⟩ := exists_updates update st₁.env
          have hends := hupdate.ends st₁.output st₁.answers
          obtain ⟨st₂, hsecond, h⟩ | ⟨e, rfl, hfailed⟩ := h.cases_andThen
          · obtain ⟨rfl, rfl⟩ := hends.unique hsecond
            exact .round htest (hbody hfirst) hupdate (ih h)
          · obtain ⟨rfl, rfl⟩ := hends.unique hfailed
            exact .updateFailed htest (hbody hfirst) hupdate
        · exact .bodyFailed htest (hbody hfailed)

end Sound

mutual

theorem Stmt.does_of_ends {n : Nat} {st st' : State} {o : Result} (s : Stmt)
    (h : (s.exec n st.machine).Ends st.answers o st') : Does (.stmt s) st o st' := by
  -- some rule applies to every state, and it ends as the run does, which has one end only
  cases s with
  | declare ty items =>
    obtain ⟨_, env, hrule⟩ := exists_declares ty items st.env
    obtain ⟨rfl, rfl⟩ := h.unique (hrule.ends st.output st.answers)
    exact .declare hrule
  | assign a =>
    obtain ⟨_, env, hrule⟩ := exists_assigns a st.env
    obtain ⟨rfl, rfl⟩ := h.unique (hrule.ends st.output st.answers)
    exact .assign hrule
  | step s =>
    obtain ⟨_, env, hrule⟩ := exists_moves s st.env
    obtain ⟨rfl, rfl⟩ := h.unique (hrule.ends st.output st.answers)
    exact .step hrule
  | print segments =>
    rw [Stmt.exec, Run.print, State.machine_env] at h
    cases hrender : render st.env segments with
    | error e =>
      rw [hrender] at h
      obtain ⟨rfl, rfl⟩ := h.unique (Run.ends_failed e st)
      exact .printFailed hrender
    | ok lines =>
      rw [hrender] at h
      obtain ⟨rfl, rfl⟩ := h.unique (Run.ends_done { st with output := st.output ++ lines })
      exact .print hrender
  | read names =>
    obtain ⟨_, env, answers, hrule⟩ := exists_asks names st.env st.answers
    obtain ⟨rfl, rfl⟩ := h.unique (hrule.ends st.output)
    exact .read hrule
  | choose test body rest =>
    obtain ⟨chosen, hselect, hdoes⟩ | ⟨e, hselect, rfl, rfl⟩ :=
      chooses_of_branch_ends (does_all_of_ends body) (Chain.chooses_of_ends rest) h
    · exact .choose hselect hdoes
    · exact .chooseFailed hselect
  | loop init test update body =>
    obtain ⟨o₁, env, hinit⟩ := exists_assigns init st.env
    have hends := hinit.ends st.output st.answers
    obtain ⟨st₁, hfirst, h⟩ | ⟨e, rfl, hfailed⟩ := h.cases_andThen
    · obtain ⟨rfl, rfl⟩ := hends.unique hfirst
      exact .loop hinit (does_of_rounds_ends (does_all_of_ends body) h)
    · obtain ⟨rfl, rfl⟩ := hends.unique hfailed
      exact .initFailed hinit

theorem Chain.chooses_of_ends {n : Nat} {st st' : State} {o : Result} (c : Chain)
    (h : (c.exec n st.machine).Ends st.answers o st') : Chooses c.branches st o st' := by
  cases c with
  | done =>
    obtain ⟨rfl, rfl⟩ := (Run.ends_done st).unique h
    exact .inl ⟨[], .none (by simp [Chain.branches]), .nil st⟩
  | wala body =>
    have hselect : Selects st.env [⟨none, body⟩] (.ok body) :=
      @Selects.first _ [] [] ⟨none, body⟩ (by simp) rfl
    exact .inl ⟨body, hselect, does_all_of_ends body h⟩
  | dili test body rest =>
    exact chooses_of_branch_ends (does_all_of_ends body) (Chain.chooses_of_ends rest) h

theorem does_all_of_ends {n : Nat} {st st' : State} {o : Result} (ss : List Stmt)
    (h : (execAll n ss st.machine).Ends st.answers o st') : Does (.all ss) st o st' := by
  cases ss with
  | nil =>
    obtain ⟨rfl, rfl⟩ := (Run.ends_done st).unique h
    exact .nil st
  | cons s ss =>
    obtain ⟨st₁, hfirst, h⟩ | ⟨e, rfl, hfailed⟩ := h.cases_andThen
    · exact .cons (Stmt.does_of_ends s hfirst) (does_all_of_ends ss h)
    · exact .consFailed (Stmt.does_of_ends s hfailed) ss

end

theorem Does.deterministic {t : Task} {st st₁ st₂ : State} {o₁ o₂ : Result}
    (h₁ : Does t st o₁ st₁) (h₂ : Does t st o₂ st₂) : o₁ = o₂ ∧ st₁ = st₂ :=
  h₁.terminates.unique h₂.terminates

/-- The runs of a statement end as the rules say, in one way at most. -/
theorem Stmt.terminates_iff_does (s : Stmt) (st : State) :
    (∀ o st', (Task.stmt s).Terminates st o st' ↔ Does (.stmt s) st o st') ∧
      ∀ o₁ st₁ o₂ st₂, Does (.stmt s) st o₁ st₁ → Does (.stmt s) st o₂ st₂ →
        o₁ = o₂ ∧ st₁ = st₂ := by
  refine ⟨fun o st' => ⟨?_, Does.terminates⟩, fun _ _ _ _ => Does.deterministic⟩
  rintro ⟨n, hn⟩
  exact s.does_of_ends (hn n (Nat.le_refl n))

end Bisaya
