import Bisaya.Proofs.Run.Journal

namespace Bisaya

namespace Env

/-- Every variable holds `null` or a value of its type. -/
def Typed (env : Env) : Prop := ∀ name x, env.get? name = some x → x.value.Fits x.ty

/-- The variables of `env` are still there, with the types they had. -/
def Kept (env env' : Env) : Prop :=
  ∀ name x, env.get? name = some x → ∃ y, env'.get? name = some y ∧ y.ty = x.ty

theorem typed_empty : empty.Typed := by
  intro name x h
  simp at h

theorem Kept.refl (env : Env) : env.Kept env := fun _ x h => ⟨x, h, rfl⟩

theorem Kept.trans {a b c : Env} (hab : a.Kept b) (hbc : b.Kept c) : a.Kept c := by
  intro name x h
  obtain ⟨y, hy, hty⟩ := hab name x h
  obtain ⟨z, hz, htz⟩ := hbc name y hy
  exact ⟨z, hz, htz.trans hty⟩

theorem fits_of_put {env env' : Env} {name : String} {x : Variable}
    (h : env.put name x = .ok env') : x.value.Fits x.ty := by
  unfold put at h
  split at h
  · rename_i hnull
    exact Or.inl hnull
  · rename_i got hgot
    split at h
    · rename_i heq
      exact Or.inr (hgot.trans (congrArg some heq))
    · cases h

end Env

/-- What an action that succeeds does to the variables. -/
inductive Effect (env : Env) : Action → Env → Prop where
  | declare {env' : Env} {name : String} {ty : DataType} {initial : Option Value}
      (hfresh : env.get? name = none) (hput : env.put name ⟨ty, initial.getD .null⟩ = .ok env') :
      Effect env (.declare name ty initial) env'
  | assign {env' : Env} {name : String} {v : Value} {x : Variable}
      (hold : env.get? name = some x) (hput : env.put name ⟨x.ty, v⟩ = .ok env') :
      Effect env (.assign name v) env'
  | test (e : Expr) : Effect env (.test e) env

theorem Env.lookup_eq_ok {env : Env} {name : String} {x : Variable}
    (h : env.lookup name = .ok x) : env.get? name = some x := by
  unfold Env.lookup at h
  split at h
  · rename_i y hy
    rw [hy, Except.ok.inj h]
  · cases h

theorem Action.effect {env env' : Env} {a : Action} (h : a.apply env = .ok env') :
    Effect env a env' := by
  cases a with
  | declare name ty initial =>
    rw [apply, Env.declare] at h
    cases hget : env.get? name with
    | some x => simp [hget] at h
    | none => exact .declare hget (by simpa [hget] using h)
  | assign name v =>
    rw [apply, Env.assign] at h
    cases hlookup : env.lookup name with
    | error e => rw [hlookup] at h; cases h
    | ok x =>
      rw [hlookup] at h
      exact .assign (Env.lookup_eq_ok hlookup) h
  | test e =>
    rw [apply] at h
    cases htest : e.test env with
    | error e => rw [htest] at h; cases h
    | ok b =>
      rw [htest] at h
      obtain rfl : env = env' := Except.ok.inj h
      exact .test e

namespace Effect

variable {env env' : Env} {a : Action}

theorem typed (h : Effect env a env') (henv : env.Typed) : env'.Typed := by
  -- declaring and assigning both put a variable, which checks the type
  have hput {name : String} {x : Variable} (hput : env.put name x = .ok env') : env'.Typed := by
    intro b y hb
    rw [Env.get?_of_put hput] at hb
    split at hb
    · obtain rfl : x = y := Option.some.inj hb
      exact Env.fits_of_put hput
    · exact henv b y hb
  cases h with
  | declare _ h => exact hput h
  | assign _ h => exact hput h
  | test e => exact henv

theorem kept (h : Effect env a env') : env.Kept env' := by
  intro b y hb
  cases h with
  | @declare _ name ty initial hfresh hput =>
    have hne : name ≠ b := by
      rintro rfl
      rw [hfresh] at hb
      cases hb
    exact ⟨y, by rw [Env.get?_of_put hput, if_neg hne, hb], rfl⟩
  | @assign _ name v x hold hput =>
    by_cases hname : name = b
    · subst hname
      obtain rfl : x = y := Option.some.inj (hold.symm.trans hb)
      exact ⟨⟨x.ty, v⟩, by rw [Env.get?_of_put hput, if_pos rfl], rfl⟩
    · exact ⟨y, by rw [Env.get?_of_put hput, if_neg hname, hb], rfl⟩
  | test e => exact ⟨y, hb, rfl⟩

end Effect

/-- The name that an event declares, if the declaration succeeds. -/
def Event.declared? (event : Event) : Option String :=
  match event.action with
  | .declare name .. => if (event.action.apply event.env).isOk then some name else none
  | _ => none

theorem Event.fresh_of_declared? {event : Event} {name : String}
    (h : event.declared? = some name) : event.env.get? name = none := by
  obtain ⟨env, action⟩ := event
  cases action with
  | declare declared ty initial =>
    rw [declared?] at h
    cases happly : (Action.declare declared ty initial).apply env with
    | error e => simp [happly, Except.isOk, Except.toBool] at h
    | ok env' =>
      obtain rfl : declared = name := by simpa [happly, Except.isOk, Except.toBool] using h
      cases Action.effect happly with
      | declare hfresh _ => exact hfresh
  | assign assigned v => cases h
  | test e => cases h

theorem Event.declared?_of_error {env : Env} {a : Action} {e : RuntimeError}
    (h : a.apply env = .error e) : (Event.mk env a).declared? = none := by
  cases a with
  | declare name ty initial => simp [declared?, h, Except.isOk, Except.toBool]
  | _ => rfl

/-- Exactly the declared name is new. -/
theorem Effect.isSome_get? {env env' : Env} {a : Action} (h : a.apply env = .ok env')
    (name : String) : (env'.get? name).isSome ↔
      (env.get? name).isSome ∨ (Event.mk env a).declared? = some name := by
  cases Action.effect h with
  | @declare _ declared ty initial hfresh hput =>
    have hdeclared : (Event.mk env (.declare declared ty initial)).declared? = some declared := by
      simp [Event.declared?, h, Except.isOk, Except.toBool]
    rw [Env.get?_of_put hput, hdeclared]
    by_cases hname : declared = name <;> simp [hname]
  | @assign _ assigned v x hold hput =>
    have hdeclared : (Event.mk env (.assign assigned v)).declared? = none := rfl
    rw [Env.get?_of_put hput, hdeclared]
    by_cases hname : assigned = name
    · simp [← hname, hold]
    · simp [hname]
  | test e => simp [Event.declared?]

def declaredNames (events : List Event) : List String := events.filterMap Event.declared?

theorem declaredNames_cons (event : Event) (events : List Event) :
    declaredNames (event :: events) = event.declared?.toList ++ declaredNames events := by
  rw [declaredNames, List.filterMap_cons]
  cases event.declared? <;> rfl

/-- Events in a row: from the variables `env`, each event finds what the one before it left, and
the last one leaves `env'`. An action that fails leaves the variables as they were. -/
inductive History : Env → List Event → Env → Prop where
  | nil (env : Env) : History env [] env
  | ok {env env' env'' : Env} {a : Action} {events : List Event} (ha : a.apply env = .ok env')
      (h : History env' events env'') : History env (⟨env, a⟩ :: events) env''
  | error {env env' : Env} {a : Action} {e : RuntimeError} {events : List Event}
      (ha : a.apply env = .error e) (h : History env events env') :
      History env (⟨env, a⟩ :: events) env'

namespace History

variable {env env' env'' : Env} {events events' : List Event}

theorem append (h : History env events env') (h' : History env' events' env'') :
    History env (events ++ events') env'' := by
  induction h with
  | nil env => exact h'
  | ok ha _ ih => exact .ok ha (ih h')
  | error ha _ ih => exact .error ha (ih h')

theorem typed (h : History env events env') (henv : env.Typed) : env'.Typed := by
  induction h with
  | nil env => exact henv
  | ok ha _ ih => exact ih ((Action.effect ha).typed henv)
  | error _ _ ih => exact ih henv

theorem kept (h : History env events env') : env.Kept env' := by
  induction h with
  | nil env => exact .refl env
  | ok ha _ ih => exact (Action.effect ha).kept.trans ih
  | error _ _ ih => exact ih

/-- The variables at any point in between are typed, and those at the end keep them. -/
theorem between (h : History env events env') (henv : env.Typed) {event : Event}
    (hevent : event ∈ events) : event.env.Typed ∧ event.env.Kept env' := by
  induction h with
  | nil env => cases hevent
  | ok ha hnext ih =>
    rcases List.mem_cons.1 hevent with rfl | hmem
    · exact ⟨henv, (Action.effect ha).kept.trans hnext.kept⟩
    · exact ih ((Action.effect ha).typed henv) hmem
  | error _ hnext ih =>
    rcases List.mem_cons.1 hevent with rfl | hmem
    · exact ⟨henv, hnext.kept⟩
    · exact ih henv hmem

/-- The declared names are those that the variables gain. -/
theorem isSome_get? (h : History env events env') (name : String) :
    (env'.get? name).isSome ↔ (env.get? name).isSome ∨ name ∈ declaredNames events := by
  induction h with
  | nil env => simp [declaredNames]
  | ok ha _ ih =>
    rw [ih, Effect.isSome_get? ha, or_assoc, declaredNames_cons, List.mem_append, Option.mem_toList]
  | error ha _ ih =>
    rw [ih, declaredNames_cons, Event.declared?_of_error ha, Option.toList_none, List.nil_append]

theorem fresh (h : History env events env') {name : String} (hname : name ∈ declaredNames events) :
    env.get? name = none := by
  induction h with
  | nil env => cases hname
  | ok ha _ ih =>
    rw [declaredNames_cons, List.mem_append, Option.mem_toList] at hname
    rcases hname with hnow | hlater
    · exact Event.fresh_of_declared? hnow
    · have hnot := mt (Effect.isSome_get? ha name).2 (by simp [ih hlater])
      simpa using (not_or.1 hnot).1
  | error ha _ ih =>
    rw [declaredNames_cons, Event.declared?_of_error ha] at hname
    exact ih hname

/-- A name that was declared is there from then on, so that it is not declared again. -/
theorem nodup (h : History env events env') : (declaredNames events).Nodup := by
  induction h with
  | nil env => exact .nil
  | @ok env env' _ a events ha hnext ih =>
    rw [declaredNames_cons]
    cases hdeclared : (Event.mk env a).declared? with
    | none => exact ih
    | some name =>
      -- the name is there after this event, and a later declaration would need it to be fresh
      refine List.nodup_cons.2 ⟨fun hagain => ?_, ih⟩
      have hthere := (Effect.isSome_get? ha name).2 (Or.inr hdeclared)
      rw [hnext.fresh hagain] at hthere
      cases hthere
  | error ha _ ih =>
    rw [declaredNames_cons, Event.declared?_of_error ha]
    exact ih

end History

/-- What a journal notes is a history of the variables of its run. -/
theorem Journal.From.history {env : Env} {j : Journal} (h : j.From env) (answers : List String) :
    History env (j.events answers) (j.run.play answers).machine.env := by
  induction h generalizing answers with
  | done m => exact .nil m.env
  | failed e m => exact .nil m.env
  | unfinished m => exact .nil m.env
  | asks name m _ ih =>
    cases answers with
    | nil => exact .nil m.env
    | cons a answers => exact ih a answers
  | ok ha _ ih => exact .ok ha (ih answers)
  | @error m a e ha => exact .error ha (.nil m.env)

/-- What may be asked of an environment from outside. -/
inductive Call where
  | declare (name : String) (ty : DataType) (initial : Option Value)
  | assign (name : String) (v : Value)
  /-- Runs a statement with prepared answers; its loops take at most `n` rounds. -/
  | execute (n : Nat) (s : Stmt) (answers : List String)

/-- Takes over changed variables; an error changes nothing. -/
def Machine.keep (m : Machine) : Except RuntimeError Env → Machine
  | .ok env => { m with env := env }
  | .error _ => m

theorem Machine.history_keep (m : Machine) (a : Action) :
    History m.env [⟨m.env, a⟩] (m.keep (a.apply m.env)).env := by
  cases h : a.apply m.env with
  | ok env => exact .ok h (.nil env)
  | error e => exact .error h (.nil m.env)

namespace Call

/-- The machine after the call; a run that fails keeps what it did before. -/
def perform (m : Machine) : Call → Machine
  | declare name ty initial => m.keep (m.env.declare name ty initial)
  | assign name v => m.keep (m.env.assign name v)
  | execute n s answers => ((s.exec n m).play answers).machine

def events (m : Machine) : Call → List Event
  | declare name ty initial => [⟨m.env, .declare name ty initial⟩]
  | assign name v => [⟨m.env, .assign name v⟩]
  | execute n s answers => (s.journal n m).events answers

theorem history (m : Machine) (c : Call) : History m.env (c.events m) (c.perform m).env := by
  cases c with
  | declare name ty initial => exact m.history_keep (.declare name ty initial)
  | assign name v => exact m.history_keep (.assign name v)
  | execute n s answers =>
    have h := (Stmt.from_journal n s m).history answers
    rwa [Stmt.run_journal] at h

end Call

def performAll (m : Machine) (calls : List Call) : Machine := calls.foldl Call.perform m

def eventsOf (m : Machine) : List Call → List Event
  | [] => []
  | c :: calls => c.events m ++ eventsOf (c.perform m) calls

theorem history_performAll (m : Machine) (calls : List Call) :
    History m.env (eventsOf m calls) (performAll m calls).env := by
  induction calls generalizing m with
  | nil => exact .nil m.env
  | cons c calls ih => exact (c.history m).append (ih (c.perform m))

/-- Whatever is called on an empty environment, the events that change it follow each other; after
all of them and at each of them every variable holds `null` or a value of its type; variables are
never lost and keep their types; and no name is declared twice. -/
theorem variables_over_calls (calls : List Call) :
    History .empty (eventsOf .start calls) (performAll .start calls).env ∧
    (performAll .start calls).env.Typed ∧
    (∀ event ∈ eventsOf .start calls,
      event.env.Typed ∧ event.env.Kept (performAll .start calls).env) ∧
    (∀ before after, calls = before ++ after →
      (performAll .start before).env.Kept (performAll .start calls).env) ∧
    (declaredNames (eventsOf .start calls)).Nodup ∧
    ∀ name, ((performAll .start calls).env.get? name).isSome ↔
      name ∈ declaredNames (eventsOf .start calls) := by
  have h : History .empty (eventsOf .start calls) (performAll .start calls).env :=
    history_performAll .start calls
  refine ⟨h, h.typed Env.typed_empty, fun event hevent => h.between Env.typed_empty hevent, ?_,
    h.nodup, fun name => by simpa using h.isSome_get? name⟩
  rintro before after rfl
  -- the calls after any point start from the machine that those before it left
  have hafter := (history_performAll (performAll .start before) after).kept
  rwa [performAll, performAll, ← List.foldl_append] at hafter

end Bisaya
