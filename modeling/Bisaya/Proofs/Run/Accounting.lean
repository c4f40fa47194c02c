import Bisaya.Proofs.Run.Play

namespace Bisaya

def Unprompted {α : Type} (r : Except RuntimeError α) : Prop :=
  ∀ name, r ≠ .error (.noInput name)

namespace Unprompted

variable {α β : Type}

theorem ok (a : α) : Unprompted (.ok a : Except RuntimeError α) := nofun

theorem bind {r : Except RuntimeError α} {f : α → Except RuntimeError β} (hr : Unprompted r)
    (hf : ∀ a, Unprompted (f a)) : Unprompted (r >>= f) := by
  cases r with
  | ok a => exact hf a
  | error e => exact fun name h => hr name (congrArg Except.error (Except.error.inj h))

theorem mapM {f : α → Except RuntimeError β} (hf : ∀ a, Unprompted (f a)) (as : List α) :
    Unprompted (as.mapM f) := by
  induction as with
  | nil => exact ok []
  | cons a as ih =>
    rw [List.mapM_cons]
    exact (hf a).bind fun _ => ih.bind fun _ => ok _

end Unprompted

theorem Env.lookup_unprompted (env : Env) (name : String) : Unprompted (env.lookup name) := by
  unfold lookup Unprompted
  grind

theorem Env.put_unprompted (env : Env) (name : String) (x : Variable) :
    Unprompted (env.put name x) := by
  unfold put Unprompted
  grind

theorem Env.declare_unprompted (env : Env) (name : String) (ty : DataType)
    (initial : Option Value) : Unprompted (env.declare name ty initial) := by
  unfold declare
  split
  · exact nofun
  · exact env.put_unprompted name _

theorem Env.assign_unprompted (env : Env) (name : String) (v : Value) :
    Unprompted (env.assign name v) :=
  (env.lookup_unprompted name).bind fun _ => env.put_unprompted name _

theorem Arith.apply_unprompted (op : Arith) (v w : Value) : Unprompted (op.apply v w) := by
  unfold apply onNumero onTipik Unprompted
  grind

theorem Rel.apply_unprompted (op : Rel) (v w : Value) : Unprompted (op.apply v w) := by
  unfold apply Unprompted
  grind

theorem Logic.truth_unprompted (op : Logic) (v : Value) : Unprompted (op.truth v) := by
  unfold truth Unprompted
  grind

theorem UnOp.apply_unprompted (op : UnOp) (v : Value) : Unprompted (op.apply v) := by
  unfold apply Unprompted
  grind

theorem Expr.eval_unprompted (env : Env) (e : Expr) : Unprompted (e.eval env) := by
  induction e with
  | lit v => exact .ok v
  | var name => exact (env.lookup_unprompted name).bind fun x => .ok x.value
  | unary op e ih => exact ih.bind op.apply_unprompted
  | binary op l r ihl ihr =>
    cases op with
    | arith op => exact ihl.bind fun v => ihr.bind (op.apply_unprompted v)
    | rel op => exact ihl.bind fun v => ihr.bind (op.apply_unprompted v)
    | logic op =>
      refine ihl.bind fun v => (op.truth_unprompted v).bind fun a => ?_
      split
      · exact .ok _
      · exact ihr.bind fun w => (op.truth_unprompted w).bind fun _ => .ok _

theorem Expr.test_unprompted (env : Env) (e : Expr) : Unprompted (e.test env) := by
  refine (e.eval_unprompted env).bind fun v => ?_
  split
  · exact .ok _
  · exact nofun

theorem Run.stepped_unprompted (env : Env) (s : Step) : Unprompted (Run.stepped env s) := by
  refine (env.lookup_unprompted s.name).bind fun x => ?_
  split
  · exact nofun
  · exact s.direction.op.apply_unprompted _ _
  · exact s.direction.op.apply_unprompted _ _
  · exact nofun

theorem render_unprompted (env : Env) (segments : List Segment) :
    Unprompted (render env segments) := by
  refine (Unprompted.mapM (fun s => ?_) segments).bind fun _ => .ok _
  cases s with
  | newline => exact .ok none
  | escape c => exact .ok _
  | expr e => exact (e.eval_unprompted env).bind fun v => .ok _

def Machine.after (out : Array String) (m : Machine) : Machine := ⟨m.env, out ++ m.output⟩

@[simp] theorem Machine.after_env (out : Array String) (m : Machine) :
    (m.after out).env = m.env := rfl

namespace Run

/-- The second run is the first with the lines `out` in front of its output. It is not the run that
fails for lack of an answer, but who plays it. -/
inductive After (out : Array String) : Run → Run → Prop where
  | done (m : Machine) : After out (done m) (done (m.after out))
  | failed {e : RuntimeError} (m : Machine) (h : ∀ name, e ≠ .noInput name) :
      After out (failed e m) (failed e (m.after out))
  | unfinished (m : Machine) : After out (unfinished m) (unfinished (m.after out))
  | asks (name : String) (m : Machine) {resume resume' : String → Run}
      (h : ∀ raw, After out (resume raw) (resume' raw)) :
      After out (asks name m resume) (asks name (m.after out) resume')

variable {out : Array String}

theorem After.error {α : Type} {r : Except RuntimeError α} {e : RuntimeError} (hr : Unprompted r)
    (h : r = .error e) (m : Machine) : After out (.failed e m) (.failed e (m.after out)) :=
  .failed m fun name he => hr name (he ▸ h)

theorem After.andThen {r r' : Run} {next next' : Machine → Run} (h : After out r r')
    (hnext : ∀ m, After out (next m) (next' (m.after out))) :
    After out (r.andThen next) (r'.andThen next') := by
  induction h with
  | done m => exact hnext m
  | failed m h => exact .failed m h
  | unfinished m => exact .unfinished m
  | asks name m _ ih => exact .asks name m ih

variable (out)

theorem after_change (m : Machine) {r : Except RuntimeError Env} (hr : Unprompted r) :
    After out (change m r) (change (m.after out) r) := by
  cases h : r with
  | ok env => exact .done { m with env := env }
  | error e => exact .error hr h m

theorem after_declare (ty : DataType) (items : List Item) (m : Machine) :
    After out (declare ty items m) (declare ty items (m.after out)) := by
  induction items generalizing m with
  | nil => exact .done m
  | cons i items ih =>
    exact (after_change out m (m.env.declare_unprompted i.name ty i.initial)).andThen ih

theorem after_store (v : Value) (names : List String) (m : Machine) :
    After out (store v names m) (store v names (m.after out)) := by
  induction names generalizing m with
  | nil => exact .done m
  | cons name names ih =>
    exact (after_change out m (m.env.assign_unprompted name v)).andThen ih

theorem after_assign (a : Assignment) (m : Machine) :
    After out (assign a m) (assign a (m.after out)) := by
  unfold assign
  rw [Machine.after_env]
  cases h : a.value.eval m.env with
  | ok v => exact after_store out v a.targets.reverse m
  | error e => exact .error (a.value.eval_unprompted m.env) h m

theorem after_step (s : Step) (m : Machine) : After out (step s m) (step s (m.after out)) :=
  after_change out m ((stepped_unprompted m.env s).bind (m.env.assign_unprompted s.name))

theorem after_update (u : Update) (m : Machine) :
    After out (update u m) (update u (m.after out)) := by
  cases u with
  | assign a => exact after_assign out a m
  | step s => exact after_step out s m

theorem after_print (segments : List Segment) (m : Machine) :
    After out (print segments m) (print segments (m.after out)) := by
  unfold print
  rw [Machine.after_env]
  cases h : render m.env segments with
  | ok lines =>
    have hlines : out ++ m.output ++ lines = out ++ (m.output ++ lines) := Array.ext' (by simp)
    change After out _ (done ⟨m.env, out ++ m.output ++ lines⟩)
    rw [hlines]
    exact .done { m with output := m.output ++ lines }
  | error e => exact .error (render_unprompted m.env segments) h m

theorem after_read (names : List String) (m : Machine) :
    After out (read names m) (read names (m.after out)) := by
  induction names generalizing m with
  | nil => exact .done m
  | cons name names ih =>
    unfold read
    rw [Machine.after_env]
    cases h : m.env.lookup name with
    | error e => exact .error (m.env.lookup_unprompted name) h m
    | ok x =>
      refine .asks name m fun raw => ?_
      cases Entry.read? x.ty raw with
      | none => exact .failed m nofun
      | some v => exact (after_change out m (m.env.assign_unprompted name v)).andThen ih

theorem after_branch (test : Expr) {yes no : Machine → Run}
    (hyes : ∀ m, After out (yes m) (yes (m.after out)))
    (hno : ∀ m, After out (no m) (no (m.after out))) (m : Machine) :
    After out (branch test yes no m) (branch test yes no (m.after out)) := by
  unfold branch
  rw [Machine.after_env]
  cases h : test.test m.env with
  | error e => exact .error (test.test_unprompted m.env) h m
  | ok b =>
    cases b with
    | true => exact hyes m
    | false => exact hno m

theorem after_rounds (test : Expr) {body change : Machine → Run}
    (hbody : ∀ m, After out (body m) (body (m.after out)))
    (hchange : ∀ m, After out (change m) (change (m.after out))) (n : Nat) (m : Machine) :
    After out (rounds test body change n m) (rounds test body change n (m.after out)) := by
  induction n generalizing m with
  | zero => exact .unfinished m
  | succ n ih =>
    exact after_branch out test (fun m => (hbody m).andThen fun m => (hchange m).andThen ih) .done m

end Run

mutual

theorem Stmt.exec_after (out : Array String) (n : Nat) (s : Stmt) (m : Machine) :
    Run.After out (s.exec n m) (s.exec n (m.after out)) := by
  cases s with
  | declare ty items => exact Run.after_declare out ty items m
  | assign a => exact Run.after_assign out a m
  | step s => exact Run.after_step out s m
  | print segments => exact Run.after_print out segments m
  | read names => exact Run.after_read out names m
  | choose test body rest =>
    exact Run.after_branch out test (execAll_after out n body) (Chain.exec_after out n rest) m
  | loop init test update body =>
    exact (Run.after_assign out init m).andThen
      (Run.after_rounds out test (execAll_after out n body) (Run.after_update out update) n)

theorem Chain.exec_after (out : Array String) (n : Nat) (c : Chain) (m : Machine) :
    Run.After out (c.exec n m) (c.exec n (m.after out)) := by
  cases c with
  | done => exact .done m
  | wala body => exact execAll_after out n body m
  | dili test body rest =>
    exact Run.after_branch out test (execAll_after out n body) (Chain.exec_after out n rest) m

theorem execAll_after (out : Array String) (n : Nat) (ss : List Stmt) (m : Machine) :
    Run.After out (execAll n ss m) (execAll n ss (m.after out)) := by
  cases ss with
  | nil => exact .done m
  | cons s ss => exact (Stmt.exec_after out n s m).andThen (execAll_after out n ss)

end

namespace Outcome

/-- The variable for which there was no answer. -/
def unanswered : Outcome → List String
  | failed (.noInput name) => [name]
  | _ => []

def LacksAnswer (o : Outcome) : Prop := ∃ name, o = failed (.noInput name)

theorem unanswered_of_not_lacksAnswer {o : Outcome} (h : ¬ o.LacksAnswer) : o.unanswered = [] := by
  unfold unanswered
  split
  · exact absurd ⟨_, rfl⟩ h
  · rfl

instance (o : Outcome) : Decidable o.LacksAnswer :=
  if h : o.unanswered = [] then isFalse (by rintro ⟨name, rfl⟩; cases h)
  else isTrue (Classical.not_not.1 fun hno => h (unanswered_of_not_lacksAnswer hno))

theorem length_unanswered (o : Outcome) :
    o.unanswered.length = if o.LacksAnswer then 1 else 0 := by
  split
  · rename_i h
    obtain ⟨name, rfl⟩ := h
    rfl
  · rename_i h
    rw [unanswered_of_not_lacksAnswer h]
    rfl

end Outcome

namespace Run

/-- The run asks for variables and is given answers, pair by pair, and comes to the second run. -/
inductive Hears : Run → List (String × String) → Run → Prop where
  | nil (r : Run) : Hears r [] r
  | cons {name raw : String} {m : Machine} {resume : String → Run}
      {dialogue : List (String × String)} {r : Run} (h : Hears (resume raw) dialogue r) :
      Hears (asks name m resume) ((name, raw) :: dialogue) r

variable {out : Array String} {r r' : Run}

theorem After.play_eq (h : After out r r') (answers : List String) :
    r'.play answers =
      { r.play answers with machine := (r.play answers).machine.after out } := by
  induction h generalizing answers with
  | done m => rfl
  | failed m h => rfl
  | unfinished m => rfl
  | asks name m _ ih =>
    cases answers with
    | nil => rfl
    | cons a answers => simp only [play, ih]

/-- All answers that were handed out were heard, and those that were not remain. -/
theorem After.dialogue (h : After out r r') (answers : List String) :
    ∃ dialogue last, r.Hears dialogue last ∧
      last.play (r.play answers).remaining =
        { r.play answers with asked := (r.play answers).outcome.unanswered } ∧
      answers = dialogue.map Prod.snd ++ (r.play answers).remaining ∧
      (r.play answers).asked =
        dialogue.map Prod.fst ++ (r.play answers).outcome.unanswered := by
  induction h generalizing answers with
  | done m => exact ⟨[], _, .nil _, rfl, rfl, rfl⟩
  | failed m h =>
    have hnone := Outcome.unanswered_of_not_lacksAnswer fun ⟨name, he⟩ =>
      h name (Outcome.failed.inj he)
    refine ⟨[], _, .nil _, ?_, rfl, hnone.symm⟩
    simp only [play, hnone]
  | unfinished m => exact ⟨[], _, .nil _, rfl, rfl, rfl⟩
  | asks name m _ ih =>
    cases answers with
    | nil => exact ⟨[], _, .nil _, rfl, rfl, rfl⟩
    | cons a answers =>
      obtain ⟨dialogue, last, hhears, hlast, hanswers, hasked⟩ := ih a answers
      refine ⟨(name, a) :: dialogue, last, .cons hhears, hlast, ?_, ?_⟩
      · exact congrArg (a :: ·) hanswers
      · exact congrArg (name :: ·) hasked

/-- Answers that no one asks for are left over. -/
theorem play_append (r : Run) (answers more : List String)
    (h : ¬ (r.play answers).outcome.LacksAnswer) :
    r.play (answers ++ more) =
      { r.play answers with remaining := (r.play answers).remaining ++ more } := by
  induction r generalizing answers with
  | done m => rfl
  | failed e m => rfl
  | unfinished m => rfl
  | asks name m resume ih =>
    cases answers with
    | nil => exact absurd ⟨name, rfl⟩ h
    | cons a answers =>
      simp only [List.cons_append, play, ih a answers h]

end Run

/-- Every run of a program, however it ends and whatever the bound: the answers given out are the
first of those prepared, one for each variable asked for but for the one that found none; lines are
added to the output in the same way whatever it held; and unless an answer was missing, answers put
behind the others are left over. -/
theorem execAll_accounts (n : Nat) (p : Program) (env : Env) (out : Array String)
    (answers : List String) :
    let ending := (execAll n p ⟨env, out⟩).play answers
    ∃ dialogue lines,
      (∃ last, (execAll n p ⟨env, out⟩).Hears dialogue last ∧
        last.play ending.remaining = { ending with asked := ending.outcome.unanswered }) ∧
      answers = dialogue.map Prod.snd ++ ending.remaining ∧
      ending.asked = dialogue.map Prod.fst ++ ending.outcome.unanswered ∧
      ending.asked.length = dialogue.length + (if ending.outcome.LacksAnswer then 1 else 0) ∧
      (∀ out', (execAll n p ⟨env, out'⟩).play answers =
        { ending with machine := ⟨ending.machine.env, out' ++ lines⟩ }) ∧
      (¬ ending.outcome.LacksAnswer → ∀ more,
        (execAll n p ⟨env, out⟩).play (answers ++ more) =
          { ending with remaining := ending.remaining ++ more }) := by
  intro ending
  -- the run that starts with no output gives the lines that every other adds to its own
  have hfrom (out' : Array String) : (execAll n p ⟨env, out'⟩).play answers =
      { (execAll n p ⟨env, #[]⟩).play answers with
        machine := ((execAll n p ⟨env, #[]⟩).play answers).machine.after out' } := by
    have hplay := (execAll_after out' n p ⟨env, #[]⟩).play_eq answers
    rwa [Machine.after, Array.append_empty] at hplay
  obtain ⟨dialogue, last, hhears, hlast, hanswers, hasked⟩ :=
    (execAll_after #[] n p ⟨env, out⟩).dialogue answers
  refine ⟨dialogue, ((execAll n p ⟨env, #[]⟩).play answers).machine.output,
    ⟨last, hhears, hlast⟩, hanswers, hasked, ?_, ?_, ?_⟩
  · calc ending.asked.length
        = dialogue.length + ending.outcome.unanswered.length := by
          rw [hasked, List.length_append, List.length_map]
      _ = _ := by rw [Outcome.length_unanswered]
  · intro out'
    rw [hfrom out', show ending = _ from hfrom out]
    rfl
  · intro h more
    exact Run.play_append _ answers more h

end Bisaya
