import Mathlib
import Bisaya.Run.Script

namespace Bisaya

/-- The names that occur in a piece of a program, and those among them that it declares or stores a
value under. -/
structure Footprint where
  names : List String
  targets : List String

namespace Footprint

def reading (names : List String) : Footprint := ⟨names, []⟩

def writing (names : List String) : Footprint := ⟨names, names⟩

instance : Union Footprint := ⟨fun f g => ⟨f.names ++ g.names, f.targets ++ g.targets⟩⟩

instance : LE Footprint := ⟨fun f g => f.names ⊆ g.names ∧ f.targets ⊆ g.targets⟩

variable {f g h : Footprint}

theorem le_refl (f : Footprint) : f ≤ f := ⟨List.Subset.refl _, List.Subset.refl _⟩

theorem union_le : f ∪ g ≤ h ↔ f ≤ h ∧ g ≤ h := by
  have hnames : f.names ++ g.names ⊆ h.names ↔ f.names ⊆ h.names ∧ g.names ⊆ h.names :=
    List.append_subset
  have htargets : f.targets ++ g.targets ⊆ h.targets ↔
      f.targets ⊆ h.targets ∧ g.targets ⊆ h.targets := List.append_subset
  constructor
  · rintro ⟨hn, ht⟩
    exact ⟨⟨(hnames.1 hn).1, (htargets.1 ht).1⟩, (hnames.1 hn).2, (htargets.1 ht).2⟩
  · rintro ⟨⟨hn, ht⟩, hn', ht'⟩
    exact ⟨hnames.2 ⟨hn, hn'⟩, htargets.2 ⟨ht, ht'⟩⟩

theorem writing_cons_le {name : String} {names : List String} :
    writing (name :: names) ≤ f ↔ writing [name] ≤ f ∧ writing names ≤ f :=
  union_le (f := writing [name]) (g := writing names)

end Footprint

def Expr.names : Expr → List String
  | lit _ => []
  | var name => [name]
  | unary _ e => e.names
  | binary _ l r => l.names ++ r.names

def Segment.names : Segment → List String
  | expr e => e.names
  | _ => []

def Assignment.footprint (a : Assignment) : Footprint :=
  .writing a.targets ∪ .reading a.value.names

def Step.footprint (s : Step) : Footprint := .writing [s.name]

def Update.footprint : Update → Footprint
  | assign a => a.footprint
  | step s => s.footprint

mutual

def Stmt.footprint : Stmt → Footprint
  | .declare _ items => .writing (items.map Item.name)
  | .assign a => a.footprint
  | .step s => s.footprint
  | .print segments => .reading (segments.flatMap Segment.names)
  | .read names => .writing names
  | .choose test body rest => .reading test.names ∪ (footprintAll body ∪ rest.footprint)
  | .loop init test update body =>
    init.footprint ∪ (.reading test.names ∪ (update.footprint ∪ footprintAll body))

def Chain.footprint : Chain → Footprint
  | .done => .reading []
  | .wala body => footprintAll body
  | .dili test body rest => .reading test.names ∪ (footprintAll body ∪ rest.footprint)

def footprintAll : List Stmt → Footprint
  | [] => .reading []
  | s :: rest => s.footprint ∪ footprintAll rest

end

namespace Env

/-- Under each of the names both have the same variable, or neither has one. -/
def Agrees (names : List String) (env env' : Env) : Prop :=
  ∀ name ∈ names, env'.get? name = env.get? name

variable {names names' : List String} {env env' : Env}

theorem Agrees.mono (h : env.Agrees names env') (hsub : names' ⊆ names) :
    env.Agrees names' env' := fun name hname => h name (hsub hname)

theorem Agrees.lookup (h : env.Agrees names env') {name : String} (hname : name ∈ names) :
    env'.lookup name = env.lookup name := by
  rw [Env.lookup, Env.lookup, h name hname]

/-- Whether a variable can be stored depends on it alone. -/
theorem put_cases (name : String) (x : Variable) :
    (∃ e, ∀ env : Env, env.put name x = .error e) ∨
      ∀ env : Env, ∃ env', env.put name x = .ok env' := by
  unfold put
  cases x.value.type? with
  | none => exact .inr fun env => ⟨_, rfl⟩
  | some got =>
    by_cases hgot : got = x.ty
    · exact .inr fun env => ⟨_, if_pos hgot⟩
    · exact .inl ⟨_, fun env => if_neg hgot⟩

end Env

section Congr

variable {env env' : Env}

theorem Expr.eval_congr {e : Expr} (h : env.Agrees e.names env') : e.eval env' = e.eval env := by
  induction e with
  | lit v => rfl
  | var name => rw [eval, eval, h.lookup (List.mem_singleton_self name)]
  | unary op e ih => rw [eval, eval, ih h]
  | binary op l r ihl ihr =>
    have hl := ihl (h.mono (List.subset_append_left ..))
    have hr := ihr (h.mono (List.subset_append_right ..))
    cases op with
    | arith op => rw [eval, eval, hl, hr]
    | rel op => rw [eval, eval, hl, hr]
    | logic op => rw [eval, eval, hl, hr]

theorem Expr.test_congr {e : Expr} (h : env.Agrees e.names env') : e.test env' = e.test env := by
  rw [test, test, eval_congr h]

theorem Run.stepped_congr {s : Step} (h : env.Agrees [s.name] env') :
    Run.stepped env' s = Run.stepped env s := by
  rw [Run.stepped, Run.stepped, h.lookup (List.mem_singleton_self s.name)]

theorem render_congr {segments : List Segment}
    (h : env.Agrees (segments.flatMap Segment.names) env') :
    render env' segments = render env segments := by
  have hsegment (s : Segment) (hs : env.Agrees s.names env') : s.eval env' = s.eval env := by
    cases s with
    | newline => rfl
    | escape c => rfl
    | expr e => rw [Segment.eval, Segment.eval, Expr.eval_congr hs]
  have hsegments : segments.mapM (Segment.eval env') = segments.mapM (Segment.eval env) := by
    induction segments with
    | nil => rfl
    | cons s segments ih =>
      rw [List.flatMap_cons] at h
      rw [List.mapM_cons, List.mapM_cons, hsegment s (h.mono (List.subset_append_left ..)),
        ih (h.mono (List.subset_append_right ..))]
  rw [render, render, hsegments]

end Congr

/-- A relation between the machines of two runs that a piece of a program with this footprint cannot
tell apart: related machines have the same variables under its names, and stay related when both
print the same lines or store the same variable under one of its targets. -/
structure Coupling (f : Footprint) where
  Rel : Machine → Machine → Prop
  agrees {m m' : Machine} : Rel m m' → m.env.Agrees f.names m'.env
  prints {m m' : Machine} (lines : List String) : Rel m m' →
    Rel { m with output := m.output ++ lines } { m' with output := m'.output ++ lines }
  puts {m m' : Machine} {env env' : Env} {name : String} {x : Variable} : Rel m m' →
    name ∈ f.targets → m.env.put name x = .ok env → m'.env.put name x = .ok env' →
    Rel { m with env := env } { m' with env := env' }

/-- The runs take the same turns, and come to related machines at each of them. -/
inductive Run.Coupled (R : Machine → Machine → Prop) : Run → Run → Prop where
  | done {m m' : Machine} (h : R m m') : Coupled R (done m) (done m')
  | failed (e : RuntimeError) {m m' : Machine} (h : R m m') : Coupled R (failed e m) (failed e m')
  | unfinished {m m' : Machine} (h : R m m') : Coupled R (unfinished m) (unfinished m')
  | asks (name : String) {m m' : Machine} {resume resume' : String → Run} (h : R m m')
      (hresume : ∀ raw, Coupled R (resume raw) (resume' raw)) :
      Coupled R (asks name m resume) (asks name m' resume')

namespace Run.Coupled

variable {R : Machine → Machine → Prop} {r r' : Run}

theorem andThen {next next' : Machine → Run} (h : Coupled R r r')
    (hnext : ∀ {m m'}, R m m' → Coupled R (next m) (next' m')) :
    Coupled R (r.andThen next) (r'.andThen next') := by
  induction h with
  | done h => exact hnext h
  | failed e h => exact .failed e h
  | unfinished h => exact .unfinished h
  | asks name h _ ih => exact .asks name h ih

theorem play (h : Coupled R r r') (answers : List String) :
    (r'.play answers).outcome = (r.play answers).outcome ∧
      (r'.play answers).asked = (r.play answers).asked ∧
      (r'.play answers).remaining = (r.play answers).remaining ∧
      R (r.play answers).machine (r'.play answers).machine := by
  induction h generalizing answers with
  | done h => exact ⟨rfl, rfl, rfl, h⟩
  | failed e h => exact ⟨rfl, rfl, rfl, h⟩
  | unfinished h => exact ⟨rfl, rfl, rfl, h⟩
  | asks name h _ ih =>
    cases answers with
    | nil => exact ⟨rfl, rfl, rfl, h⟩
    | cons a answers =>
      obtain ⟨houtcome, hasked, hremaining, hmachine⟩ := ih a answers
      exact ⟨houtcome, congrArg (name :: ·) hasked, hremaining, hmachine⟩

/-- Where the relation is equality and more, the runs are one run, and what follows it need only be
the same on related machines. -/
theorem andThen_eq (h : Coupled R r r') (heq : ∀ {m m'}, R m m' → m' = m)
    {next next' : Machine → Run} (hnext : ∀ {m}, R m m → next m = next' m) :
    r.andThen next = r'.andThen next' := by
  induction h with
  | done hrel =>
    obtain rfl := heq hrel
    exact hnext hrel
  | failed e hrel => rw [heq hrel]; rfl
  | unfinished hrel => rw [heq hrel]; rfl
  | asks name hrel _ ih =>
    rw [Run.andThen, Run.andThen, heq hrel]
    congr 1
    funext raw
    exact ih raw

theorem eq (h : Coupled R r r') (heq : ∀ {m m'}, R m m' → m' = m) : r = r' := by
  rw [← r.andThen_done, ← r'.andThen_done]
  exact h.andThen_eq heq fun _ => rfl

end Run.Coupled

namespace Coupling

variable {f : Footprint} (C : Coupling f) {m m' : Machine}

theorem change_put {name : String} (hname : name ∈ f.targets) (x : Variable) (h : C.Rel m m') :
    Run.Coupled C.Rel (.change m (m.env.put name x)) (.change m' (m'.env.put name x)) := by
  rcases Env.put_cases name x with ⟨e, herror⟩ | hok
  · rw [herror, herror]
    exact .failed e h
  · obtain ⟨env, henv⟩ := hok m.env
    obtain ⟨env', henv'⟩ := hok m'.env
    rw [henv, henv']
    exact .done (C.puts h hname henv henv')

theorem change_declare {name : String} (hname : Footprint.writing [name] ≤ f) (ty : DataType)
    (initial : Option Value) (h : C.Rel m m') :
    Run.Coupled C.Rel (.change m (m.env.declare name ty initial))
      (.change m' (m'.env.declare name ty initial)) := by
  rw [Env.declare, Env.declare, C.agrees h name (hname.1 (List.mem_singleton_self name))]
  cases m.env.get? name with
  | some x => exact .failed _ h
  | none => exact C.change_put (hname.2 (List.mem_singleton_self name)) _ h

theorem change_assign {name : String} (hname : Footprint.writing [name] ≤ f) (v : Value)
    (h : C.Rel m m') :
    Run.Coupled C.Rel (.change m (m.env.assign name v)) (.change m' (m'.env.assign name v)) := by
  rw [Env.assign, Env.assign, (C.agrees h).lookup (hname.1 (List.mem_singleton_self name))]
  cases m.env.lookup name with
  | error e => exact .failed e h
  | ok x => exact C.change_put (hname.2 (List.mem_singleton_self name)) _ h

theorem declare {ty : DataType} {items : List Item}
    (hitems : Footprint.writing (items.map Item.name) ≤ f) (h : C.Rel m m') :
    Run.Coupled C.Rel (.declare ty items m) (.declare ty items m') := by
  induction items generalizing m m' with
  | nil => exact .done h
  | cons i items ih =>
    obtain ⟨hname, hrest⟩ := Footprint.writing_cons_le.1 hitems
    exact (C.change_declare hname ty i.initial h).andThen fun h => ih hrest h

theorem store {v : Value} {names : List String} (hnames : Footprint.writing names ≤ f)
    (h : C.Rel m m') : Run.Coupled C.Rel (.store v names m) (.store v names m') := by
  induction names generalizing m m' with
  | nil => exact .done h
  | cons name names ih =>
    obtain ⟨hname, hrest⟩ := Footprint.writing_cons_le.1 hnames
    exact (C.change_assign hname v h).andThen fun h => ih hrest h

theorem assign {a : Assignment} (ha : a.footprint ≤ f) (h : C.Rel m m') :
    Run.Coupled C.Rel (.assign a m) (.assign a m') := by
  obtain ⟨htargets, hvalue⟩ := Footprint.union_le.1 ha
  have hreverse : Footprint.writing a.targets.reverse ≤ f :=
    ⟨(List.reverse_subset.2 htargets.1), (List.reverse_subset.2 htargets.2)⟩
  rw [Run.assign, Run.assign, Expr.eval_congr ((C.agrees h).mono hvalue.1)]
  cases a.value.eval m.env with
  | ok v => exact C.store hreverse h
  | error e => exact .failed e h

theorem step {s : Step} (hs : s.footprint ≤ f) (h : C.Rel m m') :
    Run.Coupled C.Rel (.step s m) (.step s m') := by
  rw [Run.step, Run.step, Run.stepped_congr ((C.agrees h).mono hs.1)]
  cases Run.stepped m.env s with
  | ok v => exact C.change_assign hs v h
  | error e => exact .failed e h

theorem update {u : Update} (hu : u.footprint ≤ f) (h : C.Rel m m') :
    Run.Coupled C.Rel (.update u m) (.update u m') := by
  cases u with
  | assign a => exact C.assign hu h
  | step s => exact C.step hu h

theorem print {segments : List Segment}
    (hsegments : Footprint.reading (segments.flatMap Segment.names) ≤ f) (h : C.Rel m m') :
    Run.Coupled C.Rel (.print segments m) (.print segments m') := by
  rw [Run.print, Run.print, render_congr ((C.agrees h).mono hsegments.1)]
  cases render m.env segments with
  | ok lines => exact .done (C.prints lines h)
  | error e => exact .failed e h

theorem read {names : List String} (hnames : Footprint.writing names ≤ f) (h : C.Rel m m') :
    Run.Coupled C.Rel (.read names m) (.read names m') := by
  induction names generalizing m m' with
  | nil => exact .done h
  | cons name names ih =>
    obtain ⟨hname, hrest⟩ := Footprint.writing_cons_le.1 hnames
    rw [Run.read, Run.read, (C.agrees h).lookup (hname.1 (List.mem_singleton_self name))]
    cases m.env.lookup name with
    | error e => exact .failed e h
    | ok x =>
      refine .asks name h fun raw => ?_
      cases Entry.read? x.ty raw with
      | none => exact .failed _ h
      | some v => exact (C.change_assign hname v h).andThen fun h => ih hrest h

theorem branch {test : Expr} (htest : Footprint.reading test.names ≤ f) {yes no : Machine → Run}
    (hyes : ∀ {m m'}, C.Rel m m' → Run.Coupled C.Rel (yes m) (yes m'))
    (hno : ∀ {m m'}, C.Rel m m' → Run.Coupled C.Rel (no m) (no m')) (h : C.Rel m m') :
    Run.Coupled C.Rel (.branch test yes no m) (.branch test yes no m') := by
  rw [Run.branch, Run.branch, Expr.test_congr ((C.agrees h).mono htest.1)]
  cases test.test m.env with
  | error e => exact .failed e h
  | ok b =>
    cases b with
    | true => exact hyes h
    | false => exact hno h

theorem rounds {test : Expr} (htest : Footprint.reading test.names ≤ f)
    {body change : Machine → Run}
    (hbody : ∀ {m m'}, C.Rel m m' → Run.Coupled C.Rel (body m) (body m'))
    (hchange : ∀ {m m'}, C.Rel m m' → Run.Coupled C.Rel (change m) (change m')) (n : ℕ)
    (h : C.Rel m m') :
    Run.Coupled C.Rel (.rounds test body change n m) (.rounds test body change n m') := by
  induction n generalizing m m' with
  | zero => exact .unfinished h
  | succ n ih =>
    exact C.branch htest (fun h => (hbody h).andThen fun h => (hchange h).andThen ih) .done h

end Coupling

mutual

theorem Stmt.exec_coupled {f : Footprint} (C : Coupling f) (n : ℕ) {m m' : Machine} (s : Stmt)
    (hs : s.footprint ≤ f) (h : C.Rel m m') : Run.Coupled C.Rel (s.exec n m) (s.exec n m') := by
  cases s with
  | declare ty items => exact C.declare hs h
  | assign a => exact C.assign hs h
  | step s => exact C.step hs h
  | print segments => exact C.print hs h
  | read names => exact C.read hs h
  | choose test body rest =>
    rw [Stmt.footprint, Footprint.union_le, Footprint.union_le] at hs
    obtain ⟨htest, hbody, hrest⟩ := hs
    exact C.branch htest (execAll_coupled C n body hbody) (Chain.exec_coupled C n rest hrest) h
  | loop init test update body =>
    rw [Stmt.footprint, Footprint.union_le, Footprint.union_le, Footprint.union_le] at hs
    obtain ⟨hinit, htest, hupdate, hbody⟩ := hs
    exact (C.assign hinit h).andThen
      (C.rounds htest (execAll_coupled C n body hbody) (C.update hupdate) n)

theorem Chain.exec_coupled {f : Footprint} (C : Coupling f) (n : ℕ) {m m' : Machine} (c : Chain)
    (hc : c.footprint ≤ f) (h : C.Rel m m') : Run.Coupled C.Rel (c.exec n m) (c.exec n m') := by
  cases c with
  | done => exact .done h
  | wala body => exact execAll_coupled C n body hc h
  | dili test body rest =>
    rw [Chain.footprint, Footprint.union_le, Footprint.union_le] at hc
    obtain ⟨htest, hbody, hrest⟩ := hc
    exact C.branch htest (execAll_coupled C n body hbody) (Chain.exec_coupled C n rest hrest) h

theorem execAll_coupled {f : Footprint} (C : Coupling f) (n : ℕ) {m m' : Machine} (ss : List Stmt)
    (hss : footprintAll ss ≤ f) (h : C.Rel m m') :
    Run.Coupled C.Rel (execAll n ss m) (execAll n ss m') := by
  cases ss with
  | nil => exact .done h
  | cons s ss =>
    rw [footprintAll, Footprint.union_le] at hss
    exact (Stmt.exec_coupled C n s hss.1 h).andThen (execAll_coupled C n ss hss.2)

end

namespace Coupling

/-- Machines with the same variables under the names, which have added the same lines to the outputs
that they started with. -/
def agreeing (f : Footprint) (out out' : Array String) : Coupling f where
  Rel m m' := m.env.Agrees f.names m'.env ∧
    ∃ lines, m.output = out ++ lines ∧ m'.output = out' ++ lines
  agrees := And.left
  prints := by
    rintro m m' lines ⟨hagrees, printed, houtput, houtput'⟩
    refine ⟨hagrees, printed ++ lines, ?_, ?_⟩
    · rw [houtput]
      exact Array.ext' (by simp)
    · rw [houtput']
      exact Array.ext' (by simp)
  puts := by
    rintro m m' env env' name x ⟨hagrees, hlines⟩ - hput hput'
    refine ⟨fun a ha => ?_, hlines⟩
    rw [Env.get?_of_put hput, Env.get?_of_put hput', hagrees a ha]

/-- One machine, in which all variables but the targets are as in `env`. -/
def keeping (f : Footprint) (env : Env) : Coupling f where
  Rel m m' := m' = m ∧ ∀ name ∉ f.targets, m.env.get? name = env.get? name
  agrees := by
    rintro m m' ⟨rfl, -⟩ name -
    rfl
  prints := by
    rintro m m' lines ⟨rfl, hkept⟩
    exact ⟨rfl, hkept⟩
  puts := by
    rintro m m' env env' name x ⟨rfl, hkept⟩ hname hput hput'
    obtain rfl : env = env' := Except.ok.inj (hput.symm.trans hput')
    refine ⟨rfl, fun a ha => ?_⟩
    have hne : name ≠ a := by
      rintro rfl
      exact ha hname
    rw [Env.get?_of_put hput, if_neg hne, hkept a ha]

end Coupling

/-- A statement changes its targets only, also if it fails on its way. -/
theorem Stmt.get?_exec (n : ℕ) (s : Stmt) (m : Machine) (answers : List String) {name : String}
    (hname : name ∉ s.footprint.targets) :
    ((s.exec n m).play answers).machine.env.get? name = m.env.get? name := by
  have hrun := s.exec_coupled (.keeping s.footprint m.env) n (Footprint.le_refl _)
    (m := m) ⟨rfl, fun _ _ => rfl⟩
  exact (hrun.play answers).2.2.2.2 name hname

/-- A statement cannot tell two environments apart that agree on the names in it. With the same
answers it ends in the same way, asks for the same variables, leaves the same answers and adds the
same lines to the output; the environments still agree on the names, and each keeps all variables
that are no targets of the statement. -/
theorem Stmt.exec_of_agrees (n : ℕ) (s : Stmt) {env env' : Env}
    (h : env.Agrees s.footprint.names env') (out out' : Array String) (answers : List String) :
    let ending := (s.exec n ⟨env, out⟩).play answers
    let ending' := (s.exec n ⟨env', out'⟩).play answers
    ending'.outcome = ending.outcome ∧ ending'.asked = ending.asked ∧
      ending'.remaining = ending.remaining ∧
      (∃ lines, ending.machine.output = out ++ lines ∧ ending'.machine.output = out' ++ lines) ∧
      ending.machine.env.Agrees s.footprint.names ending'.machine.env ∧
      ∀ name ∉ s.footprint.targets, ending.machine.env.get? name = env.get? name ∧
        ending'.machine.env.get? name = env'.get? name := by
  intro ending ending'
  have hstart : (Coupling.agreeing s.footprint out out').Rel ⟨env, out⟩ ⟨env', out'⟩ :=
    ⟨h, #[], Array.append_empty.symm, Array.append_empty.symm⟩
  obtain ⟨houtcome, hasked, hremaining, hagrees, hlines⟩ :=
    (s.exec_coupled _ n (Footprint.le_refl _) hstart).play answers
  refine ⟨houtcome, hasked, hremaining, hlines, hagrees, fun name hname => ?_⟩
  exact ⟨s.get?_exec n ⟨env, out⟩ answers hname, s.get?_exec n ⟨env', out'⟩ answers hname⟩

def askTwice : Stmt :=
  .loop ⟨["i"], .lit (.numero 2)⟩ (.binary (.rel .gt) (.var "i") (.lit (.numero 0)))
    (.step ⟨"i", .down⟩) [.read ["x"], .print [.expr (.var "x")]]

/-- The loop fails in its second round for lack of an answer, and a further variable is neither seen
nor changed by it. -/
theorem Stmt.exec_askTwice :
    let i := Variable.mk .numero .null
    let x := Variable.mk .letra .null
    let env : Env := ⟨.ofList [("i", i), ("x", x)]⟩
    let env' : Env := ⟨.ofList [("i", i), ("secret", ⟨.numero, .numero 7⟩), ("x", x)]⟩
    env.Agrees askTwice.footprint.names env' ∧
      ((askTwice.exec 3 ⟨env, #[]⟩).play ["a"]).outcome = .failed (.noInput "x") ∧
      ((askTwice.exec 3 ⟨env', #["old"]⟩).play ["a"]).outcome = .failed (.noInput "x") ∧
      ((askTwice.exec 3 ⟨env', #["old"]⟩).play ["a"]).machine.env.get? "secret" =
        env'.get? "secret" := by
  intro i x env env'
  have hagrees : env.Agrees askTwice.footprint.names env' := by
    unfold Env.Agrees
    decide
  have hfailed : ((askTwice.exec 3 ⟨env, #[]⟩).play ["a"]).outcome = .failed (.noInput "x") := by
    decide +kernel
  have hsecret : "secret" ∉ askTwice.footprint.targets := by decide
  obtain ⟨houtcome, -, -, -, -, hkept⟩ :=
    askTwice.exec_of_agrees 3 hagrees #[] #["old"] ["a"]
  exact ⟨hagrees, hfailed, houtcome.trans hfailed, (hkept "secret" hsecret).2⟩

end Bisaya
