import Bisaya.Proofs.Expr.Typing
import Bisaya.Proofs.Run.Frame
import Bisaya.Proofs.Run.History

namespace Bisaya

/-- The assignment that a step is short for. -/
def Step.assignment (s : Step) : Assignment :=
  ⟨[s.name], .binary (.arith s.direction.op) (.var s.name) (.lit (.numero 1))⟩

namespace Update

def spelled : Update → Update
  | assign a => assign a
  | step s => assign s.assignment

def stmt : Update → Stmt
  | assign a => .assign a
  | step s => .step s

end Update

mutual

/-- The statement with every step in it, at any depth, written as an assignment. -/
def Stmt.spelled : Stmt → Stmt
  | .step s => .assign s.assignment
  | .choose test body rest => .choose test (spelledAll body) rest.spelled
  | .loop init test update body => .loop init test update.spelled (spelledAll body)
  | s => s

def Chain.spelled : Chain → Chain
  | .done => .done
  | .wala body => .wala (spelledAll body)
  | .dili test body rest => .dili test (spelledAll body) rest.spelled

def spelledAll : List Stmt → List Stmt
  | [] => []
  | s :: rest => s.spelled :: spelledAll rest

end

mutual

/-- The statement and those inside it, to which the last clause of a loop header belongs. -/
def Stmt.parts : Stmt → List Stmt
  | .choose test body rest => .choose test body rest :: (partsAll body ++ rest.parts)
  | .loop init test update body =>
    .loop init test update body :: update.stmt :: partsAll body
  | s => [s]

def Chain.parts : Chain → List Stmt
  | .done => []
  | .wala body => partsAll body
  | .dili _ body rest => partsAll body ++ rest.parts

def partsAll : List Stmt → List Stmt
  | [] => []
  | s :: rest => s.parts ++ partsAll rest

end

/-- No name that is stepped is declared as a text or a truth value. -/
def StepsNumbers (parts : List Stmt) : Prop :=
  ∀ s ty items, Stmt.step s ∈ parts → Stmt.declare ty items ∈ parts →
    s.name ∈ items.map Item.name → ty ≠ .letra ∧ ty ≠ .tinuod

/-- Values fit, and the stepped names among the variables are those of numbers. -/
structure Env.Steppable (parts : List Stmt) (env : Env) : Prop where
  typed : env.Typed
  number : ∀ s, Stmt.step s ∈ parts → ∀ x, env.get? s.name = some x → x.ty.IsNumber

/-- Only a declaration can give a stepped name a type. -/
theorem Effect.steppable {parts : List Stmt} {env env' : Env} {a : Action} (h : Effect env a env')
    (henv : env.Steppable parts)
    (ha : ∀ s ty initial, Stmt.step s ∈ parts → a = .declare s.name ty initial → ty.IsNumber) :
    env'.Steppable parts := by
  refine ⟨h.typed henv.typed, fun s hs x hx => ?_⟩
  cases h with
  | @declare _ name ty initial hfresh hput =>
    rw [Env.get?_of_put hput] at hx
    by_cases hname : name = s.name
    · rw [if_pos hname] at hx
      rw [← Option.some.inj hx]
      exact ha s ty initial hs (by rw [hname])
    · rw [if_neg hname] at hx
      exact henv.number s hs x hx
  | @assign _ name v y hold hput =>
    rw [Env.get?_of_put hput] at hx
    by_cases hname : name = s.name
    · rw [if_pos hname] at hx
      rw [← Option.some.inj hx]
      exact henv.number s hs y (hname ▸ hold)
    · rw [if_neg hname] at hx
      exact henv.number s hs x hx
  | test e => exact henv.number s hs x hx

theorem Env.Steppable.eval_assignment {parts : List Stmt} {env : Env} (henv : env.Steppable parts)
    {s : Step} (hs : Stmt.step s ∈ parts) : s.assignment.value.eval env = Run.stepped env s := by
  simp only [Step.assignment, Expr.eval, Run.stepped]
  cases hx : env.get? s.name with
  | none =>
    rw [Env.lookup, hx]
    rfl
  | some x =>
    obtain ⟨ty, v⟩ := x
    rw [Env.lookup_of_get? hx]
    rcases Value.Fits.null_or_of (henv.typed s.name _ hx) with hnull | hset
    · obtain rfl : v = .null := hnull
      rfl
    rcases henv.number s hs _ hx with hty | hty
    · obtain rfl : ty = .numero := hty
      obtain ⟨n, hn⟩ := Value.Of.numero hset
      obtain rfl : v = .numero n := hn
      rfl
    · obtain rfl : ty = .tipik := hty
      obtain ⟨y, hy⟩ := Value.Of.tipik hset
      obtain rfl : v = .tipik y := hy
      rfl

/-- On a number, an unset variable or no variable at all, the two do the same. -/
theorem Env.Steppable.assign_eq_step {parts : List Stmt} {m : Machine}
    (hm : m.env.Steppable parts) {s : Step} (hs : Stmt.step s ∈ parts) :
    Run.assign s.assignment m = Run.step s m := by
  rw [Run.assign, hm.eval_assignment hs, Run.step]
  cases Run.stepped m.env s with
  | error e => rfl
  | ok v => exact Run.andThen_done _

/-- One machine, in which the steps are on numbers. -/
def SameSteppable (parts : List Stmt) (m m' : Machine) : Prop :=
  m' = m ∧ m.env.Steppable parts

/-- From each machine in which the steps are on numbers the two have the same run, and it leaves
them so. -/
def GoInStep (parts : List Stmt) (f g : Machine → Run) : Prop :=
  ∀ m, m.env.Steppable parts → Run.Coupled (SameSteppable parts) (f m) (g m)

namespace GoInStep

variable {parts : List Stmt} {f f' g g' : Machine → Run}

theorem andThen (hf : GoInStep parts f f') (hg : GoInStep parts g g') :
    GoInStep parts (fun m => (f m).andThen g) (fun m => (f' m).andThen g') := by
  intro m hm
  apply (hf m hm).andThen
  rintro m _ ⟨rfl, hm⟩
  exact hg _ hm

theorem done : GoInStep parts Run.done Run.done := fun _ hm => .done ⟨rfl, hm⟩

theorem change {a : Action}
    (ha : ∀ s ty initial, Stmt.step s ∈ parts → a = .declare s.name ty initial → ty.IsNumber) :
    GoInStep parts (fun m => .change m (a.apply m.env)) (fun m => .change m (a.apply m.env)) := by
  intro m hm
  dsimp only
  cases happly : a.apply m.env with
  | ok env => exact .done ⟨rfl, (Action.effect happly).steppable hm ha⟩
  | error e => exact .failed e ⟨rfl, hm⟩

theorem declare {ty : DataType} {items : List Item}
    (hitems : ∀ i ∈ items, ∀ s, Stmt.step s ∈ parts → i.name = s.name → ty.IsNumber) :
    GoInStep parts (Run.declare ty items) (Run.declare ty items) := by
  induction items with
  | nil => exact done
  | cons i items ih =>
    obtain ⟨hi, hrest⟩ := List.forall_mem_cons.1 hitems
    have hchange : ∀ s ty' initial, Stmt.step s ∈ parts →
        Action.declare i.name ty i.initial = .declare s.name ty' initial → ty'.IsNumber := by
      intro s ty' initial hs heq
      obtain ⟨hname, rfl, -⟩ := Action.declare.inj heq
      exact hi s hs hname
    exact (change hchange).andThen (ih hrest)

theorem change_assign (name : String) (v : Value) :
    GoInStep parts (fun m => .change m (m.env.assign name v))
      (fun m => .change m (m.env.assign name v)) :=
  change (a := .assign name v) fun _ _ _ _ h => Action.noConfusion h

theorem store (v : Value) (names : List String) :
    GoInStep parts (Run.store v names) (Run.store v names) := by
  induction names with
  | nil => exact done
  | cons name names ih => exact (change_assign name v).andThen ih

theorem assign (a : Assignment) : GoInStep parts (Run.assign a) (Run.assign a) := by
  intro m hm
  unfold Run.assign
  cases a.value.eval m.env with
  | ok v => exact store v a.targets.reverse m hm
  | error e => exact .failed e ⟨rfl, hm⟩

theorem step {s : Step} (hs : Stmt.step s ∈ parts) :
    GoInStep parts (Run.step s) (Run.assign s.assignment) := by
  intro m hm
  rw [← hm.assign_eq_step hs]
  exact assign s.assignment m hm

theorem update {u : Update} (hu : u.stmt ∈ parts) :
    GoInStep parts (Run.update u) (Run.update u.spelled) := by
  cases u with
  | assign a => exact assign a
  | step s => exact step hu

theorem print (segments : List Segment) :
    GoInStep parts (Run.print segments) (Run.print segments) := by
  intro m hm
  unfold Run.print
  cases render m.env segments with
  | ok lines => exact .done ⟨rfl, hm⟩
  | error e => exact .failed e ⟨rfl, hm⟩

theorem read (names : List String) : GoInStep parts (Run.read names) (Run.read names) := by
  induction names with
  | nil => exact done
  | cons name names ih =>
    intro m hm
    unfold Run.read
    cases m.env.lookup name with
    | error e => exact .failed e ⟨rfl, hm⟩
    | ok x =>
      refine .asks name ⟨rfl, hm⟩ fun raw => ?_
      cases Entry.read? x.ty raw with
      | none => exact .failed _ ⟨rfl, hm⟩
      | some v => exact (change_assign name v).andThen ih m hm

theorem branch (test : Expr) (hf : GoInStep parts f f') (hg : GoInStep parts g g') :
    GoInStep parts (Run.branch test f g) (Run.branch test f' g') := by
  intro m hm
  unfold Run.branch
  cases test.test m.env with
  | error e => exact .failed e ⟨rfl, hm⟩
  | ok b =>
    cases b with
    | true => exact hf m hm
    | false => exact hg m hm

theorem rounds (test : Expr) (hf : GoInStep parts f f') (hg : GoInStep parts g g') (n : ℕ) :
    GoInStep parts (Run.rounds test f g n) (Run.rounds test f' g' n) := by
  induction n with
  | zero => exact fun m hm => .unfinished ⟨rfl, hm⟩
  | succ n ih => exact branch test (hf.andThen (hg.andThen ih)) done

end GoInStep

mutual

theorem Stmt.goInStep_spelled {parts : List Stmt} (hparts : StepsNumbers parts) (n : ℕ) (s : Stmt)
    (hs : s.parts ⊆ parts) : GoInStep parts (s.exec n) (s.spelled.exec n) := by
  cases s with
  | declare ty items =>
    have hdeclare := hs (List.mem_singleton_self _)
    refine .declare fun i hi s hstep hname => ?_
    obtain ⟨hletra, htinuod⟩ := hparts s ty items hstep hdeclare (List.mem_map.2 ⟨i, hi, hname⟩)
    unfold DataType.IsNumber
    cases ty <;> simp_all
  | assign a => exact .assign a
  | step s => exact .step (hs (List.mem_singleton_self _))
  | print segments => exact .print segments
  | read names => exact .read names
  | choose test body rest =>
    obtain ⟨hbody, hrest⟩ := List.append_subset.1 (List.cons_subset.1 hs).2
    exact .branch test (goInStep_spelledAll hparts n body hbody)
      (Chain.goInStep_spelled hparts n rest hrest)
  | loop init test update body =>
    obtain ⟨hupdate, hbody⟩ := List.cons_subset.1 (List.cons_subset.1 hs).2
    exact (GoInStep.assign init).andThen
      (.rounds test (goInStep_spelledAll hparts n body hbody) (.update hupdate) n)

theorem Chain.goInStep_spelled {parts : List Stmt} (hparts : StepsNumbers parts) (n : ℕ) (c : Chain)
    (hc : c.parts ⊆ parts) : GoInStep parts (c.exec n) (c.spelled.exec n) := by
  cases c with
  | done => exact .done
  | wala body => exact goInStep_spelledAll hparts n body hc
  | dili test body rest =>
    obtain ⟨hbody, hrest⟩ := List.append_subset.1 hc
    exact .branch test (goInStep_spelledAll hparts n body hbody)
      (Chain.goInStep_spelled hparts n rest hrest)

theorem goInStep_spelledAll {parts : List Stmt} (hparts : StepsNumbers parts) (n : ℕ)
    (ss : List Stmt) (hss : partsAll ss ⊆ parts) :
    GoInStep parts (execAll n ss) (execAll n (spelledAll ss)) := by
  cases ss with
  | nil => exact .done
  | cons s ss =>
    obtain ⟨hs, hrest⟩ := List.append_subset.1 hss
    exact (Stmt.goInStep_spelled hparts n s hs).andThen (goInStep_spelledAll hparts n ss hrest)

end

/-- If a program steps numbers only, nothing tells it from the one in which every step is written as
an assignment: with any answers the two end in the same way, ask for the same variables, print the
same lines, and leave the same variables and answers. -/
theorem play_spelledAll {p : Program} (h : StepsNumbers (partsAll p)) (n : ℕ)
    (answers : List String) :
    (execAll n (spelledAll p) .start).play answers = (execAll n p .start).play answers := by
  have hempty : Env.empty.Steppable (partsAll p) := by
    refine ⟨Env.typed_empty, fun s _ x hx => ?_⟩
    rw [Env.get?_empty] at hx
    cases hx
  have hrun := goInStep_spelledAll h n p (List.Subset.refl _) .start hempty
  rw [hrun.eq And.left]

/-- Counts with `i` and, in the second round, steps a variable that was never set. -/
def stepUnset : Program :=
  [.declare .numero [⟨"i", none⟩, ⟨"k", none⟩], .declare .tipik [⟨"x", none⟩],
    .loop ⟨["i"], .lit (.numero 0)⟩
      (.binary (.rel .lt) (.var "i") (.lit (.numero 5))) (.step ⟨"i", .up⟩)
      [.print [.expr (.var "i")],
        .choose (.binary (.rel .eq) (.var "i") (.lit (.numero 1))) [.step ⟨"k", .down⟩]
          (.dili (.binary (.rel .gt) (.var "i") (.lit (.numero 1))) [.step ⟨"x", .up⟩] .done)]]

theorem play_spelledAll_stepUnset :
    StepsNumbers (partsAll stepUnset) ∧
      ((execAll 6 (spelledAll stepUnset) .start).play []).outcome =
        .failed (.unset (.binary (.arith .sub))) ∧
      ((execAll 6 (spelledAll stepUnset) .start).play []).machine.output = #["0", "1"] := by
  have hsteps : StepsNumbers (partsAll stepUnset) := by
    intro s ty items _ hdeclare _
    have hty : ty = .numero ∨ ty = .tipik := by
      simp [partsAll, stepUnset, Stmt.parts, Chain.parts, Update.stmt] at hdeclare
      exact hdeclare.imp And.left And.left
    rcases hty with rfl | rfl <;> decide
  rw [play_spelledAll hsteps]
  exact ⟨hsteps, by decide +kernel, by decide +kernel⟩

end Bisaya
