import Mathlib
import Bisaya.Expr.Eval

namespace Bisaya

/-- What an error is about, less the operators, names and types that it tells of. -/
inductive RuntimeError.Kind where
  | duplicate | undefined | unsupportedPair | unsupported | assignmentType | notBoolean | unset
  | invalidInput | divisionByZero | overflow | noInput
  deriving DecidableEq, Repr

def RuntimeError.kind : RuntimeError → Kind
  | duplicate _ => .duplicate
  | undefined _ => .undefined
  | unsupportedPair .. => .unsupportedPair
  | unsupported .. => .unsupported
  | assignmentType .. => .assignmentType
  | notBoolean _ => .notBoolean
  | unset _ => .unset
  | invalidInput .. => .invalidInput
  | divisionByZero => .divisionByZero
  | overflow _ => .overflow
  | noInput _ => .noInput

inductive Fault where
  /-- Its own evaluation fails. -/
  | raised (e : RuntimeError)
  /-- It is a variable that was never set. -/
  | unset
  /-- It has a value of another type. -/
  | mistyped (ty : DataType)

def Fault.error (op : Operator) : Fault → RuntimeError
  | raised e => e
  | unset => .unset op
  | mistyped ty => .unsupported op ty

/-- The operator is named in the error, but makes no difference to its kind. -/
theorem Fault.kind_error (f : Fault) (op op' : Operator) :
    (f.error op).kind = (f.error op').kind := by
  cases f <;> rfl

/-- What a value is to an operator on truth values. -/
def Value.truth : Value → Except Fault Bool
  | null => .error .unset
  | numero _ => .error (.mistyped .numero)
  | tipik _ => .error (.mistyped .tipik)
  | letra _ => .error (.mistyped .letra)
  | tinuod b => .ok b

/-- What the result of an evaluation is to the operator that it is an operand of. -/
def operandOf : Except RuntimeError Value → Except Fault Bool
  | .ok v => v.truth
  | .error e => .error (.raised e)

/-- What an operator makes of a truth value, or of the fault that kept it from one. -/
def conclude (op : Operator) : Except Fault Bool → Except RuntimeError Value
  | .ok b => .ok (.tinuod b)
  | .error f => .error (f.error op)

namespace Logic

/-- The connective on its operands, of which the right one counts only if the left one does not
settle the result. -/
def join (op : Logic) (x y : Except Fault Bool) : Except Fault Bool :=
  x >>= fun b => if b = op.decisive then .ok b else y

@[simp] theorem join_error (op : Logic) (f : Fault) (y : Except Fault Bool) :
    op.join (.error f) y = .error f := rfl

@[simp] theorem join_decisive (op : Logic) (y : Except Fault Bool) :
    op.join (.ok op.decisive) y = .ok op.decisive := if_pos rfl

@[simp] theorem join_not_decisive (op : Logic) (y : Except Fault Bool) :
    op.join (.ok !op.decisive) y = y := if_neg (Bool.not_ne_self _)

def dual : Logic → Logic
  | ug => o
  | o => ug

@[simp] theorem decisive_dual (op : Logic) : op.dual.decisive = !op.decisive := by
  cases op <;> rfl

@[simp] theorem join_dual_decisive (op : Logic) (y : Except Fault Bool) :
    op.dual.join (.ok op.decisive) y = y := by
  simpa using op.dual.join_not_decisive y

@[simp] theorem join_dual_not_decisive (op : Logic) (y : Except Fault Bool) :
    op.dual.join (.ok !op.decisive) y = .ok !op.decisive := by
  simpa using op.dual.join_decisive y

/-- An operand fails, or settles the result, or leaves it to the other one. -/
theorem operand_cases (op : Logic) (x : Except Fault Bool) :
    (∃ f, x = .error f) ∨ x = .ok op.decisive ∨ x = .ok !op.decisive := by
  cases x with
  | error f => exact .inl ⟨f, rfl⟩
  | ok b => cases b <;> cases op <;> simp [decisive]

theorem error_of_join {op : Logic} {x y : Except Fault Bool} {f : Fault}
    (h : op.join x y = .error f) : x = .error f ∨ y = .error f := by
  rcases op.operand_cases x with ⟨g, rfl⟩ | rfl | rfl
  · exact .inl h
  · rw [join_decisive] at h
    cases h
  · exact .inr (op.join_not_decisive y ▸ h)

theorem map_not_join (op : Logic) (x y : Except Fault Bool) :
    (op.join x y).map not = op.dual.join (x.map not) (y.map not) := by
  rcases op.operand_cases x with ⟨f, rfl⟩ | rfl | rfl <;> simp [Except.map]

theorem join_assoc (op : Logic) (x y z : Except Fault Bool) :
    op.join (op.join x y) z = op.join x (op.join y z) := by
  rcases op.operand_cases x with ⟨f, rfl⟩ | rfl | rfl <;> simp

/-- The left operand stands twice on the right side. Where it settles its connective, it does not
settle the dual one, and then it does so a second time. -/
theorem join_join_dual (op : Logic) (x y z : Except Fault Bool) :
    op.join x (op.dual.join y z) = op.dual.join (op.join x y) (op.join x z) := by
  rcases op.operand_cases x with ⟨f, rfl⟩ | rfl | rfl <;> simp

end Logic

namespace Expr

/-- What an expression is as an operand of an operator on truth values. -/
def truth (env : Env) (e : Expr) : Except Fault Bool := operandOf (e.eval env)

/-- The expression evaluates to `x`, where some operator tells of a fault. -/
def Concludes (env : Env) (e : Expr) (x : Except Fault Bool) : Prop :=
  ∃ op, e.eval env = conclude op x

/-- As an operand the expression is as good as `x`: what one operator makes of it, some operator
makes of `x`. -/
def Amounts (env : Env) (e : Expr) (x : Except Fault Bool) : Prop :=
  ∀ op, ∃ op', conclude op (e.truth env) = conclude op' x

section Operands

variable {env : Env} {a b : Expr} {x y : Except Fault Bool}

theorem Amounts.truth (env : Env) (a : Expr) : Amounts env a (a.truth env) := fun op => ⟨op, rfl⟩

/-- An error goes through every operator around it as it is. -/
theorem Concludes.amounts (h : Concludes env a x) : Amounts env a x := by
  obtain ⟨op', h⟩ := h
  refine fun op => ⟨op', ?_⟩
  rw [Expr.truth, h]
  cases x <;> rfl

theorem Amounts.of_ok {t : Bool} (h : Amounts env a x) (ha : a.truth env = .ok t) : x = .ok t := by
  obtain ⟨op, hop⟩ := h (.unary .dili)
  rw [ha] at hop
  cases x <;> cases hop
  rfl

theorem Amounts.of_error {f : Fault} (h : Amounts env a x) (ha : a.truth env = .error f)
    (op : Operator) : ∃ g op', x = .error g ∧ f.error op = g.error op' := by
  obtain ⟨op', hop⟩ := h op
  rw [ha] at hop
  cases x with
  | ok t => cases hop
  | error g => exact ⟨g, op', rfl, Except.error.inj hop⟩

theorem eval_dili (env : Env) (a : Expr) :
    (unary .dili a).eval env = conclude (.unary .dili) ((a.truth env).map not) := by
  rw [eval, truth]
  cases a.eval env with
  | error e => rfl
  | ok v => cases v <;> rfl

theorem eval_operand (env : Env) (op : Logic) (a : Expr) : (a.eval env >>= op.truth) =
    (a.truth env).mapError (Fault.error (.binary (.logic op))) := by
  rw [truth]
  cases a.eval env with
  | error e => rfl
  | ok v => cases v <;> rfl

theorem eval_logic (env : Env) (op : Logic) (a b : Expr) : (binary (.logic op) a b).eval env =
    conclude (.binary (.logic op)) (op.join (a.truth env) (b.truth env)) := by
  rw [eval, ← bind_assoc, eval_operand]
  cases a.truth env with
  | error f => rfl
  | ok t =>
    change (if t = op.decisive then pure (Value.tinuod t) else _) =
      conclude _ (if t = op.decisive then .ok t else b.truth env)
    split
    · rfl
    · rw [← bind_assoc, eval_operand]
      cases b.truth env <;> rfl

theorem Amounts.dili (h : Amounts env a x) : Concludes env (unary .dili a) (x.map not) := by
  unfold Concludes
  rw [eval_dili]
  cases ha : a.truth env with
  | error f =>
    obtain ⟨g, op, rfl, hg⟩ := h.of_error ha (.unary .dili)
    exact ⟨op, congrArg Except.error hg⟩
  | ok t =>
    obtain rfl := h.of_ok ha
    exact ⟨_, rfl⟩

theorem Amounts.logic (op : Logic) (ha : Amounts env a x) (hb : Amounts env b y) :
    Concludes env (binary (.logic op) a b) (op.join x y) := by
  unfold Concludes
  rw [eval_logic]
  rcases op.operand_cases (a.truth env) with ⟨f, h⟩ | h | h
  · obtain ⟨g, op', rfl, hg⟩ := ha.of_error h (.binary (.logic op))
    rw [h]
    exact ⟨op', congrArg Except.error hg⟩
  · obtain rfl := ha.of_ok h
    rw [h, Logic.join_decisive, Logic.join_decisive]
    exact ⟨_, rfl⟩
  · obtain rfl := ha.of_ok h
    rw [h, Logic.join_not_decisive, Logic.join_not_decisive]
    exact hb _

end Operands

/-- Two expressions have the same truth value, or both fail, with errors of one kind that have their
origin in the same fault of the same operand. -/
def SameTruth (env : Env) (operands : List Expr) (l r : Expr) : Prop :=
  (∃ t, l.eval env = .ok (.tinuod t) ∧ r.eval env = .ok (.tinuod t)) ∨
    ∃ e e', l.eval env = .error e ∧ r.eval env = .error e' ∧ e.kind = e'.kind ∧
      ∃ a ∈ operands, ∃ f, a.truth env = .error f ∧ ∃ op op', e = f.error op ∧ e' = f.error op'

theorem Concludes.sameTruth {env : Env} {operands : List Expr} {l r : Expr} {x : Except Fault Bool}
    (hl : Concludes env l x) (hr : Concludes env r x)
    (horigin : ∀ f, x = .error f → ∃ a ∈ operands, a.truth env = .error f) :
    SameTruth env operands l r := by
  obtain ⟨op, hl⟩ := hl
  obtain ⟨op', hr⟩ := hr
  cases x with
  | ok t => exact .inl ⟨t, hl, hr⟩
  | error f =>
    obtain ⟨a, hmem, ha⟩ := horigin f rfl
    exact .inr ⟨_, _, hl, hr, f.kind_error op op', a, hmem, f, ha, op, op', rfl, rfl⟩

section Laws

variable (env : Env) (op : Logic) (a b c : Expr)

theorem sameTruth_deMorgan : SameTruth env [a, b] (unary .dili (binary (.logic op) a b))
    (binary (.logic op.dual) (unary .dili a) (unary .dili b)) := by
  have hl := ((Amounts.truth env a).logic op (.truth env b)).amounts.dili
  have hr := (Amounts.truth env a).dili.amounts.logic op.dual (Amounts.truth env b).dili.amounts
  rw [← Logic.map_not_join] at hr
  refine hl.sameTruth hr fun f hf => ?_
  cases hjoin : op.join (a.truth env) (b.truth env) with
  | ok t =>
    rw [hjoin] at hf
    cases hf
  | error g =>
    rw [hjoin] at hf
    cases hf
    simpa using Logic.error_of_join hjoin

theorem error_of_join_join {op op' : Logic} {f : Fault}
    (h : op.join (a.truth env) (op'.join (b.truth env) (c.truth env)) = .error f) :
    ∃ e ∈ [a, b, c], e.truth env = .error f := by
  rcases Logic.error_of_join h with ha | h
  · exact ⟨a, by simp, ha⟩
  · rcases Logic.error_of_join h with hb | hc
    · exact ⟨b, by simp, hb⟩
    · exact ⟨c, by simp, hc⟩

theorem sameTruth_assoc : SameTruth env [a, b, c]
    (binary (.logic op) (binary (.logic op) a b) c)
    (binary (.logic op) a (binary (.logic op) b c)) := by
  have hl := ((Amounts.truth env a).logic op (.truth env b)).amounts.logic op (.truth env c)
  have hr := (Amounts.truth env a).logic op ((Amounts.truth env b).logic op (.truth env c)).amounts
  rw [Logic.join_assoc] at hl
  exact hl.sameTruth hr fun f => error_of_join_join env a b c

theorem sameTruth_distrib : SameTruth env [a, b, c]
    (binary (.logic op) a (binary (.logic op.dual) b c))
    (binary (.logic op.dual) (binary (.logic op) a b) (binary (.logic op) a c)) := by
  have hb := (Amounts.truth env a).logic op (.truth env b)
  have hc := (Amounts.truth env a).logic op (.truth env c)
  have hl := (Amounts.truth env a).logic op
    ((Amounts.truth env b).logic op.dual (.truth env c)).amounts
  have hr := hb.amounts.logic op.dual hc.amounts
  rw [← Logic.join_join_dual] at hr
  exact hl.sameTruth hr fun f => error_of_join_join env a b c

/-- The laws of De Morgan, association and distribution. -/
theorem eval_connectives :
    SameTruth env [a, b] (unary .dili (binary (.logic .ug) a b))
      (binary (.logic .o) (unary .dili a) (unary .dili b)) ∧
    SameTruth env [a, b] (unary .dili (binary (.logic .o) a b))
      (binary (.logic .ug) (unary .dili a) (unary .dili b)) ∧
    SameTruth env [a, b, c] (binary (.logic .ug) (binary (.logic .ug) a b) c)
      (binary (.logic .ug) a (binary (.logic .ug) b c)) ∧
    SameTruth env [a, b, c] (binary (.logic .o) (binary (.logic .o) a b) c)
      (binary (.logic .o) a (binary (.logic .o) b c)) ∧
    SameTruth env [a, b, c] (binary (.logic .ug) a (binary (.logic .o) b c))
      (binary (.logic .o) (binary (.logic .ug) a b) (binary (.logic .ug) a c)) ∧
    SameTruth env [a, b, c] (binary (.logic .o) a (binary (.logic .ug) b c))
      (binary (.logic .ug) (binary (.logic .o) a b) (binary (.logic .o) a c)) :=
  ⟨sameTruth_deMorgan env .ug a b, sameTruth_deMorgan env .o a b, sameTruth_assoc env .ug a b c,
    sameTruth_assoc env .o a b c, sameTruth_distrib env .ug a b c, sameTruth_distrib env .o a b c⟩

end Laws

/-- The errors of the two sides may tell of different operators. -/
example : (unary .dili (binary (.logic .ug) (lit (.numero 1)) (var "x"))).eval .empty =
      .error (.unsupported (.binary (.logic .ug)) .numero) ∧
    (binary (.logic .o) (unary .dili (lit (.numero 1))) (unary .dili (var "x"))).eval .empty =
      .error (.unsupported (.unary .dili) .numero) := ⟨rfl, rfl⟩

end Expr
end Bisaya
