import Mathlib
import Bisaya.Expr.Eval

namespace Bisaya

/-- The whole number next to `x` on the side of zero. -/
def towardZero (x : ℚ) : ℤ := if 0 ≤ x then ⌊x⌋ else ⌈x⌉

theorem towardZero_neg (x : ℚ) : towardZero (-x) = -towardZero x := by
  unfold towardZero
  rcases lt_trichotomy x 0 with h | rfl | h
  · rw [if_pos (by linarith), if_neg (by linarith), Int.floor_neg]
  · simp
  · rw [if_neg (by linarith), if_pos h.le, Int.ceil_neg]

theorem towardZero_natCast_div (m n : ℕ) : towardZero ((m : ℚ) / n) = (m / n : ℕ) := by
  rw [towardZero, if_pos (by positivity)]
  exact Rat.floor_natCast_div_natCast m n

theorem towardZero_div (a b : ℤ) : towardZero ((a : ℚ) / b) = a.tdiv b := by
  -- both change sign with each operand
  rcases a.eq_nat_or_neg with ⟨m, rfl | rfl⟩ <;> rcases b.eq_nat_or_neg with ⟨n, rfl | rfl⟩
  · simp [towardZero_natCast_div]
  · simp [towardZero_natCast_div, div_neg, towardZero_neg]
  · simp [towardZero_natCast_div, neg_div, towardZero_neg]
  · simp [towardZero_natCast_div]

namespace Arith

/-- The result of an operation without a bound on its size: a quotient is cut toward zero, and a
remainder is that of the magnitudes with the sign of the dividend. -/
def whole : Arith → ℤ → ℤ → ℤ
  | add, a, b => a + b
  | sub, a, b => a - b
  | mul, a, b => a * b
  | div, a, b => towardZero ((a : ℚ) / b)
  | mod, a, b => a.sign * (a.natAbs % b.natAbs : ℕ)

/-- The number that has to be in range, which for a remainder is the quotient too. -/
def bounded (op : Arith) (a b : ℤ) : ℤ :=
  if op = mod then towardZero ((a : ℚ) / b) else op.whole a b

theorem tmod_eq_sign_mul (a b : ℤ) : a.tmod b = a.sign * (a.natAbs % b.natAbs : ℕ) := by
  rw [← Int.natAbs_tmod]
  rcases lt_trichotomy a 0 with h | rfl | h
  · have hneg : 0 ≤ (-a).tmod b := Int.tmod_nonneg b (by omega)
    rw [Int.neg_tmod] at hneg
    rw [Int.sign_eq_neg_one_of_neg h]
    omega
  · simp
  · have hpos : 0 ≤ a.tmod b := Int.tmod_nonneg b h.le
    rw [Int.sign_eq_one_of_pos h]
    omega

theorem exact_eq_whole (op : Arith) (a b : ℤ) : op.exact a b = op.whole a b := by
  cases op with
  | div => exact (towardZero_div a b).symm
  | mod => exact tmod_eq_sign_mul a b
  | _ => rfl

theorem widest_eq_bounded (op : Arith) (a b : ℤ) : op.widest a b = op.bounded a b := by
  cases op with
  | div | mod => exact (towardZero_div a b).symm
  | _ => rfl

/-- A remainder is no further from zero than the dividend. -/
theorem inRange_whole {op : Arith} {a b : ℤ} (ha : Numero.InRange a)
    (h : Numero.InRange (op.bounded a b)) : Numero.InRange (op.whole a b) := by
  cases op with
  | mod =>
    have hle : a.natAbs % b.natAbs ≤ a.natAbs := Nat.mod_le _ _
    unfold Numero.InRange at ha ⊢
    rw [whole]
    rcases lt_trichotomy a 0 with hneg | rfl | hpos
    · rw [Int.sign_eq_neg_one_of_neg hneg]
      omega
    · simp
    · rw [Int.sign_eq_one_of_pos hpos]
      omega
  | _ => exact h

def DividesByZero (op : Arith) (b : ℤ) : Prop := (op = div ∨ op = mod) ∧ b = 0

instance (op : Arith) (b : ℤ) : Decidable (op.DividesByZero b) :=
  inferInstanceAs (Decidable (_ ∧ _))

theorem dividesByZero_iff {op : Arith} {b : Numero} :
    op.DividesByZero b.toInt ↔ op.isDivision ∧ b = 0 := by
  have hzero : b.toInt = 0 ↔ b = 0 := by rw [← Int64.toInt_inj, Int64.toInt_zero]
  rw [DividesByZero, hzero]
  cases op <;> simp [isDivision]

theorem onNumero_eq (op : Arith) (a b : Numero) :
    op.onNumero a b =
      if op.DividesByZero b.toInt then .error .divisionByZero
      else if Numero.InRange (op.bounded a.toInt b.toInt) then
        .ok (.numero (.ofInt (op.whole a.toInt b.toInt)))
      else .error (.overflow (.binary (.arith op))) := by
  rw [onNumero, exact_eq_whole, widest_eq_bounded]
  simp only [dividesByZero_iff]

end Arith

namespace Expr

/-- Whole numbers, variables that hold one, and signs and arithmetic on these. -/
inductive IsWhole (env : Env) : Expr → Prop where
  | lit (n : Numero) : IsWhole env (.lit (.numero n))
  | var {name : String} {ty : DataType} {n : Numero}
      (h : env.get? name = some ⟨ty, .numero n⟩) : IsWhole env (.var name)
  | sign {op : UnOp} {e : Expr} (hop : op ≠ .dili) (he : IsWhole env e) : IsWhole env (.unary op e)
  | arith {op : Arith} {l r : Expr} (hl : IsWhole env l) (hr : IsWhole env r) :
      IsWhole env (.binary (.arith op) l r)

/-- The exact value, without a bound on its size. -/
def whole (env : Env) : Expr → ℤ
  | lit (.numero n) => n.toInt
  | var name =>
    match env.get? name with
    | some ⟨_, .numero n⟩ => n.toInt
    | _ => 0
  | unary .minus e => -e.whole env
  | unary .plus e => e.whole env
  | binary (.arith op) l r => op.whole (l.whole env) (r.whole env)
  | _ => 0

/-- The parts of an expression in the order of their evaluation: those of the left operand, those of
the right one, and the operation last. -/
def nodes : Expr → List Expr
  | lit v => [lit v]
  | var name => [var name]
  | unary op e => e.nodes ++ [unary op e]
  | binary op l r => l.nodes ++ r.nodes ++ [binary op l r]

def operator? : Expr → Option Operator
  | lit _ | var _ => none
  | unary op _ => some (.unary op)
  | binary op _ _ => some (.binary op)

def DividesByZero (env : Env) : Expr → Prop
  | binary (.arith op) _ r => op.DividesByZero (r.whole env)
  | _ => False

instance (env : Env) : (e : Expr) → Decidable (e.DividesByZero env)
  | binary (.arith op) _ r => inferInstanceAs (Decidable (op.DividesByZero (r.whole env)))
  | binary (.rel _) _ _ | binary (.logic _) _ _ | unary _ _ | lit _ | var _ =>
    inferInstanceAs (Decidable False)

/-- The number that has to be in range where the expression is evaluated. -/
def bounded (env : Env) : Expr → ℤ
  | binary (.arith op) l r => op.bounded (l.whole env) (r.whole env)
  | e => e.whole env

/-- Why the last operation of the expression has no result, if it has none. -/
def fault (env : Env) (e : Expr) : Option RuntimeError :=
  if e.DividesByZero env then some .divisionByZero
  else if Numero.InRange (e.bounded env) then none
  else e.operator?.map .overflow

/-- The failure of the first part that has no value. -/
def firstFault (env : Env) (e : Expr) : Option RuntimeError := e.nodes.findSome? (fault env)

theorem firstFault_unary (env : Env) (op : UnOp) (e : Expr) :
    (unary op e).firstFault env = (e.firstFault env).or ((unary op e).fault env) := by
  rw [firstFault, nodes, List.findSome?_append, firstFault]
  congr 1
  simp

theorem firstFault_binary (env : Env) (op : BinOp) (l r : Expr) :
    (binary op l r).firstFault env =
      ((l.firstFault env).or (r.firstFault env)).or ((binary op l r).fault env) := by
  rw [firstFault, nodes, List.findSome?_append, List.findSome?_append, firstFault, firstFault]
  congr 1
  simp

section Fault

variable {env : Env} {e : Expr}

theorem inRange_of_operator?_eq_none (h : e.operator? = none) : Numero.InRange (e.bounded env) := by
  have hzero : Numero.InRange 0 := by decide
  cases e with
  | lit v =>
    cases v with
    | numero n => exact n.inRange_toInt
    | _ => exact hzero
  | var name =>
    change Numero.InRange ((Expr.var name).whole env)
    rw [whole]
    split
    · exact Numero.inRange_toInt _
    · exact hzero
  | unary | binary => cases h

theorem fault_of_dividesByZero (h : e.DividesByZero env) :
    e.fault env = some .divisionByZero := if_pos h

theorem fault_of_not_inRange {op : Operator} (hop : e.operator? = some op)
    (hzero : ¬ e.DividesByZero env) (hrange : ¬ Numero.InRange (e.bounded env)) :
    e.fault env = some (.overflow op) := by
  rw [fault, if_neg hzero, if_neg hrange, hop]
  rfl

theorem fault_eq_none_iff :
    e.fault env = none ↔ ¬ e.DividesByZero env ∧ Numero.InRange (e.bounded env) := by
  by_cases hzero : e.DividesByZero env
  · simp [fault_of_dividesByZero hzero, hzero]
  by_cases hrange : Numero.InRange (e.bounded env)
  · simp [fault, hzero, hrange]
  cases hop : e.operator? with
  | none => exact absurd (inRange_of_operator?_eq_none hop) hrange
  | some op => simp [fault_of_not_inRange hop hzero hrange, hrange]

end Fault

/-- Evaluation gives the exact value, or the failure of the first part that has none. -/
def Settles (env : Env) (e : Expr) : Prop :=
  (e.firstFault env = none ∧ ∃ n, e.eval env = .ok (.numero n) ∧ n.toInt = e.whole env) ∨
    ∃ err, e.firstFault env = some err ∧ e.eval env = .error err

theorem settles_leaf {env : Env} {e : Expr} {n : Numero} (hnodes : e.nodes = [e])
    (hzero : ¬ e.DividesByZero env) (hbounded : e.bounded env = n.toInt)
    (heval : e.eval env = .ok (.numero n)) (hwhole : e.whole env = n.toInt) : e.Settles env := by
  refine .inl ⟨?_, n, heval, hwhole.symm⟩
  rw [firstFault, hnodes, List.findSome?_singleton, fault_eq_none_iff, hbounded]
  exact ⟨hzero, n.inRange_toInt⟩

theorem Settles.sign {env : Env} {op : UnOp} {e : Expr} (hop : op ≠ .dili) (he : e.Settles env) :
    (unary op e).Settles env := by
  rw [Settles, firstFault_unary, eval]
  rcases he with ⟨hfault, n, heval, hn⟩ | ⟨err, hfault, heval⟩
  swap
  · rw [hfault, heval]
    exact .inr ⟨err, rfl, rfl⟩
  rw [hfault, heval, Option.none_or]
  change (_ ∧ ∃ m, op.apply (.numero n) = _ ∧ _) ∨ ∃ err, _ ∧ op.apply (.numero n) = _
  have hzero : ¬ (unary op e).DividesByZero env := id
  cases op with
  | dili => exact absurd rfl hop
  | plus =>
    refine .inl ⟨fault_eq_none_iff.2 ⟨hzero, ?_⟩, n, rfl, hn⟩
    change Numero.InRange (e.whole env)
    exact hn ▸ n.inRange_toInt
  | minus =>
    have hbounded : (unary .minus e).bounded env = -n.toInt := by
      rw [hn]
      rfl
    -- the least number has no negative
    cases hneg : Numero.ofInt? (-n.toInt) with
    | some m =>
      have hm := Numero.ofInt?_eq_some_iff.1 hneg
      refine .inl ⟨fault_eq_none_iff.2 ⟨hzero, ?_⟩, m, ?_, hm.trans hbounded.symm⟩
      · rw [hbounded, ← hm]
        exact m.inRange_toInt
      · simp only [UnOp.apply, Value.type?, hneg]
    | none =>
      have hrange := Numero.ofInt?_eq_none_iff.1 hneg
      rw [← hbounded] at hrange
      refine .inr ⟨_, fault_of_not_inRange rfl hzero hrange, ?_⟩
      simp only [UnOp.apply, Value.type?, hneg]

theorem Settles.arith {env : Env} {op : Arith} {l r : Expr} (hl : l.Settles env)
    (hr : r.Settles env) : (binary (.arith op) l r).Settles env := by
  rw [Settles, firstFault_binary, eval]
  rcases hl with ⟨hfault, a, heval, ha⟩ | ⟨err, hfault, heval⟩
  swap
  · rw [hfault, heval]
    exact .inr ⟨err, rfl, rfl⟩
  rcases hr with ⟨hfault', b, heval', hb⟩ | ⟨err, hfault', heval'⟩
  swap
  · rw [hfault, heval, hfault', heval']
    exact .inr ⟨err, rfl, rfl⟩
  rw [hfault, heval, hfault', heval', Option.none_or, Option.none_or]
  change (_ ∧ ∃ n : Numero, op.onNumero a b = _ ∧ n.toInt = op.whole (l.whole env) (r.whole env)) ∨
    ∃ err, _ ∧ op.onNumero a b = _
  have hbounded : (binary (.arith op) l r).bounded env = op.bounded a.toInt b.toInt := by
    rw [ha, hb]
    rfl
  have hdivisor : (binary (.arith op) l r).DividesByZero env ↔ op.DividesByZero b.toInt := by
    rw [hb]
    rfl
  rw [Arith.onNumero_eq, ← ha, ← hb]
  by_cases hzero : op.DividesByZero b.toInt
  · exact .inr ⟨_, fault_of_dividesByZero (hdivisor.2 hzero), if_pos hzero⟩
  rw [if_neg hzero, ← hbounded]
  by_cases hrange : Numero.InRange ((binary (.arith op) l r).bounded env)
  · have hwhole := Arith.inRange_whole a.inRange_toInt (hbounded ▸ hrange)
    exact .inl ⟨fault_eq_none_iff.2 ⟨mt hdivisor.1 hzero, hrange⟩, _, if_pos hrange,
      Int64.toInt_ofInt_of_le hwhole.1 hwhole.2⟩
  · exact .inr ⟨_, fault_of_not_inRange rfl (mt hdivisor.1 hzero) hrange, if_neg hrange⟩

theorem IsWhole.settles {env : Env} {e : Expr} (h : e.IsWhole env) : e.Settles env := by
  induction h with
  | lit n => exact settles_leaf rfl id rfl rfl rfl
  | @var name ty n h =>
    have hwhole : (Expr.var name).whole env = n.toInt := by rw [whole, h]
    refine settles_leaf rfl id hwhole ?_ hwhole
    rw [eval, Env.lookup, h]
    rfl
  | sign hop _ ih => exact ih.sign hop
  | arith _ _ ihl ihr => exact ihl.arith ihr

/-- Whole numbers are exact: an expression over them evaluates to a number just if no part divides
by zero and every part is in range, and then to its exact value. Else it fails as the first part
that has no value does. -/
theorem eval_whole {env : Env} {e : Expr} (h : e.IsWhole env) :
    ((∃ n, e.eval env = .ok (.numero n)) ↔
        ∀ part ∈ e.nodes, ¬ part.DividesByZero env ∧ Numero.InRange (part.bounded env)) ∧
      (∀ n, e.eval env = .ok (.numero n) → n.toInt = e.whole env) ∧
      ∀ err, e.eval env = .error err ↔ e.nodes.findSome? (fault env) = some err := by
  have hnone : e.firstFault env = none ↔
      ∀ part ∈ e.nodes, ¬ part.DividesByZero env ∧ Numero.InRange (part.bounded env) := by
    simp only [firstFault, List.findSome?_eq_none_iff, fault_eq_none_iff]
  rw [← hnone]
  change _ ∧ _ ∧ ∀ err, _ ↔ e.firstFault env = some err
  rcases h.settles with ⟨hfault, n, heval, hn⟩ | ⟨err, hfault, heval⟩
  · simp [hfault, heval, hn]
  · simp [hfault, heval]

/-- The least number has no negative, which is found out before the division on the right. -/
theorem eval_whole_least :
    let env : Env := ⟨Std.TreeMap.insert ∅ "x" ⟨.numero, .numero (-0x8000000000000000)⟩⟩
    let e : Expr := .binary (.arith .add) (.unary .minus (.var "x"))
      (.binary (.arith .div) (.lit (.numero 1)) (.lit (.numero 0)))
    e.IsWhole env ∧ e.eval env = .error (.overflow (.unary .minus)) := by
  intro env e
  have hx : env.get? "x" = some ⟨.numero, .numero (-0x8000000000000000)⟩ := by
    simp [env, Env.get?]
  have hwhole : e.IsWhole env :=
    .arith (.sign (by decide) (.var hx)) (.arith (.lit 1) (.lit 0))
  refine ⟨hwhole, ((eval_whole hwhole).2.2 _).2 ?_⟩
  have hleft : (unary .minus (.var "x")).fault env = some (.overflow (.unary .minus)) := by
    refine fault_of_not_inRange rfl id ?_
    simp only [bounded, whole, hx]
    decide
  have hvar : (Expr.var "x").fault env = none := by
    rw [fault_eq_none_iff]
    simp only [bounded, whole, hx]
    decide
  simp [e, nodes, hleft, hvar]

end Expr
end Bisaya
