import Bisaya.Env
import Bisaya.Expr.Basic

namespace Bisaya

namespace Arith

def isDivision : Arith → Bool
  | div | mod => true
  | _ => false

/-- Division goes toward zero, and a remainder has the sign of the dividend. -/
def exact : Arith → Int → Int → Int
  | add, a, b => a + b
  | sub, a, b => a - b
  | mul, a, b => a * b
  | div, a, b => a.tdiv b
  | mod, a, b => a.tmod b

/-- The number that has to be in range: the result, and for a remainder the quotient. -/
def widest : Arith → Int → Int → Int
  | mod, a, b => a.tdiv b
  | op, a, b => op.exact a b

def onNumero (op : Arith) (a b : Numero) : Except RuntimeError Value :=
  if op.isDivision ∧ b = 0 then .error .divisionByZero
  else if Numero.InRange (op.widest a.toInt b.toInt) then
    .ok (.numero (.ofInt (op.exact a.toInt b.toInt)))
  else .error (.overflow (.binary (.arith op)))

def rounded : Arith → Tipik → Tipik → Tipik
  | add, x, y => x + y
  | sub, x, y => x - y
  | mul, x, y => x * y
  | div, x, y => x / y
  | mod, x, y => Number.remainder x y

def onTipik (op : Arith) (x y : Tipik) : Except RuntimeError Value :=
  if op.isDivision && y == 0 then .error .divisionByZero else .ok (.tipik (op.rounded x y))

/-- Numbers of both types mix, and `+` joins a text with any value. -/
def apply (op : Arith) (v w : Value) : Except RuntimeError Value :=
  match v.type?, w.type? with
  | some l, some r =>
    match v, w with
    | .numero a, .numero b => op.onNumero a b
    | .numero a, .tipik y => op.onTipik a.toFloat y
    | .tipik x, .numero b => op.onTipik x b.toFloat
    | .tipik x, .tipik y => op.onTipik x y
    | v, w =>
      if op = add ∧ (l = .letra ∨ r = .letra) then .ok (.letra (v.text ++ w.text))
      else .error (.unsupportedPair (.arith op) l r)
  | _, _ => .error (.unset (.binary (.arith op)))

end Arith

/-- Doubles compare as numbers; what is no number is not ordered. -/
def Tipik.order (x y : Tipik) : Option Ordering :=
  if x < y then some .lt else if x == y then some .eq else if y < x then some .gt else none

namespace Rel

/-- Without an order only `<>` holds. -/
def holds : Rel → Option Ordering → Bool
  | ne, none => true
  | _, none => false
  | eq, some o => o == .eq
  | ne, some o => o != .eq
  | lt, some o => o == .lt
  | gt, some o => o == .gt
  | le, some o => o != .gt
  | ge, some o => o != .lt

/-- Numbers compare with numbers and texts with texts; truth values are only equal or not. -/
def apply (op : Rel) (v w : Value) : Except RuntimeError Value :=
  match v.type?, w.type? with
  | some l, some r =>
    let ordered (o : Option Ordering) : Except RuntimeError Value := .ok (.tinuod (op.holds o))
    match v, w with
    | .numero a, .numero b => ordered (some (compare a.toInt b.toInt))
    | .numero a, .tipik y => ordered (Tipik.order a.toFloat y)
    | .tipik x, .numero b => ordered (Tipik.order x b.toFloat)
    | .tipik x, .tipik y => ordered (Tipik.order x y)
    | .letra s, .letra t => ordered (some (compare s t))
    | .tinuod a, .tinuod b =>
      if op = eq ∨ op = ne then ordered (some (compare a b))
      else .error (.unsupportedPair (.rel op) l r)
    | _, _ => .error (.unsupportedPair (.rel op) l r)
  | _, _ => .error (.unset (.binary (.rel op)))

end Rel

namespace Logic

def truth (op : Logic) (v : Value) : Except RuntimeError Bool :=
  match v.type?, v with
  | none, _ => .error (.unset (.binary (.logic op)))
  | _, .tinuod b => .ok b
  | some ty, _ => .error (.unsupported (.binary (.logic op)) ty)

def decisive : Logic → Bool
  | ug => false
  | o => true

end Logic

def UnOp.apply (op : UnOp) (v : Value) : Except RuntimeError Value :=
  match v.type? with
  | none => .error (.unset (.unary op))
  | some ty =>
    match op, v with
    | .dili, .tinuod b => .ok (.tinuod !b)
    | .minus, .numero n =>
      match Numero.ofInt? (-n.toInt) with
      | some n => .ok (.numero n)
      | none => .error (.overflow (.unary op))
    | .minus, .tipik x => .ok (.tipik (-x))
    | .plus, .numero n => .ok (.numero n)
    | .plus, .tipik x => .ok (.tipik x)
    | _, _ => .error (.unsupported (.unary op) ty)

namespace Expr

def eval (env : Env) : Expr → Except RuntimeError Value
  | lit v => .ok v
  | var name => do
    let x ← env.lookup name
    return x.value
  | unary op e => do
    let v ← e.eval env
    op.apply v
  | binary (.logic op) l r => do
    let v ← l.eval env
    let a ← op.truth v
    if a = op.decisive then return .tinuod a
    else
      let w ← r.eval env
      let b ← op.truth w
      return .tinuod b
  | binary (.arith op) l r => do
    let v ← l.eval env
    let w ← r.eval env
    op.apply v w
  | binary (.rel op) l r => do
    let v ← l.eval env
    let w ← r.eval env
    op.apply v w

def test (env : Env) (e : Expr) : Except RuntimeError Bool := do
  match ← e.eval env with
  | .tinuod b => return b
  | v => throw (.notBoolean v.type?)

end Expr
end Bisaya
