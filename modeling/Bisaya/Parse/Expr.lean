import Bisaya.Expr.Basic
import Bisaya.Parse.Basic

namespace Bisaya.Parse

def startsOperand : Kind → Bool
  | .int | .float | .string | .ident => true
  | .mark .lparen | .mark .minus | .mark .plus => true
  | .keyword .oo | .keyword .dili => true
  | _ => false

/-- Whether a name followed by these tokens begins a statement. -/
def startsStatement (ts : List Token) : Bool :=
  nextIs (.mark .assign) ts || nextIs (.mark .increment) ts || nextIs (.mark .decrement) ts

/-- Whether `DILI` before `next` and `rest` stands alone as a truth value: no operand follows it on
its line, or only a name that begins the next statement. -/
def isBare (dili next : Token) (rest : List Token) : Bool :=
  !startsOperand next.kind || dili.position.line < next.position.line ||
    (next.kind = .ident && startsStatement rest)

/-- The words for the truth values are no texts, whatever their quotes. -/
def quotedValue (s : String) : Value :=
  if s = "OO" then .tinuod true else if s = "DILI" then .tinuod false else .letra s

/-- A literal, a name, a bracketed expression, or an operator before its operand. The argument
`inner` reads an expression whose operators bind more tightly than a level. -/
def operand (inner : Nat → List Token → Read (Expr × List Token)) :
    List Token → Read (Expr × List Token)
  | [] => .error .endOfTokens
  | t :: rest =>
    let under (op : UnOp) : Read (Expr × List Token) := do
      let (e, rest) ← inner UnOp.level rest
      return (.unary op e, rest)
    match t.kind with
    | .int =>
      match Numero.read? t.literal.toList with
      | some n => .ok (.lit (.numero n), rest)
      | none => .error (.invalidNumber t)
    | .float =>
      match Tipik.read? t.literal.toList with
      | some x => .ok (.lit (.tipik x), rest)
      | none => .error (.invalidNumber t)
    | .string => .ok (.lit (quotedValue t.literal), rest)
    | .ident => .ok (.var t.literal, rest)
    | .keyword .oo => .ok (.lit (.tinuod true), rest)
    | .keyword .dili =>
      match rest with
      | [] => .error .endOfTokens
      | next :: more => if isBare t next more then .ok (.lit (.tinuod false), rest) else under .dili
    | .mark .minus => under .minus
    | .mark .plus => under .plus
    | .mark .lparen => do
      let (e, rest) ← inner 0 rest
      let (_, rest) ← expect [.mark .rparen] rest
      return (e, rest)
    | _ => .error (.ofUnexpected t)

mutual

/-- An expression whose operators all bind more tightly than `level`; `n` bounds the number of
tokens. -/
def exprAbove : Nat → Nat → List Token → Read (Expr × List Token)
  | 0, _, _ => .error .endOfTokens
  | n + 1, level, ts => do
    let (left, rest) ← operand (exprAbove n) ts
    climb n level left rest

/-- Extends `left` by the operators above `level` that follow, each with its right operand. -/
def climb : Nat → Nat → Expr → List Token → Read (Expr × List Token)
  | n + 1, level, left, t :: rest =>
    match BinOp.ofKind? t.kind with
    | none => .ok (left, t :: rest)
    | some op =>
      if level < op.level then do
        let (right, rest) ← exprAbove n op.level rest
        climb n level (.binary op left right) rest
      else .ok (left, t :: rest)
  | _, _, _, _ => .error .endOfTokens

end

def expr (ts : List Token) : Read (Expr × List Token) := exprAbove ts.length 0 ts

end Bisaya.Parse
