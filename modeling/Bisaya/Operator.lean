import Bisaya.Token.Basic

namespace Bisaya

inductive Arith where
  | add | sub | mul | div | mod
  deriving DecidableEq, Repr

inductive Rel where
  | eq | ne | lt | gt | le | ge
  deriving DecidableEq, Repr

/-- The connectives look at their right operand only if the left one does not decide. -/
inductive Logic where
  | ug | o
  deriving DecidableEq, Repr

inductive BinOp where
  | arith (op : Arith)
  | rel (op : Rel)
  | logic (op : Logic)
  deriving DecidableEq, Repr

inductive UnOp where
  | plus | minus | dili
  deriving DecidableEq, Repr

namespace BinOp

def kind : BinOp → Kind
  | arith .add => .mark .plus
  | arith .sub => .mark .minus
  | arith .mul => .mark .asterisk
  | arith .div => .mark .slash
  | arith .mod => .mark .percent
  | rel .eq => .mark .equals
  | rel .ne => .mark .notEquals
  | rel .lt => .mark .less
  | rel .gt => .mark .greater
  | rel .le => .mark .lessEquals
  | rel .ge => .mark .greaterEquals
  | logic .ug => .keyword .ug
  | logic .o => .keyword .o

def ofKind? : Kind → Option BinOp
  | .mark .plus => some (arith .add)
  | .mark .minus => some (arith .sub)
  | .mark .asterisk => some (arith .mul)
  | .mark .slash => some (arith .div)
  | .mark .percent => some (arith .mod)
  | .mark .equals => some (rel .eq)
  | .mark .notEquals => some (rel .ne)
  | .mark .less => some (rel .lt)
  | .mark .greater => some (rel .gt)
  | .mark .lessEquals => some (rel .le)
  | .mark .greaterEquals => some (rel .ge)
  | .keyword .ug => some (logic .ug)
  | .keyword .o => some (logic .o)
  | _ => none

@[simp] theorem ofKind?_kind (op : BinOp) : ofKind? op.kind = some op := by
  rcases op with op | op | op <;> cases op <;> rfl

/-- Operators of a higher level bind more tightly; those of one level group from the left. -/
def level : BinOp → Nat
  | logic .o => 1
  | logic .ug => 2
  | rel .eq | rel .ne => 3
  | rel _ => 4
  | arith .add | arith .sub => 5
  | arith _ => 6

end BinOp

namespace UnOp

/-- A sign or a negation binds more tightly than every operator between two operands. -/
def level : Nat := 7

def kind : UnOp → Kind
  | plus => .mark .plus
  | minus => .mark .minus
  | dili => .keyword .dili

end UnOp

inductive Operator where
  | unary (op : UnOp)
  | binary (op : BinOp)
  deriving DecidableEq, Repr

def Kind.spelling : Kind → String
  | .mark m => m.text
  | .keyword k => k.text
  | _ => ""

def BinOp.text (op : BinOp) : String := op.kind.spelling

def UnOp.text (op : UnOp) : String := op.kind.spelling

def Operator.text : Operator → String
  | unary op => op.text
  | binary op => op.text

end Bisaya
