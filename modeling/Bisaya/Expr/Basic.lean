import Bisaya.Operator
import Bisaya.Value

namespace Bisaya

inductive Expr where
  | lit (v : Value)
  | var (name : String)
  | unary (op : UnOp) (operand : Expr)
  | binary (op : BinOp) (left right : Expr)
  deriving DecidableEq

namespace Expr

def text : Expr → String
  | lit v => v.source
  | var name => name
  | unary .dili e => "(DILI " ++ e.text ++ ")"
  | unary op e => "(" ++ op.text ++ e.text ++ ")"
  | binary op l r => "(" ++ l.text ++ " " ++ op.text ++ " " ++ r.text ++ ")"

/-- Equality of expressions whose literals agree. -/
def agrees : Expr → Expr → Bool
  | lit v, lit w => v.agrees w
  | var a, var b => a == b
  | unary op e, unary op' e' => op == op' && e.agrees e'
  | binary op l r, binary op' l' r' => op == op' && l.agrees l' && r.agrees r'
  | _, _ => false

end Expr
end Bisaya
