import Bisaya.Operator
import Bisaya.Value

namespace Bisaya

inductive Clause where
  | init | update
  deriving DecidableEq, Repr

def Clause.name : Clause → String
  | init => "init"
  | update => "update"

inductive ParseError where
  | endOfTokens
  | expected (kinds : List Kind) (got : Token)
  | unexpected (got : Token)
  | illegal (got : Token)
  | missingStart (got : Token)
  | missingEnd (position : Position)
  | unclosedBlock (opened : Position)
  | invalidNumber (got : Token)
  | invalidClause (clause : Clause) (position : Position)
  | literalMismatch (name : String) (ty : DataType) (got : Token)
  deriving DecidableEq, Repr

inductive RuntimeError where
  | duplicate (name : String)
  | undefined (name : String)
  | unsupportedPair (op : BinOp) (left right : DataType)
  | unsupported (op : Operator) (operand : DataType)
  | assignmentType (name : String) (expected got : DataType)
  | notBoolean (got : Option DataType)
  | unset (op : Operator)
  | invalidInput (name : String) (ty : DataType) (raw : String)
  | divisionByZero
  | overflow (op : Operator)
  | noInput (name : String)
  deriving DecidableEq, Repr

inductive Error where
  | parse (e : ParseError)
  | run (e : RuntimeError)
  deriving DecidableEq, Repr

inductive Category where
  | form | declaration | reference | type | arithmetic | input
  deriving DecidableEq, Repr

def Category.name : Category → String
  | form => "SyntaxError"
  | declaration => "DeclarationError"
  | reference => "ReferenceError"
  | type => "TypeError"
  | arithmetic => "ArithmeticError"
  | input => "InputError"

namespace ParseError

/-- A token that is outside the language is reported as such wherever it stands. -/
def ofExpected (kinds : List Kind) (got : Token) : ParseError :=
  if got.kind = .illegal then illegal got else expected kinds got

def ofUnexpected (got : Token) : ParseError :=
  if got.kind = .illegal then illegal got else unexpected got

def ofMismatch (name : String) (ty : DataType) (got : Token) : ParseError :=
  if got.kind = .illegal then illegal got else literalMismatch name ty got

def ofMissingStart (got : Token) : ParseError :=
  if got.kind = .illegal then illegal got else missingStart got

def category : ParseError → Category
  | literalMismatch .. => .declaration
  | _ => .form

def message : ParseError → String
  | endOfTokens => "expected a token, but reached EOF"
  | expected kinds got =>
    toString got.position ++ ": expected tokens: " ++ ", ".intercalate (kinds.map Kind.name) ++
      ". got=" ++ got.kind.name ++ "('" ++ got.literal ++ "')"
  | unexpected got =>
    toString got.position ++ ": unexpected token " ++ got.kind.name ++ "('" ++ got.literal ++ "')"
  | illegal got => toString got.position ++ ": unrecognized input '" ++ got.literal ++ "'"
  | missingStart got =>
    toString got.position ++ ": program must open with SUGOD. got=" ++ got.kind.name
  | missingEnd position => toString position ++ ": program must close with KATAPUSAN"
  | unclosedBlock opened => toString opened ++ ": block is never closed"
  | invalidNumber got =>
    toString got.position ++ ": invalid numeric literal '" ++ got.literal ++ "'"
  | invalidClause clause position =>
    toString position ++ ": invalid " ++ clause.name ++ " clause in loop header"
  | literalMismatch name ty got =>
    toString got.position ++ ": literal '" ++ got.literal ++ "' does not match type " ++ ty.name ++
      " of '" ++ name ++ "'"

end ParseError

namespace RuntimeError

def category : RuntimeError → Category
  | duplicate _ => .declaration
  | undefined _ => .reference
  | unsupportedPair .. | unsupported .. | assignmentType .. | notBoolean _ | unset _
  | invalidInput .. => .type
  | divisionByZero | overflow _ => .arithmetic
  | noInput _ => .input

def message : RuntimeError → String
  | duplicate name => "variable '" ++ name ++ "' is already declared"
  | undefined name => "variable '" ++ name ++ "' is not declared"
  | unsupportedPair op left right =>
    "operator `" ++ op.text ++ "` is not supported for " ++ left.name ++ " and " ++ right.name
  | unsupported op operand =>
    "operator `" ++ op.text ++ "` is not supported for " ++ operand.name
  | assignmentType name expected got =>
    "cannot assign " ++ got.name ++ " to '" ++ name ++ "' of type " ++ expected.name
  | notBoolean got => "condition must be TINUOD. got=" ++ typeName got
  | unset op => "operator `" ++ op.text ++ "` applied to a variable without a value"
  | invalidInput name ty raw =>
    "invalid " ++ ty.name ++ " input for '" ++ name ++ "': '" ++ raw ++ "'"
  | divisionByZero => "division by zero"
  | overflow op => "integer overflow in `" ++ op.text ++ "`"
  | noInput name => "no input value available for '" ++ name ++ "'"

end RuntimeError

namespace Error

def category : Error → Category
  | parse e => e.category
  | run e => e.category

def message : Error → String
  | parse e => e.message
  | run e => e.message

def report (e : Error) : String := e.category.name ++ ": " ++ e.message

end Error
end Bisaya
