import Bisaya.Text.Blank
import Bisaya.Value

namespace Bisaya.Entry

/-- One pair of equal quotes around a text is no part of it. -/
def unquote : List Char → List Char
  | [] => []
  | q :: cs => if (q = '"' ∨ q = '\'') ∧ cs.getLast? = some q then cs.dropLast else q :: cs

def readBool? (cs : List Char) : Option Bool :=
  let word := String.ofList (cs.map Char.toUpper)
  if word = "OO" then some true else if word = "DILI" then some false else none

/-- The value of an entry for a variable of type `ty`; blanks around it do not count, and a number
has to be finite. -/
def read? (ty : DataType) (raw : String) : Option Value :=
  let cs := Text.trim raw.toList
  match ty with
  | .numero => (Numero.read? cs).map .numero
  | .tipik => ((Tipik.read? cs).filter Number.isFinite).map .tipik
  | .letra => some (.letra (String.ofList (unquote cs)))
  | .tinuod => (readBool? cs).map .tinuod

end Bisaya.Entry
