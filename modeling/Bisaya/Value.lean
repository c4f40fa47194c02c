import Bisaya.Number.Numero
import Bisaya.Number.Tipik

namespace Bisaya

inductive DataType where
  | numero | tipik | letra | tinuod
  deriving DecidableEq, Repr

namespace DataType

def name : DataType → String
  | numero => "NUMERO"
  | tipik => "TIPIK"
  | letra => "LETRA"
  | tinuod => "TINUOD"

def all : List DataType := [numero, tipik, letra, tinuod]

def ofName? (word : String) : Option DataType := all.find? fun ty => ty.name == word

end DataType

inductive Value where
  | null
  | numero (n : Numero)
  | tipik (x : Tipik)
  | letra (text : String)
  | tinuod (b : Bool)
  deriving DecidableEq

namespace Value

def type? : Value → Option DataType
  | null => none
  | numero _ => some .numero
  | tipik _ => some .tipik
  | letra _ => some .letra
  | tinuod _ => some .tinuod

/-- A variable of type `ty` may hold `null` and the values of that type. -/
def Fits (v : Value) (ty : DataType) : Prop := v.type? = none ∨ v.type? = some ty

instance (v : Value) (ty : DataType) : Decidable (v.Fits ty) :=
  inferInstanceAs (Decidable (_ ∨ _))

def boolText (b : Bool) : String := if b then "OO" else "DILI"

/-- The text that a program prints. -/
def text : Value → String
  | null => "null"
  | numero n => String.ofList n.text
  | tipik x => String.ofList x.text
  | letra s => s
  | tinuod b => boolText b

/-- A text is written with the quote that it does not hold, the double one if it holds neither. -/
def quoteFor (s : String) : String := if '"' ∈ s.toList then "'" else "\""

/-- The form of a literal in a program text. -/
def source : Value → String
  | null => "null"
  | numero n => String.ofList n.text
  | tipik x => String.ofList x.source
  | letra s => quoteFor s ++ s ++ quoteFor s
  | tinuod b => "\"" ++ boolText b ++ "\""

/-- Equality that compares doubles as numbers: zero equals its negative, and what is no number
differs from itself. -/
def agrees : Value → Value → Bool
  | null, null => true
  | numero a, numero b => a == b
  | tipik a, tipik b => a == b
  | letra a, letra b => a == b
  | tinuod a, tinuod b => a == b
  | _, _ => false

end Value

/-- The name of a value's type, where `null` has none of its own. -/
def typeName : Option DataType → String
  | none => "null"
  | some ty => ty.name

end Bisaya
