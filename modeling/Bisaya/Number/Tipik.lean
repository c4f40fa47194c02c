import Bisaya.Number.Shortest

namespace Bisaya

abbrev Tipik := Float

namespace Tipik

open Number

def signed (negative : Bool) (cs : List Char) : List Char := if negative then '-' :: cs else cs

def text (x : Tipik) : List Char :=
  let bits := magnitudeBits x
  if infinityBits < bits then "NaN".toList
  else if bits = infinityBits then signed (isNegative x) "inf".toList
  else signed (isNegative x) (Decimal.shortest bits).text

/-- The whole number a finite double is, if it is one. -/
def whole? (bits : Nat) : Option Nat :=
  let (num, den) := scaled (mantissa bits) (exponent bits)
  if num % den = 0 then some (num / den) else none

/-- The form in a program text, where a whole number keeps all its digits and one place. -/
def source (x : Tipik) : List Char :=
  let bits := magnitudeBits x
  if bits < infinityBits then
    match whole? bits with
    | some n => signed (isNegative x) (digits n ++ ['.', '0'])
    | none => x.text
  else x.text

def readExponent? : List Char → Option Int
  | [] => some 0
  | c :: cs =>
    if c = 'e' || c = 'E' then
      match cs with
      | '-' :: cs => (readNat? cs).map fun n => -(n : Int)
      | '+' :: cs => (readNat? cs).map fun n => (n : Int)
      | cs => (readNat? cs).map fun n => (n : Int)
    else none

/-- The digits behind a decimal point, if there is one, and what follows them. -/
def splitFraction : List Char → List Char × List Char
  | '.' :: cs => (cs.takeWhile Char.isDigit, cs.dropWhile Char.isDigit)
  | cs => ([], cs)

/-- Digits with an optional point among or around them, and an optional exponent. -/
def readDecimal? (cs : List Char) : Option Nat :=
  let whole := cs.takeWhile Char.isDigit
  let (fraction, rest) := splitFraction (cs.dropWhile Char.isDigit)
  if whole = [] ∧ fraction = [] then none
  else (readExponent? rest).map fun e =>
    nearestDecimal (value (whole ++ fraction)) (e - fraction.length)

/-- The names of what is no finite number are read in any case. -/
def readMagnitude? (cs : List Char) : Option Nat :=
  let name := String.ofList (cs.map Char.toLower)
  if name = "inf" ∨ name = "infinity" then some infinityBits
  else if name = "nan" then some (infinityBits + 0x8000000000000)
  else readDecimal? cs

def read? : List Char → Option Tipik
  | '-' :: cs => (readMagnitude? cs).map (ofBits true)
  | '+' :: cs => (readMagnitude? cs).map (ofBits false)
  | cs => (readMagnitude? cs).map (ofBits false)

end Tipik
end Bisaya
