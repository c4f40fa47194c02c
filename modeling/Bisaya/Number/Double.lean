import Bisaya.Number.Digits

namespace Bisaya.Number

/-- Bits are taken without the sign; from here on they stand for no finite number. -/
def infinityBits : Nat := 0x7ff0000000000000

def magnitudeBits (x : Float) : Nat := x.toBits.toNat % 0x8000000000000000

def isNegative (x : Float) : Bool := 0x8000000000000000 ≤ x.toBits.toNat

def isFinite (x : Float) : Bool := magnitudeBits x < infinityBits

def ofBits (negative : Bool) (bits : Nat) : Float :=
  Float.ofBits (UInt64.ofNat (bits + if negative then 0x8000000000000000 else 0))

def notANumber : Float := Float.ofBits 0x7ff8000000000000

/-- The lower 52 bits, and above them the bit that a normal double does not store. -/
def mantissa (bits : Nat) : Nat :=
  if bits < 0x10000000000000 then bits else bits % 0x10000000000000 + 0x10000000000000

def exponent (bits : Nat) : Int :=
  if bits < 0x10000000000000 then -1074 else (bits / 0x10000000000000 : Nat) - 1075

def scaled (m : Nat) (e : Int) : Nat × Nat := (m * Nat.pow 2 e.toNat, Nat.pow 2 (-e).toNat)

/-- The largest `k` with `2^k ≤ num / den`. -/
def floorLog (num den : Nat) : Int :=
  let k : Int := num.log2 - den.log2
  if num * Nat.pow 2 (-k).toNat < den * Nat.pow 2 k.toNat then k - 1 else k

/-- `num / den` rounded to a whole number, a half to the even one. -/
def roundEven (num den : Nat) : Nat :=
  let q := num / den
  let r := num % den
  if 2 * r < den ∨ (2 * r = den ∧ q % 2 = 0) then q else q + 1

/-- The bits of the double nearest to `num / den`. -/
def nearest (num den : Nat) : Nat :=
  if num = 0 then 0
  else
    let e := max (-1074) (floorLog num den - 52)
    let q := roundEven (num * Nat.pow 2 (-e).toNat) (den * Nat.pow 2 e.toNat)
    min infinityBits ((e + 1074).toNat * 0x10000000000000 + q)

/-- The bits of the double nearest to `d · 10^j`. A number of `n` digits before the exponent lies
between `10^(n+j-1)` and `10^(n+j)`, which settles the extreme exponents without computing them. -/
def nearestDecimal (d : Nat) (j : Int) : Nat :=
  let top := (digits d).length + j
  if d = 0 ∨ top < -330 then 0
  else if 320 < top then infinityBits
  else nearest (d * Nat.pow 10 j.toNat) (Nat.pow 10 (-j).toNat)

/-- The remainder of a truncated division, computed exactly; it has the sign of the dividend. -/
def remainder (x y : Float) : Float :=
  let a := magnitudeBits x
  let b := magnitudeBits y
  if !isFinite x || infinityBits < b || b = 0 then notANumber
  else if b = infinityBits then x
  else
    let e := min (exponent a) (exponent b)
    let r := (mantissa a * Nat.pow 2 (exponent a - e).toNat) %
      (mantissa b * Nat.pow 2 (exponent b - e).toNat)
    let (num, den) := scaled r e
    ofBits (isNegative x) (nearest num den)

end Bisaya.Number
