import Bisaya.Number.Double

namespace Bisaya.Number

/-- The decimal `coefficient · 10^power`. -/
structure Decimal where
  coefficient : Nat
  power : Int
  deriving DecidableEq, Repr

namespace Decimal

def exact (m : Nat) (e : Int) : Decimal := ⟨m * Nat.pow 2 e.toNat * Nat.pow 5 (-e).toNat, min e 0⟩

/-- The point of the grid `10^j` that stands for `num / den`: of its two neighbours one that reads
back as the double `bits`, the nearer if both do, and the upper if they are equally near. -/
def onGrid? (bits num den : Nat) (j : Int) : Option Decimal :=
  let n := num * Nat.pow 10 (-j).toNat
  let d := den * Nat.pow 10 j.toNat
  let low := n / d
  let down := nearestDecimal low j = bits
  let up := nearestDecimal (low + 1) j = bits
  if up ∧ (¬ down ∨ d ≤ 2 * (n % d)) then some ⟨low + 1, j⟩
  else if down then some ⟨low, j⟩
  else none

/-- Tries `steps` grids, each ten times as fine as the one before. -/
def search (bits num den : Nat) : Nat → Int → Option Decimal
  | 0, _ => none
  | steps + 1, j =>
    match onGrid? bits num den j with
    | some d => some d
    | none => search bits num den steps (j - 1)

/-- The shortest decimal of the finite double `bits`. The search starts at a power of ten above
it and passes seventeen digits, which tell any two doubles apart. -/
def shortest (bits : Nat) : Decimal :=
  if bits = 0 then ⟨0, 0⟩
  else
    let m := mantissa bits
    let e := exponent bits
    let (num, den) := scaled m e
    let top := (floorLog num den + 1) * 30103 / 100000 + 1
    (search bits num den 20 top).getD (exact m e)

/-- Positional notation, without an exponent. -/
def text (d : Decimal) : List Char :=
  let ds := digits d.coefficient
  if 0 ≤ d.power then ds ++ List.replicate d.power.toNat '0'
  else
    let places := (-d.power).toNat
    let padded := List.replicate (places + 1 - ds.length) '0' ++ ds
    padded.take (padded.length - places) ++ '.' :: padded.drop (padded.length - places)

end Decimal
end Bisaya.Number
