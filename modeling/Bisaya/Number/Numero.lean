import Bisaya.Number.Digits

namespace Bisaya

abbrev Numero := Int64

namespace Numero

def InRange (z : Int) : Prop := -0x8000000000000000 ≤ z ∧ z < 0x8000000000000000

instance (z : Int) : Decidable (InRange z) := inferInstanceAs (Decidable (_ ∧ _))

def ofInt? (z : Int) : Option Numero := if InRange z then some (Int64.ofInt z) else none

theorem inRange_toInt (n : Numero) : InRange n.toInt := ⟨n.le_toInt, n.toInt_lt⟩

theorem ofInt?_eq_some_iff {z : Int} {n : Numero} : ofInt? z = some n ↔ n.toInt = z := by
  unfold ofInt?
  constructor
  · intro h
    split at h
    · rename_i hz
      rw [← Option.some.inj h]
      exact Int64.toInt_ofInt_of_le hz.1 hz.2
    · exact absurd h (by simp)
  · intro h
    subst h
    simp [inRange_toInt]

theorem ofInt?_eq_none_iff {z : Int} : ofInt? z = none ↔ ¬ InRange z := by
  simp [ofInt?]

def text (n : Numero) : List Char :=
  if n.toInt < 0 then '-' :: Number.digits n.toInt.natAbs else Number.digits n.toInt.natAbs

/-- A whole number is written with digits and at most one sign. -/
def readInt? : List Char → Option Int
  | '-' :: cs => (Number.readNat? cs).map fun n => -(n : Int)
  | '+' :: cs => (Number.readNat? cs).map fun n => (n : Int)
  | cs => (Number.readNat? cs).map fun n => (n : Int)

def read? (cs : List Char) : Option Numero := (readInt? cs).bind ofInt?

end Numero
end Bisaya
