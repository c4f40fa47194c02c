namespace Bisaya.Number

def digitChar (d : Nat) : Char := Char.ofNat (48 + d)

/-- The digits of `n`, the most significant first, without leading zeros. -/
def digits (n : Nat) : List Char :=
  if n < 10 then [digitChar n] else digits (n / 10) ++ [digitChar (n % 10)]

def value (cs : List Char) : Nat := cs.foldl (fun n c => 10 * n + (c.toNat - 48)) 0

theorem digitChar_eq (d : Nat) (h : d < 10) :
    (digitChar d).isDigit ∧ (digitChar d).toNat - 48 = d := by
  have : ∀ d : Fin 10, (digitChar d).isDigit ∧ (digitChar d).toNat - 48 = d := by decide
  exact this ⟨d, h⟩

theorem value_append_singleton (cs : List Char) (c : Char) :
    value (cs ++ [c]) = 10 * value cs + (c.toNat - 48) := by
  simp [value]

theorem value_digits (n : Nat) : value (digits n) = n := by
  fun_induction digits n with
  | case1 n h => simp [value, (digitChar_eq n h).2]
  | case2 n h ih =>
    rw [value_append_singleton, ih, (digitChar_eq (n % 10) (by omega)).2]
    omega

theorem digits_ne_nil (n : Nat) : digits n ≠ [] := by
  rw [digits]
  split <;> simp

theorem isDigit_of_mem_digits {n : Nat} {c : Char} (h : c ∈ digits n) : c.isDigit := by
  fun_induction digits n with
  | case1 n hn => rw [List.mem_singleton.1 h]; exact (digitChar_eq n hn).1
  | case2 n hn ih =>
    rcases List.mem_append.1 h with h | h
    · exact ih h
    · rw [List.mem_singleton.1 h]; exact (digitChar_eq (n % 10) (by omega)).1

def readNat? (cs : List Char) : Option Nat :=
  if cs ≠ [] ∧ cs.all Char.isDigit then some (value cs) else none

end Bisaya.Number
