import Mathlib
import Bisaya.Number.Tipik

namespace Bisaya.Number

section Powers

variable (bits num den m d : ℕ) (e j : ℤ)

theorem mantissa_def :
    mantissa bits = if bits < 2 ^ 52 then bits else bits % 2 ^ 52 + 2 ^ 52 := rfl

theorem exponent_def :
    exponent bits = if bits < 2 ^ 52 then -1074 else ((bits / 2 ^ 52 : ℕ) : ℤ) - 1075 := rfl

theorem scaled_def : scaled m e = (m * 2 ^ e.toNat, 2 ^ (-e).toNat) := rfl

theorem floorLog_def : floorLog num den =
    let k : ℤ := num.log2 - den.log2
    if num * 2 ^ (-k).toNat < den * 2 ^ k.toNat then k - 1 else k := rfl

theorem nearest_def : nearest num den =
    if num = 0 then 0
    else
      let e := max (-1074) (floorLog num den - 52)
      let q := roundEven (num * 2 ^ (-e).toNat) (den * 2 ^ e.toNat)
      min infinityBits ((e + 1074).toNat * 2 ^ 52 + q) := rfl

theorem nearestDecimal_def : nearestDecimal d j =
    if d = 0 ∨ (digits d).length + j < -330 then 0
    else if 320 < (digits d).length + j then infinityBits
    else nearest (d * 10 ^ j.toNat) (10 ^ (-j).toNat) := rfl

end Powers

/-- The number that the bits of a finite double stand for. -/
def rat (bits : ℕ) : ℚ := mantissa bits * 2 ^ exponent bits

theorem zpow_mul_toNat {b : ℚ} (hb : b ≠ 0) (k : ℤ) : b ^ k * b ^ (-k).toNat = b ^ k.toNat := by
  rw [← zpow_natCast, ← zpow_natCast, ← zpow_add₀ hb]
  congr 1
  omega

theorem two_zpow_mul (k : ℤ) : (2 : ℚ) ^ k * 2 ^ (-k).toNat = 2 ^ k.toNat :=
  zpow_mul_toNat two_ne_zero k

theorem two_zpow_lt_iff {j k : ℤ} : (2 : ℚ) ^ j < 2 ^ k ↔ j < k :=
  zpow_lt_zpow_iff_right₀ one_lt_two

theorem scaled_eq (m : ℕ) (e : ℤ) :
    0 < (scaled m e).2 ∧ ((scaled m e).1 : ℚ) / (scaled m e).2 = m * 2 ^ e := by
  have hd : (0 : ℚ) < 2 ^ (-e).toNat := by positivity
  refine ⟨Nat.two_pow_pos _, ?_⟩
  simp only [scaled_def, Nat.cast_mul, Nat.cast_pow, Nat.cast_ofNat]
  rw [div_eq_iff hd.ne', mul_assoc, two_zpow_mul]

/-- `2^k` bounds a quotient from above exactly if the scaled comparison of whole numbers says so. -/
theorem div_lt_zpow_iff {num den : ℕ} (hden : 0 < den) (k : ℤ) :
    (num : ℚ) / den < 2 ^ k ↔ num * 2 ^ (-k).toNat < den * 2 ^ k.toNat := by
  have hd : (0 : ℚ) < den := by exact_mod_cast hden
  have hp : (0 : ℚ) < 2 ^ (-k).toNat := by positivity
  rw [div_lt_iff₀ hd, ← mul_lt_mul_iff_of_pos_right hp, mul_right_comm, two_zpow_mul,
    mul_comm (2 ^ k.toNat : ℚ)]
  exact_mod_cast Iff.rfl

theorem floorLog_spec {num den : ℕ} (hnum : 0 < num) (hden : 0 < den) :
    (2 : ℚ) ^ floorLog num den ≤ num / den ∧ (num : ℚ) / den < 2 ^ (floorLog num den + 1) := by
  have hd : (0 : ℚ) < den := by exact_mod_cast hden
  have nlow : (2 : ℚ) ^ num.log2 ≤ num := by exact_mod_cast Nat.log2_self_le hnum.ne'
  have nhigh : (num : ℚ) < 2 ^ (num.log2 + 1) := by exact_mod_cast Nat.lt_log2_self
  have dlow : (2 : ℚ) ^ den.log2 ≤ den := by exact_mod_cast Nat.log2_self_le hden.ne'
  have dhigh : (den : ℚ) < 2 ^ (den.log2 + 1) := by exact_mod_cast Nat.lt_log2_self
  -- the difference of the logarithms is off by one at most, and the comparison says which it is
  set k : ℤ := num.log2 - den.log2 with hk
  have above : (num : ℚ) / den < 2 ^ (k + 1) := by
    rw [div_lt_iff₀ hd]
    calc (num : ℚ) < 2 ^ (num.log2 + 1) := nhigh
      _ = 2 ^ (k + 1) * 2 ^ den.log2 := by
        rw [← zpow_natCast, ← zpow_natCast, ← zpow_add₀ two_ne_zero]
        congr 1
        push_cast
        omega
      _ ≤ 2 ^ (k + 1) * den := by gcongr
  have below : (2 : ℚ) ^ (k - 1) ≤ num / den := by
    rw [le_div_iff₀ hd]
    calc (2 : ℚ) ^ (k - 1) * den ≤ 2 ^ (k - 1) * 2 ^ (den.log2 + 1) := by gcongr
      _ = 2 ^ num.log2 := by
        rw [← zpow_natCast, ← zpow_natCast, ← zpow_add₀ two_ne_zero]
        congr 1
        push_cast
        omega
      _ ≤ num := nlow
  rw [floorLog_def, ← hk]
  by_cases h : num * 2 ^ (-k).toNat < den * 2 ^ k.toNat
  · rw [if_pos h, sub_add_cancel]
    exact ⟨below, (div_lt_zpow_iff hden k).2 h⟩
  · rw [if_neg h]
    exact ⟨not_lt.1 fun hlt => h ((div_lt_zpow_iff hden k).1 hlt), above⟩

theorem floorLog_eq {num den : ℕ} (hnum : 0 < num) (hden : 0 < den) {k : ℤ}
    (hlow : (2 : ℚ) ^ k ≤ num / den) (hhigh : (num : ℚ) / den < 2 ^ (k + 1)) :
    floorLog num den = k := by
  obtain ⟨low, high⟩ := floorLog_spec hnum hden
  have h₁ := two_zpow_lt_iff.1 (low.trans_lt hhigh)
  have h₂ := two_zpow_lt_iff.1 (hlow.trans_lt high)
  omega

theorem roundEven_mul (q : ℕ) {d : ℕ} (hd : 0 < d) : roundEven (q * d) d = q := by
  simp [roundEven, Nat.mul_div_cancel _ hd, hd]

/-- A whole multiple of the unit `2^e` needs no rounding. -/
theorem roundEven_scaled {num den m : ℕ} {e : ℤ} (hden : 0 < den)
    (h : (num : ℚ) / den = m * 2 ^ e) :
    roundEven (num * 2 ^ (-e).toNat) (den * 2 ^ e.toNat) = m := by
  have hd : (den : ℚ) ≠ 0 := by exact_mod_cast hden.ne'
  have hn : num * 2 ^ (-e).toNat = m * (den * 2 ^ e.toNat) := by
    rw [div_eq_iff hd] at h
    have hq : (num : ℚ) * 2 ^ (-e).toNat = m * (den * 2 ^ e.toNat) := by
      rw [h, ← two_zpow_mul e]
      ring
    exact_mod_cast hq
  rw [hn]
  exact roundEven_mul m (by positivity)

theorem mantissa_pos {bits : ℕ} (h : bits ≠ 0) : 0 < mantissa bits := by
  unfold mantissa
  split <;> omega

theorem mantissa_lt (bits : ℕ) : mantissa bits < 2 ^ 53 := by
  unfold mantissa
  split <;> omega

theorem exponent_ge (bits : ℕ) : -1074 ≤ exponent bits := by
  unfold exponent
  split <;> omega

theorem bits_eq (bits : ℕ) : (exponent bits + 1074).toNat * 2 ^ 52 + mantissa bits = bits := by
  unfold exponent mantissa
  split <;> omega

theorem max_exponent {bits : ℕ} {num den : ℕ} (hnum : 0 < num) (hden : 0 < den)
    (h : (num : ℚ) / den = rat bits) :
    max (-1074) (floorLog num den - 52) = exponent bits := by
  by_cases hb : bits < 2 ^ 52
  · -- subnormal: the logarithm falls below the range and the bound takes over
    have he : exponent bits = -1074 := if_pos hb
    have hm : (mantissa bits : ℚ) < 2 ^ (52 : ℤ) := by
      simp only [mantissa_def, hb, if_true]
      exact_mod_cast hb
    have hlog : floorLog num den < -1022 := by
      apply two_zpow_lt_iff.1
      calc (2 : ℚ) ^ floorLog num den ≤ num / den := (floorLog_spec hnum hden).1
        _ = mantissa bits * 2 ^ (-1074 : ℤ) := by rw [h, rat, he]
        _ < 2 ^ (52 : ℤ) * 2 ^ (-1074 : ℤ) := by gcongr
        _ = 2 ^ (-1022 : ℤ) := by rw [← zpow_add₀ two_ne_zero]; rfl
    omega
  · -- normal: the leading bit of the mantissa is the one that is not stored
    have hm : (2 : ℚ) ^ (52 : ℤ) ≤ mantissa bits ∧ (mantissa bits : ℚ) < 2 ^ (53 : ℤ) := by
      have hlow : 2 ^ 52 ≤ mantissa bits := by
        rw [mantissa_def, if_neg hb]
        omega
      exact ⟨by exact_mod_cast hlow, by exact_mod_cast mantissa_lt bits⟩
    have hlog : floorLog num den = 52 + exponent bits := by
      apply floorLog_eq hnum hden
      · rw [h, rat, zpow_add₀ two_ne_zero]
        gcongr
        exact hm.1
      · rw [h, rat, show 52 + exponent bits + 1 = 53 + exponent bits by ring,
          zpow_add₀ two_ne_zero]
        gcongr
        exact hm.2
    have := exponent_ge bits
    omega

theorem rat_pos {bits : ℕ} (h : bits ≠ 0) : 0 < rat bits := by
  have := mantissa_pos h
  unfold rat
  positivity

/-- The nearest double of a number that a finite double holds is that double. -/
theorem nearest_eq {bits num den : ℕ} (hb : bits < infinityBits) (hden : 0 < den)
    (h : (num : ℚ) / den = rat bits) : nearest num den = bits := by
  have hd : (0 : ℚ) < den := by exact_mod_cast hden
  by_cases h0 : bits = 0
  · have hnum : num = 0 := by
      simpa [h0, rat, mantissa, hden.ne'] using h
    simp [nearest, hnum, h0]
  · have hnum : 0 < num := by
      have hp := h ▸ rat_pos h0
      exact_mod_cast (div_pos_iff_of_pos_right hd).1 hp
    rw [nearest_def]
    simp only [if_neg hnum.ne', max_exponent hnum hden h, roundEven_scaled hden h, bits_eq]
    omega

/-- A sum of fields is decoded even where rounding up has filled the mantissa. -/
theorem rat_fields {e : ℤ} {q : ℕ} (he : -1074 ≤ e) (hq : q ≤ 2 ^ 53)
    (hlow : e = -1074 ∨ 2 ^ 52 ≤ q) : rat ((e + 1074).toNat * 2 ^ 52 + q) = q * 2 ^ e := by
  by_cases hsub : q < 2 ^ 52
  · have h0 : e = -1074 := hlow.resolve_right (by omega)
    rw [h0, show ((-1074 : ℤ) + 1074).toNat * 2 ^ 52 + q = q by omega, rat, mantissa_def,
      exponent_def, if_pos hsub, if_pos hsub]
  · set bits := (e + 1074).toNat * 2 ^ 52 + q with hbits
    have hbig : ¬ bits < 2 ^ 52 := by omega
    rw [rat, mantissa_def, exponent_def, if_neg hbig, if_neg hbig]
    by_cases hfull : q = 2 ^ 53
    · -- the carry goes into the exponent and leaves a mantissa of zeros
      have hm : bits % 2 ^ 52 + 2 ^ 52 = 2 ^ 52 := by omega
      have hx : ((bits / 2 ^ 52 : ℕ) : ℤ) - 1075 = e + 1 := by omega
      rw [hm, hx, hfull, zpow_add₀ two_ne_zero]
      push_cast
      ring
    · have hm : bits % 2 ^ 52 + 2 ^ 52 = q := by omega
      have hx : ((bits / 2 ^ 52 : ℕ) : ℤ) - 1075 = e := by omega
      rw [hm, hx]

theorem roundEven_bounds (n d : ℕ) : n / d ≤ roundEven n d ∧ roundEven n d ≤ n / d + 1 := by
  unfold roundEven
  dsimp only
  split <;> omega

theorem floorLog_one {n : ℕ} (hn : n ≠ 0) : floorLog n 1 = n.log2 := by
  have hlow := Nat.log2_self_le hn
  simp only [floorLog_def, show (1 : ℕ).log2 = 0 by decide, Nat.cast_zero, sub_zero, one_mul]
  rw [if_neg]
  simpa using hlow

/-- The mantissa of a whole number that has at most 53 bits is exact, and of a larger one it is
rounded; both times a whole number of units comes out. -/
theorem roundEven_log2 {n : ℕ} (hn : n ≠ 0) :
    let q := roundEven (n * 2 ^ (52 - n.log2)) (2 ^ (n.log2 - 52))
    2 ^ 52 ≤ q ∧ q ≤ 2 ^ 53 ∧ ∃ w : ℕ, (q : ℚ) * 2 ^ ((n.log2 : ℤ) - 52) = w := by
  have low := Nat.log2_self_le hn
  have high := @Nat.lt_log2_self n
  rw [pow_succ] at high
  generalize n.log2 = k at low high ⊢
  intro q
  by_cases hk : k ≤ 52
  · -- shifted up, nothing is lost
    have hq : q = n * 2 ^ (52 - k) := by
      have h := roundEven_mul (n * 2 ^ (52 - k)) Nat.one_pos
      simpa only [q, show k - 52 = 0 by omega, pow_zero, mul_one] using h
    have h52 : 2 ^ k * 2 ^ (52 - k) = 2 ^ 52 := by rw [← pow_add]; congr 1; omega
    have hlow := Nat.mul_le_mul_right (2 ^ (52 - k)) low
    have hhigh := Nat.mul_lt_mul_of_pos_right high (Nat.two_pow_pos (52 - k))
    refine ⟨by omega, by rw [mul_right_comm, h52] at hhigh; omega, n, ?_⟩
    have hone : ((2 ^ (52 - k) : ℕ) : ℚ) * 2 ^ ((k : ℤ) - 52) = 1 := by
      rw [Nat.cast_pow, Nat.cast_ofNat, ← zpow_natCast, ← zpow_add₀ two_ne_zero,
        show ((52 - k : ℕ) : ℤ) + ((k : ℤ) - 52) = 0 by omega, zpow_zero]
    rw [hq, Nat.cast_mul, mul_assoc, hone, mul_one]
  · -- shifted down, and rounding adds one at most
    have hq : q = roundEven n (2 ^ (k - 52)) := by
      simp only [q, show 52 - k = 0 by omega, pow_zero, mul_one]
    have h52 : 2 ^ 52 * 2 ^ (k - 52) = 2 ^ k := by rw [← pow_add]; congr 1; omega
    have hlow : 2 ^ 52 ≤ n / 2 ^ (k - 52) := by
      rw [Nat.le_div_iff_mul_le (Nat.two_pow_pos _), h52]
      exact low
    have hhigh : n / 2 ^ (k - 52) < 2 ^ 53 := by
      rw [Nat.div_lt_iff_lt_mul (Nat.two_pow_pos _)]
      omega
    have hround := roundEven_bounds n (2 ^ (k - 52))
    refine ⟨by omega, by omega, q * 2 ^ (k - 52), ?_⟩
    rw [Nat.cast_mul, Nat.cast_pow, Nat.cast_ofNat, ← zpow_natCast]
    congr 2
    omega

/-- A whole number is rounded to a whole number. -/
theorem rat_nearest_one (n : ℕ) (h : nearest n 1 < infinityBits) :
    ∃ w : ℕ, rat (nearest n 1) = w := by
  by_cases hn : n = 0
  · exact ⟨0, by simp [nearest, hn, rat, mantissa]⟩
  obtain ⟨hlow, hhigh, w, hw⟩ := roundEven_log2 hn
  refine ⟨w, ?_⟩
  rw [nearest_def] at h ⊢
  simp only [if_neg hn, floorLog_one hn, one_mul,
    show max (-1074) ((n.log2 : ℤ) - 52) = n.log2 - 52 by omega,
    show (-((n.log2 : ℤ) - 52)).toNat = 52 - n.log2 by omega,
    show ((n.log2 : ℤ) - 52).toNat = n.log2 - 52 by omega] at h ⊢
  rw [min_eq_right (by omega), ← hw]
  exact rat_fields (by omega) hhigh (Or.inr hlow)

theorem whole?_eq_some_iff {bits n : ℕ} : Tipik.whole? bits = some n ↔ rat bits = n := by
  obtain ⟨hd, heq⟩ := scaled_eq (mantissa bits) (exponent bits)
  have hd' : ((scaled (mantissa bits) (exponent bits)).2 : ℚ) ≠ 0 := by exact_mod_cast hd.ne'
  have hrat : rat bits = n ↔ (scaled (mantissa bits) (exponent bits)).1 =
      n * (scaled (mantissa bits) (exponent bits)).2 := by
    rw [rat, ← heq, div_eq_iff hd']
    exact_mod_cast Iff.rfl
  rw [hrat, Tipik.whole?]
  generalize scaled (mantissa bits) (exponent bits) = p at hd ⊢
  obtain ⟨num, den⟩ := p
  dsimp only at hd ⊢
  constructor
  · intro h
    split at h
    · rename_i hmod
      rw [← Option.some.inj h]
      exact (Nat.div_mul_cancel (Nat.dvd_of_mod_eq_zero hmod)).symm
    · cases h
  · intro h
    simp [h, Nat.mul_div_cancel _ hd]

theorem lt_pow_length_digits (n : ℕ) : n < 10 ^ (digits n).length := by
  fun_induction digits n with
  | case1 n h => simpa using h
  | case2 n h ih =>
    rw [List.length_append, List.length_singleton, pow_succ]
    omega

theorem pow_length_digits_le {n : ℕ} (hn : n ≠ 0) : 10 ^ (digits n).length ≤ 10 * n := by
  fun_induction digits n with
  | case1 n h => simp; omega
  | case2 n h ih =>
    have := ih (by omega)
    rw [List.length_append, List.length_singleton, pow_succ]
    omega

/-- Inside the range of doubles the extreme exponents play no part. -/
theorem nearestDecimal_eq {d : ℕ} {j : ℤ} (hd : d ≠ 0) (hlow : -330 ≤ (digits d).length + j)
    (hhigh : (digits d).length + j ≤ 320) :
    nearestDecimal d j = nearest (d * 10 ^ j.toNat) (10 ^ (-j).toNat) := by
  rw [nearestDecimal_def, if_neg (by omega), if_neg (by omega)]

theorem rat_zero : rat 0 = (0 : ℕ) := by simp [rat, mantissa]

/-- Without a fraction a decimal is read as a whole number. -/
theorem whole?_nearestDecimal {d : ℕ} {j : ℤ} (hj : 0 ≤ j)
    (h : nearestDecimal d j < infinityBits) : Tipik.whole? (nearestDecimal d j) ≠ none := by
  rw [nearestDecimal_def] at h ⊢
  split at h
  · rename_i h0
    rw [if_pos h0, whole?_eq_some_iff.2 rat_zero]
    simp
  · rename_i h0
    rw [if_neg h0]
    split at h
    · exact absurd h (lt_irrefl _)
    · rename_i h1
      rw [if_neg h1]
      rw [show (-j).toNat = 0 by omega, pow_zero] at h ⊢
      obtain ⟨w, hw⟩ := rat_nearest_one _ h
      rw [whole?_eq_some_iff.2 hw]
      simp

theorem rat_lt {bits : ℕ} (h : bits < infinityBits) : rat bits < 2 ^ (1024 : ℤ) := by
  have hm := mantissa_lt bits
  have he : exponent bits ≤ 971 := by
    unfold exponent
    unfold infinityBits at h
    split <;> omega
  calc rat bits < 2 ^ (53 : ℤ) * 2 ^ exponent bits := by
        unfold rat
        gcongr
        exact_mod_cast hm
    _ ≤ 2 ^ (53 : ℤ) * 2 ^ (971 : ℤ) := by
        gcongr
        exact one_le_two
    _ = 2 ^ (1024 : ℤ) := by
        rw [← zpow_add₀ two_ne_zero]
        norm_num only

/-- The number halfway between the largest double and the next power of two, from which on a
decimal is rounded to infinity. -/
def overflow : ℚ := 2 ^ (1024 : ℤ) - 2 ^ (970 : ℤ)

theorem overflow_eq : overflow = (2 ^ (53 : ℤ) - 1 / 2) * 2 ^ (971 : ℤ) := by
  have htop : (2 : ℚ) ^ (1024 : ℤ) = 2 ^ (53 : ℤ) * 2 ^ (971 : ℤ) := by
    rw [← zpow_add₀ two_ne_zero]
    norm_num only
  have hunit : (2 : ℚ) ^ (971 : ℤ) = 2 ^ (970 : ℤ) * 2 := by
    rw [← zpow_add_one₀ two_ne_zero]
    norm_num only
  rw [overflow, htop, hunit]
  ring

theorem zpow_lt_overflow : (2 : ℚ) ^ (1023 : ℤ) < overflow := by
  have hpos : (0 : ℚ) < 2 ^ (971 : ℤ) := by positivity
  have htop : (2 : ℚ) ^ (1023 : ℤ) = 2 ^ (52 : ℤ) * 2 ^ (971 : ℤ) := by
    rw [← zpow_add₀ two_ne_zero]
    norm_num only
  rw [htop, overflow_eq]
  gcongr
  norm_num

theorem overflow_pos : 0 < overflow :=
  (zpow_pos two_pos 1023).trans zpow_lt_overflow

theorem overflow_lt_zpow : overflow < 2 ^ (1024 : ℤ) := by
  have hpos : (0 : ℚ) < 2 ^ (970 : ℤ) := by positivity
  exact sub_lt_self _ hpos

theorem overflow_lt_ten_zpow : overflow < 10 ^ (320 : ℤ) := calc
  overflow < 2 ^ (1024 : ℤ) := overflow_lt_zpow
  _ = (2 ^ (16 : ℤ)) ^ (64 : ℤ) := by
    rw [← zpow_mul]
    norm_num only
  _ ≤ (10 ^ (5 : ℤ)) ^ (64 : ℤ) := zpow_le_zpow_left₀ (by norm_num) (by positivity) (by norm_num)
  _ = 10 ^ (320 : ℤ) := by
    rw [← zpow_mul]
    norm_num only

/-- Below an odd number and a half a number is rounded to the odd one at most. -/
theorem roundEven_le_iff {n d k : ℕ} (hd : 0 < d) (hk : k % 2 = 1) :
    roundEven n d ≤ k ↔ 2 * n < (2 * k + 1) * d := by
  have hn := Nat.div_add_mod n d
  have hr := Nat.mod_lt n hd
  have hround := roundEven_bounds n d
  have hk' : (2 * k + 1) * d = 2 * (d * k) + d := by ring
  rcases lt_trichotomy (n / d) k with h | h | h
  · have hle := Nat.mul_le_mul_left d (Nat.succ_le_of_lt h)
    rw [Nat.mul_succ] at hle
    omega
  · have hq : roundEven n d = if 2 * (n % d) < d then k else k + 1 := by
      have hodd : ¬ (2 * (n % d) = d ∧ k % 2 = 0) := by omega
      simp only [roundEven, h, hodd, or_false]
    rw [h] at hn
    rw [hq]
    split <;> omega
  · have hle := Nat.mul_le_mul_left d (Nat.succ_le_of_lt h)
    rw [Nat.mul_succ] at hle
    omega

theorem lt_mul_zpow_iff (num : ℕ) {den : ℕ} (hden : 0 < den) (e : ℤ) (b : ℚ) :
    (num : ℚ) / den < b * 2 ^ e ↔
      ((num * 2 ^ (-e).toNat : ℕ) : ℚ) < b * ((den * 2 ^ e.toNat : ℕ) : ℚ) := by
  have hd : (0 : ℚ) < den := by exact_mod_cast hden
  have hp : (0 : ℚ) < 2 ^ (-e).toNat := by positivity
  push_cast
  rw [div_lt_iff₀ hd, ← mul_lt_mul_iff_of_pos_right hp, ← two_zpow_mul e]
  ring_nf

/-- A quotient is rounded to a finite double exactly below the overflow. -/
theorem nearest_lt_iff {num den : ℕ} (hden : 0 < den) :
    nearest num den < infinityBits ↔ (num : ℚ) / den < overflow := by
  rcases Nat.eq_zero_or_pos num with rfl | hnum
  · simp [nearest, infinityBits, overflow_pos]
  obtain ⟨hlow, hhigh⟩ := floorLog_spec hnum hden
  rw [nearest_def, if_neg hnum.ne']
  dsimp only
  set log := floorLog num den
  set e : ℤ := max (-1074) (log - 52) with he
  have hunits := lt_mul_zpow_iff num hden e
  have hbits := roundEven_bounds (num * 2 ^ (-e).toNat) (den * 2 ^ e.toNat)
  have hD : 0 < den * 2 ^ e.toNat := by positivity
  generalize num * 2 ^ (-e).toNat = n at hunits hbits ⊢
  generalize den * 2 ^ e.toNat = d at hunits hbits hD ⊢
  rcases lt_trichotomy log 1023 with hlog | hlog | hlog
  · -- below the last power of two even a mantissa that is rounded up fits
    have hvalue : (num : ℚ) / den < 2 ^ (53 : ℤ) * 2 ^ e := by
      rw [← zpow_add₀ two_ne_zero]
      exact hhigh.trans_le (zpow_le_zpow_right₀ one_le_two (by omega))
    have hq : n / d < 2 ^ 53 := by
      rw [Nat.div_lt_iff_lt_mul hD]
      exact_mod_cast (hunits _).1 hvalue
    have hsmall : (num : ℚ) / den < overflow :=
      (hhigh.trans_le (zpow_le_zpow_right₀ one_le_two (by omega))).trans zpow_lt_overflow
    refine iff_of_true ?_ hsmall
    unfold infinityBits
    omega
  · -- here the mantissa decides
    have he' : e = 971 := by omega
    have hround := roundEven_le_iff (n := n) (k := 2 ^ 53 - 1) hD (by norm_num)
    have hhalf := hunits (2 ^ (53 : ℤ) - 1 / 2)
    rw [he', ← overflow_eq] at hhalf
    have hwhole : (n : ℚ) < (2 ^ (53 : ℤ) - 1 / 2) * d ↔ 2 * n < (2 * (2 ^ 53 - 1) + 1) * d := by
      rw [← Nat.cast_lt (α := ℚ)]
      push_cast
      norm_num
      constructor <;> intro h <;> linarith
    rw [hhalf, hwhole, ← hround, he', infinityBits]
    omega
  · -- above it the exponent alone is too large
    have hvalue : ¬ (num : ℚ) / den < 2 ^ (52 : ℤ) * 2 ^ e := by
      rw [← zpow_add₀ two_ne_zero, show 52 + e = log by omega]
      exact not_lt.2 hlow
    have hq : 2 ^ 52 ≤ n / d := by
      rw [Nat.le_div_iff_mul_le hD]
      have := mt (hunits _).2 hvalue
      exact_mod_cast not_lt.1 this
    have hlarge : overflow < (num : ℚ) / den :=
      (overflow_lt_zpow.trans_le (zpow_le_zpow_right₀ one_le_two (by omega))).trans_le hlow
    refine iff_of_false ?_ hlarge.not_gt
    unfold infinityBits
    omega

/-- A decimal is read as a finite double exactly below the overflow. -/
theorem nearestDecimal_lt_iff (d : ℕ) (j : ℤ) :
    nearestDecimal d j < infinityBits ↔ (d : ℚ) * 10 ^ j < overflow := by
  have hten : (10 : ℚ) ≠ 0 := by norm_num
  rcases Nat.eq_zero_or_pos d with rfl | hd
  · simp [nearestDecimal, infinityBits, overflow_pos]
  rw [nearestDecimal_def]
  split
  · rename_i hsmall
    have hbelow : (d : ℚ) * 10 ^ j < 2 ^ (1023 : ℤ) := calc
      (d : ℚ) * 10 ^ j < 10 ^ ((digits d).length : ℤ) * 10 ^ j := by
        gcongr
        exact_mod_cast lt_pow_length_digits d
      _ = 10 ^ ((digits d).length + j) := (zpow_add₀ hten _ _).symm
      _ ≤ 1 := zpow_le_one_of_nonpos₀ (by norm_num) (by omega)
      _ ≤ 2 ^ (1023 : ℤ) := one_le_zpow₀ one_le_two (by norm_num)
    exact iff_of_true (by decide) (hbelow.trans zpow_lt_overflow)
  split
  · rename_i hlarge
    -- ten times as much, since the digits bound a number from below only up to a factor of ten
    have habove : 10 * (10 : ℚ) ^ (320 : ℤ) ≤ 10 * (d * 10 ^ j) := calc
      10 * (10 : ℚ) ^ (320 : ℤ) = 10 ^ (321 : ℤ) := by
        rw [mul_comm, ← zpow_add_one₀ hten]
        norm_num only
      _ ≤ 10 ^ ((digits d).length + j) := zpow_le_zpow_right₀ (by norm_num) (by omega)
      _ = 10 ^ ((digits d).length : ℤ) * 10 ^ j := zpow_add₀ hten _ _
      _ ≤ 10 * d * 10 ^ j := by
        gcongr
        exact_mod_cast pow_length_digits_le hd.ne'
      _ = 10 * (d * 10 ^ j) := mul_assoc _ _ _
    have hover : overflow < d * 10 ^ j :=
      overflow_lt_ten_zpow.trans_le (le_of_mul_le_mul_left habove (by norm_num))
    exact iff_of_false (lt_irrefl _) hover.not_gt
  · have hden : (0 : ℚ) < 10 ^ (-j).toNat := by positivity
    rw [nearest_lt_iff (by positivity)]
    push_cast
    rw [← zpow_mul_toNat hten j, ← mul_assoc, mul_div_cancel_right₀ _ hden.ne']

end Bisaya.Number
