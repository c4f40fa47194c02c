import Mathlib
import Bisaya.Number.Numero
import Bisaya.Proofs.Number.Bits
import Bisaya.Proofs.Number.Nearest

namespace Bisaya

namespace Number

def IsDigits (cs : List Char) : Prop := cs ≠ [] ∧ ∀ c ∈ cs, c.isDigit

theorem isDigits_digits (n : ℕ) : IsDigits (digits n) :=
  ⟨digits_ne_nil n, fun _ h => isDigit_of_mem_digits h⟩

theorem IsDigits.cons {cs : List Char} (h : IsDigits cs) :
    ∃ d ds, cs = d :: ds ∧ d.isDigit ∧ ∀ c ∈ ds, c.isDigit := by
  obtain ⟨hne, hall⟩ := h
  obtain ⟨d, ds, rfl⟩ := List.exists_cons_of_ne_nil hne
  exact ⟨d, ds, rfl, hall d (by simp), fun c hc => hall c (by simp [hc])⟩

theorem eq_digitChar {c : Char} (h : c.isDigit) : ∃ k : Fin 10, c = digitChar k := by
  simp only [Char.isDigit, Bool.and_eq_true, decide_eq_true_eq] at h
  have h₁ : 48 ≤ c.toNat := h.1
  have h₂ : c.toNat ≤ 57 := h.2
  refine ⟨⟨c.toNat - 48, by omega⟩, ?_⟩
  rw [digitChar, Nat.add_sub_cancel' h₁, Char.ofNat_toNat]

theorem value_append (a b : List Char) : value (a ++ b) = value a * 10 ^ b.length + value b := by
  induction b using List.reverseRecOn with
  | nil => simp [value]
  | append_singleton b c ih =>
    rw [← List.append_assoc, value_append_singleton, value_append_singleton, ih,
      List.length_append, List.length_singleton, pow_succ]
    ring

theorem value_replicate_zero (k : ℕ) : value (List.replicate k '0') = 0 := by
  induction k with
  | zero => rfl
  | succ k ih => rw [List.replicate_succ', value_append_singleton, ih]; rfl

namespace Decimal

theorem nearestDecimal_of_onGrid? {bits num den : ℕ} {j : ℤ} {d : Decimal}
    (h : onGrid? bits num den j = some d) : nearestDecimal d.coefficient d.power = bits := by
  unfold onGrid? at h
  dsimp only at h
  split at h
  · rename_i hup
    rw [← Option.some.inj h]
    exact hup.1
  · split at h
    · rename_i hdown
      rw [← Option.some.inj h]
      exact hdown
    · cases h

theorem nearestDecimal_of_search {bits num den steps : ℕ} {j : ℤ} {d : Decimal}
    (h : search bits num den steps j = some d) : nearestDecimal d.coefficient d.power = bits := by
  fun_induction search bits num den steps j with
  | case1 => cases h
  | case2 j steps d' hd =>
    rw [← Option.some.inj h]
    exact nearestDecimal_of_onGrid? hd
  | case3 j steps hn ih => exact ih h

theorem le_length_of_five_pow_lt {t l : ℕ} (h : 5 ^ t < 10 ^ l) (ht : t ≤ 1074) : t ≤ l + 330 := by
  -- compared through seventh powers of five, as `2 ^ 16 < 5 ^ 7`
  by_contra hlt
  have hfive : (5 ^ 7) ^ 47 * 5 ^ l ≤ 5 ^ t := by
    rw [← pow_mul, ← pow_add]
    exact Nat.pow_le_pow_right (by decide) (by omega)
  have hten : 10 ^ l = 2 ^ l * 5 ^ l := mul_pow 2 5 l
  have htwo : (5 ^ 7) ^ 47 < 2 ^ l := by
    rw [hten] at h
    exact Nat.lt_of_mul_lt_mul_right (hfive.trans_lt h)
  have hpow : 2 ^ l ≤ (5 ^ 7) ^ 47 := by
    calc 2 ^ l ≤ 2 ^ (16 * 47) := Nat.pow_le_pow_right (by decide) (by omega)
      _ = (2 ^ 16) ^ 47 := pow_mul _ _ _
      _ ≤ (5 ^ 7) ^ 47 := Nat.pow_le_pow_left (by decide) 47
  exact absurd htwo (not_lt.2 hpow)

theorem length_le_of_pow_le {t l m : ℕ} (h : 10 ^ l ≤ 10 * (m * 5 ^ t)) (hm : m < 2 ^ 53) :
    l ≤ t + 17 := by
  by_contra hlt
  have hten : 10 ^ 18 * 10 ^ t ≤ 10 ^ l := by
    rw [← pow_add]
    exact Nat.pow_le_pow_right (by decide) (by omega)
  have hfive : 5 ^ t ≤ 10 ^ t := Nat.pow_le_pow_left (by decide) t
  have hlt' : 10 * (m * 5 ^ t) < 10 ^ 18 * 10 ^ t := by
    calc 10 * (m * 5 ^ t) = 10 * m * 5 ^ t := by ring
      _ ≤ 10 * m * 10 ^ t := Nat.mul_le_mul_left _ hfive
      _ < 10 ^ 18 * 10 ^ t := Nat.mul_lt_mul_of_pos_right (by omega) (by positivity)
  omega

/-- The full decimal expansion of a double that is not whole. -/
theorem nearestDecimal_exact {bits : ℕ} (h0 : bits ≠ 0) (hb : bits < infinityBits)
    (he : exponent bits < 0) :
    nearestDecimal (mantissa bits * 5 ^ (-exponent bits).toNat) (exponent bits) = bits := by
  obtain ⟨t, ht⟩ : ∃ t : ℕ, exponent bits = -t := ⟨(-exponent bits).toNat, by omega⟩
  have htop := exponent_ge bits
  have hm := mantissa_pos h0
  have hrat : rat bits = mantissa bits * 2 ^ (-(t : ℤ)) := by rw [rat, ht]
  rw [ht, show (-(-(t : ℤ))).toNat = t by omega] at *
  set c := mantissa bits * 5 ^ t with hc
  have hc0 : c ≠ 0 := by positivity
  have hlow := lt_pow_length_digits c
  have hhigh := pow_length_digits_le hc0
  rw [nearestDecimal_eq hc0]
  · rw [show (-(t : ℤ)).toNat = 0 by omega, show (-(-(t : ℤ))).toNat = t by omega, pow_zero,
      mul_one]
    -- `m / 2 ^ t = m * 5 ^ t / 10 ^ t`
    apply nearest_eq hb (by positivity)
    rw [hrat, hc, zpow_neg, zpow_natCast]
    push_cast
    rw [show (10 : ℚ) = 2 * 5 by norm_num, mul_pow]
    field_simp
  · have hfive : 5 ^ t ≤ c := Nat.le_mul_of_pos_left _ hm
    have := le_length_of_five_pow_lt (hfive.trans_lt hlow) (by omega)
    omega
  · have := length_le_of_pow_le hhigh (mantissa_lt bits)
    omega

theorem exact_def (m : ℕ) (e : ℤ) : exact m e = ⟨m * 2 ^ e.toNat * 5 ^ (-e).toNat, min e 0⟩ := rfl

/-- The shortest decimal of a double that is not whole has a fraction and reads back. -/
theorem shortest_spec {bits : ℕ} (hb : bits < infinityBits) (h : Tipik.whole? bits = none) :
    (shortest bits).power < 0 ∧
      nearestDecimal (shortest bits).coefficient (shortest bits).power = bits := by
  have h0 : bits ≠ 0 := by
    rintro rfl
    rw [whole?_eq_some_iff.2 rat_zero] at h
    cases h
  have he : exponent bits < 0 := by
    by_contra he
    obtain ⟨t, ht⟩ := Int.eq_ofNat_of_zero_le (not_lt.1 he)
    have hw : rat bits = (mantissa bits * 2 ^ t : ℕ) := by
      rw [rat, ht]
      push_cast
      rfl
    rw [whole?_eq_some_iff.2 hw] at h
    cases h
  -- whatever the search finds, or the full expansion, reads back; so it cannot be whole
  have hback (d : Decimal) (hd : nearestDecimal d.coefficient d.power = bits) :
      d.power < 0 ∧ nearestDecimal d.coefficient d.power = bits := by
    refine ⟨?_, hd⟩
    by_contra hp
    exact whole?_nearestDecimal (not_lt.1 hp) (hd ▸ hb) (hd ▸ h)
  apply hback
  simp only [shortest, if_neg h0]
  cases hs : search bits (scaled (mantissa bits) (exponent bits)).1
      (scaled (mantissa bits) (exponent bits)).2 20 _ with
  | some d => exact nearestDecimal_of_search hs
  | none =>
    simp only [Option.getD_none, exact_def, show (exponent bits).toNat = 0 by omega, pow_zero,
      mul_one, show min (exponent bits) 0 = exponent bits by omega]
    exact nearestDecimal_exact h0 hb he

/-- Below the point there are as many digits as the power says, above it there is at least one. -/
theorem text_eq {d : Decimal} (h : d.power < 0) :
    ∃ whole fraction, IsDigits whole ∧ IsDigits fraction ∧ d.text = whole ++ '.' :: fraction ∧
      value (whole ++ fraction) = d.coefficient ∧ (fraction.length : ℤ) = -d.power := by
  set ds := digits d.coefficient with hds
  set places := (-d.power).toNat with hplaces
  -- zeros in front, so that a digit is left above the point
  set padded := List.replicate (places + 1 - ds.length) '0' ++ ds with hpadded
  have hlength : places + 1 ≤ padded.length := by
    rw [hpadded, List.length_append, List.length_replicate]
    omega
  have hall : ∀ c ∈ padded, c.isDigit := by
    intro c hc
    rcases List.mem_append.1 hc with hc | hc
    · rw [List.eq_of_mem_replicate hc]
      rfl
    · exact isDigit_of_mem_digits hc
  have htake : padded.take (padded.length - places) ≠ [] := by
    rw [← List.length_pos_iff, List.length_take]
    omega
  have hdrop : padded.drop (padded.length - places) ≠ [] := by
    rw [← List.length_pos_iff, List.length_drop]
    omega
  refine ⟨padded.take (padded.length - places), padded.drop (padded.length - places),
    ⟨htake, fun c hc => hall c (List.mem_of_mem_take hc)⟩,
    ⟨hdrop, fun c hc => hall c (List.mem_of_mem_drop hc)⟩, ?_, ?_, ?_⟩
  · rw [text, if_neg (by omega)]
  · rw [List.take_append_drop, hpadded, value_append, value_replicate_zero, hds, value_digits]
    simp
  · rw [List.length_drop]
    omega

end Decimal

theorem readDecimal?_digits {ds : List Char} (h : IsDigits ds) :
    Tipik.readDecimal? ds = some (nearestDecimal (value ds) 0) := by
  have htake := List.takeWhile_eq_self_iff.2 h.2
  have hdrop := List.dropWhile_eq_nil_iff.2 h.2
  simp [Tipik.readDecimal?, htake, hdrop, Tipik.splitFraction, Tipik.readExponent?, h.1]

theorem readDecimal?_point {whole fraction : List Char} (hw : IsDigits whole)
    (hf : IsDigits fraction) :
    Tipik.readDecimal? (whole ++ '.' :: fraction) =
      some (nearestDecimal (value (whole ++ fraction)) (-fraction.length)) := by
  have hpoint : Char.isDigit '.' = false := rfl
  have htake : (whole ++ '.' :: fraction).takeWhile Char.isDigit = whole := by
    rw [List.takeWhile_append_of_pos hw.2, List.takeWhile_cons_of_neg (by simp [hpoint]),
      List.append_nil]
  have hdrop : (whole ++ '.' :: fraction).dropWhile Char.isDigit = '.' :: fraction := by
    rw [List.dropWhile_append_of_pos hw.2, List.dropWhile_cons_of_neg (by simp [hpoint])]
  have htake' := List.takeWhile_eq_self_iff.2 hf.2
  have hdrop' := List.dropWhile_eq_nil_iff.2 hf.2
  simp [Tipik.readDecimal?, htake, hdrop, Tipik.splitFraction, htake', hdrop',
    Tipik.readExponent?, hw.1]

/-- A text that starts with a digit is no name of an infinity. -/
theorem readMagnitude?_cons {c : Char} (h : c.isDigit) (cs : List Char) :
    Tipik.readMagnitude? (c :: cs) = Tipik.readDecimal? (c :: cs) := by
  -- the tests on the first character are decided for each of the ten digits
  have hletters : ∀ k : Fin 10, (digitChar k).toLower ≠ 'i' ∧ (digitChar k).toLower ≠ 'n' := by
    decide
  obtain ⟨k, rfl⟩ := eq_digitChar h
  obtain ⟨hi, hn⟩ := hletters k
  have hname (d : Char) (hd : (digitChar k).toLower ≠ d) (ds : List Char) :
      String.ofList ((digitChar k :: cs).map Char.toLower) ≠ String.ofList (d :: ds) := by
    intro heq
    have := String.ofList_injective heq
    rw [List.map_cons, List.cons.injEq] at this
    exact hd this.1
  unfold Tipik.readMagnitude?
  dsimp only
  rw [if_neg, if_neg]
  · exact hname 'n' hn ['a', 'n']
  · rintro (heq | heq)
    · exact hname 'i' hi ['n', 'f'] heq
    · exact hname 'i' hi ['n', 'f', 'i', 'n', 'i', 't', 'y'] heq

/-- A text that starts with a digit has no sign. -/
theorem read?_cons {c : Char} (h : c.isDigit) (cs : List Char) :
    Tipik.read? (c :: cs) = (Tipik.readDecimal? (c :: cs)).map (ofBits false) := by
  have hsigns : ∀ k : Fin 10, digitChar k ≠ '-' ∧ digitChar k ≠ '+' := by decide
  obtain ⟨k, rfl⟩ := eq_digitChar h
  unfold Tipik.read?
  split
  · rename_i heq
    exact absurd (List.cons.inj heq).1 (hsigns k).1
  · rename_i heq
    exact absurd (List.cons.inj heq).1 (hsigns k).2
  · rw [readMagnitude?_cons h]

theorem nearestDecimal_le (d : ℕ) (j : ℤ) : nearestDecimal d j ≤ infinityBits := by
  unfold nearestDecimal nearest
  dsimp only
  split
  · exact Nat.zero_le _
  · split
    · exact le_rfl
    · split
      · exact Nat.zero_le _
      · exact min_le_left _ _

theorem read?_digits {ds : List Char} (h : IsDigits ds) :
    Tipik.read? ds = some (ofBits false (nearestDecimal (value ds) 0)) := by
  obtain ⟨c, cs, rfl, hc, -⟩ := h.cons
  rw [read?_cons hc, readDecimal?_digits h, Option.map_some]

theorem read?_point {whole fraction : List Char} (hw : IsDigits whole) (hf : IsDigits fraction) :
    Tipik.read? (whole ++ '.' :: fraction) =
      some (ofBits false (nearestDecimal (value (whole ++ fraction)) (-fraction.length))) := by
  have hread := readDecimal?_point hw hf
  obtain ⟨c, cs, rfl, hc, -⟩ := hw.cons
  rw [List.cons_append] at hread ⊢
  rw [read?_cons hc, hread, Option.map_some]

end Number

open Number

namespace Tipik

/-- The written form of the finite double `bits`, without a sign. -/
def magnitudeText (bits : ℕ) : List Char :=
  match whole? bits with
  | some n => digits n ++ ['.', '0']
  | none => (Decimal.shortest bits).text

theorem source_eq {x : Tipik} (h : isFinite x) :
    x.source = signed (isNegative x) (magnitudeText (magnitudeBits x)) := by
  have hlt : magnitudeBits x < infinityBits := by simpa [isFinite] using h
  unfold source magnitudeText
  dsimp only
  rw [if_pos hlt]
  cases whole? (magnitudeBits x) with
  | some n => rfl
  | none =>
    simp only [text]
    rw [if_neg (by omega), if_neg (by omega)]

theorem two_pow_le_ten_pow (k : ℕ) : 2 ^ (13 * k) ≤ 10 ^ (4 * k) := by
  rw [pow_mul, pow_mul]
  exact Nat.pow_le_pow_left (by decide) k

theorem length_le_of_lt {n k : ℕ} (h : n < 2 ^ (13 * k)) (hn : n ≠ 0) :
    (digits (10 * n)).length ≤ 4 * k + 2 := by
  have hlt : 10 ^ (digits (10 * n)).length < 10 ^ (4 * k + 3) := by
    calc 10 ^ (digits (10 * n)).length ≤ 10 * (10 * n) := pow_length_digits_le (by omega)
      _ < 10 ^ (4 * k) * 10 ^ 3 := by
        have := h.trans_le (two_pow_le_ten_pow k)
        omega
      _ = 10 ^ (4 * k + 3) := (pow_add _ _ _).symm
  have := (Nat.pow_lt_pow_iff_right (by decide)).1 hlt
  omega

theorem nearestDecimal_whole {bits n : ℕ} (hb : bits < infinityBits) (h : rat bits = n) :
    nearestDecimal (10 * n) (-1) = bits := by
  by_cases hn : n = 0
  · have h0 : bits = 0 := by
      by_contra hne
      have hpos := rat_pos hne
      rw [h, hn] at hpos
      exact lt_irrefl _ hpos
    simp [nearestDecimal, hn, h0]
  · have hlt : n < 2 ^ (13 * 79) := by
      have hrat := rat_lt hb
      rw [h] at hrat
      exact_mod_cast hrat.trans (two_zpow_lt_iff.2 (by decide : (1024 : ℤ) < (13 * 79 : ℕ)))
    have hlen := length_le_of_lt hlt hn
    rw [nearestDecimal_eq (by omega) (by omega) (by omega)]
    apply nearest_eq hb (by norm_num)
    rw [h]
    push_cast
    norm_num

/-- A finite double is written with a point between digits, and reads back. -/
theorem magnitudeText_eq {bits : ℕ} (hb : bits < infinityBits) :
    ∃ whole fraction, IsDigits whole ∧ IsDigits fraction ∧
      magnitudeText bits = whole ++ '.' :: fraction ∧
      nearestDecimal (value (whole ++ fraction)) (-fraction.length) = bits := by
  unfold magnitudeText
  cases hw : whole? bits with
  | some n =>
    refine ⟨digits n, ['0'], isDigits_digits n, ⟨by decide, by simp⟩, rfl, ?_⟩
    rw [value_append_singleton, value_digits]
    exact nearestDecimal_whole hb (whole?_eq_some_iff.1 hw)
  | none =>
    obtain ⟨hp, hback⟩ := Decimal.shortest_spec hb hw
    obtain ⟨whole, fraction, hwhole, hfraction, htext, hvalue, hlength⟩ := Decimal.text_eq hp
    refine ⟨whole, fraction, hwhole, hfraction, htext, ?_⟩
    rw [hvalue, hlength, neg_neg, hback]

theorem read?_magnitudeText {bits : ℕ} (hb : bits < infinityBits) :
    read? (magnitudeText bits) = some (ofBits false bits) := by
  obtain ⟨whole, fraction, hw, hf, htext, hback⟩ := magnitudeText_eq hb
  rw [htext, read?_point hw hf, hback]

/-- A finite double reads back from its written form, a zero with its sign. -/
theorem read?_source {x : Tipik} (h : isFinite x) : read? x.source = some x := by
  have hb : magnitudeBits x < infinityBits := by simpa [isFinite] using h
  have hx := ofBits_magnitudeBits hb.le
  rw [source_eq h]
  cases hneg : isNegative x with
  | false =>
    rw [hneg] at hx
    exact (read?_magnitudeText hb).trans (congrArg some hx)
  | true =>
    rw [hneg] at hx
    obtain ⟨whole, fraction, hw, hf, htext, hback⟩ := magnitudeText_eq hb
    have hread := readDecimal?_point hw hf
    obtain ⟨c, cs, rfl, hc, -⟩ := hw.cons
    change (readMagnitude? (magnitudeText (magnitudeBits x))).map (ofBits true) = some x
    rw [List.cons_append] at hread htext
    rw [htext, readMagnitude?_cons hc, hread, hback, Option.map_some, hx]

end Tipik

namespace Numero

theorem text_eq (n : Numero) :
    n.text = Tipik.signed (n.toInt < 0) (digits n.toInt.natAbs) := by
  unfold text Tipik.signed
  split <;> simp_all

theorem readInt?_digits {ds : List Char} (h : IsDigits ds) : readInt? ds = some (value ds : ℤ) := by
  have hread : readNat? ds = some (value ds) := by
    rw [readNat?, if_pos ⟨h.1, List.all_eq_true.2 h.2⟩]
  have hsigns : ∀ k : Fin 10, digitChar k ≠ '-' ∧ digitChar k ≠ '+' := by decide
  obtain ⟨c, cs, rfl, hc, -⟩ := h.cons
  obtain ⟨k, rfl⟩ := eq_digitChar hc
  unfold readInt?
  split
  · rename_i heq
    exact absurd (List.cons.inj heq).1 (hsigns k).1
  · rename_i heq
    exact absurd (List.cons.inj heq).1 (hsigns k).2
  · rw [hread]
    rfl

theorem read?_digits {ds : List Char} (h : IsDigits ds) : read? ds = ofInt? (value ds) := by
  rw [read?, readInt?_digits h, Option.bind_some]

theorem read?_signed_digits (negative : Bool) {ds : List Char} (h : IsDigits ds) :
    read? (Tipik.signed negative ds) =
      ofInt? (if negative then -(value ds : ℤ) else (value ds : ℤ)) := by
  cases negative with
  | false => exact read?_digits h
  | true =>
    have hread : readNat? ds = some (value ds) := by
      rw [readNat?, if_pos ⟨h.1, List.all_eq_true.2 h.2⟩]
    have hint : readInt? ('-' :: ds) = some (-(value ds : ℤ)) := by
      simp [readInt?, hread]
    change read? ('-' :: ds) = ofInt? (-(value ds : ℤ))
    rw [read?, hint, Option.bind_some]

/-- The digits of a whole number read back, with the sign before them. -/
theorem read?_signed (n : Numero) :
    read? (Tipik.signed (n.toInt < 0) (digits n.toInt.natAbs)) = some n := by
  rw [read?_signed_digits _ (isDigits_digits _), value_digits, ofInt?_eq_some_iff]
  by_cases hn : n.toInt < 0
  · rw [if_pos (decide_eq_true hn)]
    omega
  · rw [if_neg (by simpa using hn)]
    omega

end Numero
end Bisaya
