import Mathlib
import Bisaya.Number.Double

namespace Bisaya.Number

open Float.Model.UnpackedFloat
open Float.Model (Format UnpackedFloat)

theorem toNat_append {m n : Nat} (a : BitVec m) (b : BitVec n) :
    (a ++ b).toNat = 2 ^ n * a.toNat + b.toNat := by
  rw [BitVec.toNat_append, Nat.shiftLeft_eq, Nat.mul_comm, Nat.two_pow_add_eq_or_of_lt b.isLt]

theorem toNat_packComponents (s : Sign) (e : BitVec 11) (m : BitVec 52) :
    (packComponents Format.binary64 s e m).toNat =
      s.toBitVec.toNat * 2 ^ 63 + e.toNat * 2 ^ 52 + m.toNat := by
  simp only [packComponents]
  rw [toNat_append, toNat_append]
  omega

theorem toNat_unpackMantissa (b : BitVec 64) :
    (@unpackMantissa Format.binary64 b).toNat = b.toNat % 2 ^ 52 := by
  simp [unpackMantissa]

theorem toNat_unpackExponent (b : BitVec 64) :
    (@unpackExponent Format.binary64 b).toNat = b.toNat / 2 ^ 52 % 2 ^ 11 := by
  simp [unpackExponent, Nat.shiftRight_eq_div_pow]

theorem toNat_unpackSign (b : BitVec 64) :
    (@unpackSign Format.binary64 b).toNat = b.toNat / 2 ^ 63 := by
  have := b.isLt
  simp only [unpackSign, BitVec.toNat_cast, BitVec.extractLsb_toNat, Nat.shiftRight_eq_div_pow]
  omega

def withSign (s : Sign) : UnpackedFloat → UnpackedFloat
  | .notANumber => .notANumber
  | .infinity _ => .infinity s
  | .zero _ => .zero s
  | .finite _ m e hm => .finite s m e hm

theorem pack_normal (s : Sign) (e : BitVec 11) (m : BitVec 52) (he : e.toNat ≠ 2 ^ 11 - 1)
    (h : 0 < (1#1 ++ m).toNat) :
    pack Format.binary64 (.finite s (1#1 ++ m).toNat ((e.toNat : Int) - 1075) h) =
      packComponents Format.binary64 s e m := by
  have hm := m.isLt
  have hm' : (1#1 ++ m).toNat = 2 ^ 52 + m.toNat := by rw [toNat_append]; rfl
  have hlog : (1#1 ++ m).toNat.log2 = 52 := by
    rw [hm', Nat.log2_eq_iff (by omega)]
    omega
  have hbias : ((e.toNat : Int) - 1075 + (Format.binary64.exponentBias : Int) +
      ((52 : Nat) : Int)).toNat = e.toNat := by
    simp only [Format.exponentBias]
    omega
  have hlt := e.isLt
  simp only [pack, hlog]
  rw [hbias, if_neg (by omega), if_pos (by decide)]
  congr 1
  · exact BitVec.ofNat_toNat _ _ |>.trans (by simp)
  · apply BitVec.eq_of_toNat_eq
    rw [BitVec.toNat_ofNat, hm']
    omega

theorem pack_subnormal (s : Sign) (m : BitVec 52) (h : 0 < m.toNat) :
    pack Format.binary64 (.finite s m.toNat (-1074) h) =
      packComponents Format.binary64 s 0 m := by
  have hm := m.isLt
  have hlog : m.toNat.log2 < 52 := (Nat.log2_lt (by omega)).2 hm
  have hbias : ((-1074 : Int) + (Format.binary64.exponentBias : Int) + ((52 : Nat) : Int)).toNat =
      1 := by decide
  simp only [pack]
  rw [hbias, if_neg (by decide), if_neg (by simp only [Format.mantissaBits]; omega)]
  simp

/-- Bits that are no pattern of "not a number" keep their exponent and mantissa under any sign. -/
theorem pack_withSign_unpack (s : Sign) (b : BitVec 64) (hb : b.toNat % 2 ^ 63 ≤ infinityBits) :
    pack Format.binary64 (withSign s (unpack Format.binary64 b)) =
      packComponents Format.binary64 s (unpackExponent b) (unpackMantissa b) := by
  have hm := toNat_unpackMantissa b
  have he := toNat_unpackExponent b
  unfold infinityBits at hb
  generalize hM : @unpackMantissa Format.binary64 b = M at hm
  generalize hE : @unpackExponent Format.binary64 b = E at he
  have hall : (-1#11).toNat = 2 ^ 11 - 1 := by decide
  unfold unpack
  simp only [hM, hE]
  by_cases h1 : E = -1#11
  · -- a mantissa other than zero would be "not a number"
    have hE' : E.toNat = 2 ^ 11 - 1 := h1 ▸ hall
    have hM0 : M = 0#52 := by
      apply BitVec.eq_of_toNat_eq
      change M.toNat = 0
      omega
    rw [if_pos h1, if_pos hM0, h1, hM0]
    rfl
  · have hE1 : E.toNat ≠ 2 ^ 11 - 1 := fun h => h1 (BitVec.eq_of_toNat_eq (h.trans hall.symm))
    rw [if_neg h1]
    by_cases h0 : E = 0#11
    · rw [if_pos h0]
      by_cases hM0 : M = 0#52
      · rw [dif_pos hM0, h0, hM0]
        rfl
      · rw [dif_neg hM0, h0]
        exact pack_subnormal s M _
    · rw [if_neg h0]
      exact pack_normal s E M hE1 _

theorem withSign_unpack (b : BitVec 64) :
    withSign (Sign.ofBitVec (@unpackSign Format.binary64 b)) (unpack Format.binary64 b) =
      unpack Format.binary64 b := by
  simp only [unpack]
  split
  · split <;> rfl
  · split
    · split <;> rfl
    · rfl

theorem neg_withSign (s : Sign) (x : UnpackedFloat) : (withSign s x).neg = withSign (-s) x := by
  cases x <;> rfl

theorem neg_unpack (b : BitVec 64) :
    (unpack Format.binary64 b).neg =
      withSign (-Sign.ofBitVec (@unpackSign Format.binary64 b)) (unpack Format.binary64 b) := by
  rw [← neg_withSign, withSign_unpack]

theorem toNat_sign (v : BitVec 1) : (Sign.ofBitVec v).toBitVec.toNat = v.toNat := by
  revert v
  decide

theorem toNat_neg_sign (v : BitVec 1) : (-Sign.ofBitVec v).toBitVec.toNat = 1 - v.toNat := by
  revert v
  decide

theorem toBits_ofBits {a : UInt64} (h : a.toNat % 2 ^ 63 ≤ infinityBits) :
    (Float.ofBits a).toBits = a := by
  have hp := pack_withSign_unpack (Sign.ofBitVec (@unpackSign Format.binary64 a.toBitVec)) _ h
  rw [withSign_unpack] at hp
  have hpack : (Float.ofBits a).toBits =
      ⟨pack Format.binary64 (unpack Format.binary64 a.toBitVec)⟩ := rfl
  apply UInt64.toNat_inj.1
  rw [hpack, hp]
  change BitVec.toNat _ = a.toBitVec.toNat
  rw [toNat_packComponents, toNat_sign, toNat_unpackSign, toNat_unpackExponent,
    toNat_unpackMantissa]
  omega

/-- Negation turns the sign bit over and nothing else. -/
theorem toNat_toBits_neg {x : Float} (h : magnitudeBits x ≤ infinityBits) :
    (-x).toBits.toNat = magnitudeBits x + if isNegative x then 0 else 2 ^ 63 := by
  have hp := pack_withSign_unpack (-Sign.ofBitVec (@unpackSign Format.binary64 x.toBits.toBitVec))
    x.toBits.toBitVec h
  rw [← neg_unpack] at hp
  have hpack : (-x).toBits =
      ⟨pack Format.binary64 (unpack Format.binary64 x.toBits.toBitVec).neg⟩ := rfl
  have hlt := x.toBits.toBitVec.isLt
  rw [hpack, hp]
  change BitVec.toNat _ = _
  rw [toNat_packComponents, toNat_neg_sign, toNat_unpackSign, toNat_unpackExponent,
    toNat_unpackMantissa]
  simp only [magnitudeBits, isNegative, decide_eq_true_eq]
  change _ = x.toBits.toBitVec.toNat % 2 ^ 63 + if 2 ^ 63 ≤ x.toBits.toBitVec.toNat then _ else _
  split <;> omega

theorem ofBits_def (negative : Bool) (bits : Nat) : ofBits negative bits =
    Float.ofBits (UInt64.ofNat (bits + if negative then 2 ^ 63 else 0)) := by
  norm_num [ofBits]

theorem toNat_ofBits {negative : Bool} {bits : Nat} (h : bits ≤ infinityBits) :
    (ofBits negative bits).toBits.toNat = bits + if negative then 2 ^ 63 else 0 := by
  unfold infinityBits at h
  have hlt : bits + (if negative then 2 ^ 63 else 0) < 2 ^ 64 := by split <;> omega
  have ha : (UInt64.ofNat (bits + if negative then 2 ^ 63 else 0)).toNat =
      bits + if negative then 2 ^ 63 else 0 := UInt64.toNat_ofNat_of_lt' hlt
  rw [ofBits_def, toBits_ofBits, ha]
  rw [ha, infinityBits]
  split <;> omega

theorem magnitudeBits_ofBits {negative : Bool} {bits : Nat} (h : bits ≤ infinityBits) :
    magnitudeBits (ofBits negative bits) = bits := by
  rw [magnitudeBits, toNat_ofBits h]
  unfold infinityBits at h
  split <;> omega

theorem isNegative_ofBits {negative : Bool} {bits : Nat} (h : bits ≤ infinityBits) :
    isNegative (ofBits negative bits) = negative := by
  rw [isNegative, toNat_ofBits h]
  unfold infinityBits at h
  cases negative with
  | false => simpa using by omega
  | true => simp

theorem toBits_injective {x y : Float} (h : x.toBits.toNat = y.toBits.toNat) : x = y := by
  obtain ⟨⟨a, ha⟩⟩ := x
  obtain ⟨⟨b, hb⟩⟩ := y
  have hab : a = b := UInt64.toNat_inj.1 h
  subst hab
  rfl

theorem ofBits_magnitudeBits {x : Float} (h : magnitudeBits x ≤ infinityBits) :
    ofBits (isNegative x) (magnitudeBits x) = x := by
  apply toBits_injective
  rw [toNat_ofBits h]
  have hlt := x.toBits.toNat_lt
  simp only [isNegative, magnitudeBits, decide_eq_true_eq]
  split <;> omega

theorem neg_ofBits_false {bits : Nat} (h : bits ≤ infinityBits) :
    -(ofBits false bits) = ofBits true bits := by
  apply toBits_injective
  rw [toNat_toBits_neg (by rw [magnitudeBits_ofBits h]; exact h), magnitudeBits_ofBits h,
    isNegative_ofBits h, toNat_ofBits h]
  rfl

end Bisaya.Number
