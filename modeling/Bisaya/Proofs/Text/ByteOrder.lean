import Mathlib

namespace Bisaya.Text

def bytes (s : String) : List UInt8 := s.toUTF8.data.toList

theorem bytes_eq_flatMap (s : String) : bytes s = s.toList.flatMap String.utf8EncodeChar := by
  have h : s.toUTF8 = s.toList.utf8Encode := by
    rw [String.toUTF8, ← String.toByteArray_ofList, String.ofList_toList]
  rw [bytes, h, List.utf8Encode, List.data_toByteArray]

/-- The number of bytes behind the first one in the form of the code point `v`. -/
def width (v : ℕ) : ℕ := if v ≤ 127 then 0 else if v ≤ 2047 then 1 else if v ≤ 65535 then 2 else 3

/-- The first byte, which tells the width and begins the digits of `v` in base 64. -/
def lead (v : ℕ) : ℕ :=
  if v ≤ 127 then v
  else if v ≤ 2047 then v / 64 + 192
  else if v ≤ 65535 then v / 4096 + 224
  else v / 262144 + 240

/-- The bytes behind the first one: the last `k` digits of `v` in base 64. -/
def trail : ℕ → ℕ → List UInt8
  | 0, _ => []
  | k + 1, v => .ofNat (v / 64 ^ k % 64 + 128) :: trail k v

theorem codePoint_lt (c : Char) : c.val.toNat < 0x110000 := by
  rcases c.valid with h | ⟨-, h⟩
  · exact h.trans (by decide)
  · exact h

theorem utf8EncodeChar_eq (c : Char) : String.utf8EncodeChar c =
    .ofNat (lead c.val.toNat) :: trail (width c.val.toNat) c.val.toNat := by
  have hlt := codePoint_lt c
  simp only [String.utf8EncodeChar, lead, width]
  generalize c.val.toNat = v at hlt
  split_ifs
  · rfl
  · rw [Nat.mod_eq_of_lt (a := v / 64) (by omega)]
    simp [trail]
  · rw [Nat.mod_eq_of_lt (a := v / 4096) (by omega)]
    simp [trail]
  · rw [Nat.mod_eq_of_lt (a := v / 262144) (by omega)]
    simp [trail]

/-- The first bytes are in order, and are equal only if all but the trailing digits are. -/
theorem lead_cases {v w : ℕ} (h : v < w) (hw : w < 0x110000) : lead v < lead w ∨
    lead v = lead w ∧ width v = width w ∧ v / 64 ^ width v = w / 64 ^ width v := by
  unfold lead width
  split_ifs <;> norm_num <;> omega

theorem lead_lt {v : ℕ} (h : v < 0x110000) : lead v < 256 := by
  unfold lead
  split_ifs <;> omega

theorem ofNat_lt_ofNat {a b : ℕ} (h : a < b) (hb : b < 256) : UInt8.ofNat a < UInt8.ofNat b := by
  rw [UInt8.lt_iff_toNat_lt, UInt8.toNat_ofNat', UInt8.toNat_ofNat']
  omega

theorem trail_append_lt {k v w : ℕ} (h : v < w) (hsame : v / 64 ^ k = w / 64 ^ k)
    (t t' : List UInt8) : trail k v ++ t < trail k w ++ t' := by
  induction k with
  | zero =>
    simp only [pow_zero, Nat.div_one] at hsame
    omega
  | succ k ih =>
    rw [trail, trail, List.cons_append, List.cons_append, List.cons_lt_cons_iff]
    rw [pow_succ, ← Nat.div_div_eq_div_mul, ← Nat.div_div_eq_div_mul] at hsame
    rcases (Nat.div_le_div_right (c := 64 ^ k) h.le).lt_or_eq with hlt | heq
    · exact .inl (ofNat_lt_ofNat (by omega) (by omega))
    · exact .inr ⟨by rw [heq], ih heq⟩

/-- No form of a character begins that of another, so that what follows them makes no difference. -/
theorem utf8EncodeChar_append_lt {c d : Char} (h : c < d) (t t' : List UInt8) :
    String.utf8EncodeChar c ++ t < String.utf8EncodeChar d ++ t' := by
  have hlt : c.val.toNat < d.val.toNat := h
  have hd := codePoint_lt d
  rw [utf8EncodeChar_eq, utf8EncodeChar_eq, List.cons_append, List.cons_append,
    List.cons_lt_cons_iff]
  rcases lead_cases hlt hd with hlead | ⟨hlead, hwidth, hsame⟩
  · exact .inl (ofNat_lt_ofNat hlead (lead_lt hd))
  · rw [hlead, ← hwidth]
    exact .inr ⟨rfl, trail_append_lt hlt hsame t t'⟩

theorem flatMap_utf8EncodeChar_lt {cs ds : List Char} (h : cs < ds) :
    cs.flatMap String.utf8EncodeChar < ds.flatMap String.utf8EncodeChar := by
  induction cs generalizing ds with
  | nil =>
    cases ds with
    | nil => exact absurd h (lt_irrefl _)
    | cons d ds =>
      rw [List.flatMap_cons, utf8EncodeChar_eq]
      exact List.nil_lt_cons _ _
  | cons c cs ih =>
    cases ds with
    | nil => exact absurd h (List.not_lt_nil _)
    | cons d ds =>
      rw [List.flatMap_cons, List.flatMap_cons]
      rcases List.cons_lt_cons_iff.1 h with hlt | ⟨rfl, hlt⟩
      · exact utf8EncodeChar_append_lt hlt _ _
      · exact List.append_left_lt (ih hlt)

/-- Texts are ordered by code points just as their UTF-8 forms are by bytes. -/
theorem bytes_lt_bytes_iff (s t : String) : bytes s < bytes t ↔ s < t := by
  have hforth {s t : String} (h : s < t) : bytes s < bytes t := by
    rw [bytes_eq_flatMap, bytes_eq_flatMap]
    exact flatMap_utf8EncodeChar_lt (String.lt_iff_toList_lt.1 h)
  refine ⟨fun h => ?_, hforth⟩
  rcases lt_trichotomy s t with hlt | rfl | hgt
  · exact hlt
  · exact absurd h (List.lt_irrefl _)
  · exact absurd h (List.lt_asymm (hforth hgt))

end Bisaya.Text
