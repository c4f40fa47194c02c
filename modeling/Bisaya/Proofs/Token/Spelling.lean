import Bisaya.Proofs.Number.Notation
import Bisaya.Token.Piece

namespace Bisaya

open Number Piece

def IsWord (cs : List Char) : Prop :=
  ∃ c rest, cs = c :: rest ∧ startsWord c ∧ ∀ x ∈ rest, inWord x

/-- A word that is no keyword. -/
structure IsName (s : String) : Prop where
  word : IsWord s.toList
  free : Keyword.ofText? s = none

/-- Quotes of at most one form stand in the text, so that the other form can go around it. -/
def OneQuote (s : String) : Prop := '"' ∉ s.toList ∨ '\'' ∉ s.toList

def IsFraction (cs : List Char) : Prop :=
  ∃ whole fraction, IsDigits whole ∧ IsDigits fraction ∧ cs = whole ++ '.' :: fraction

/-- The form of the literal of a token. -/
def Kind.Spells (s : String) : Kind → Prop
  | .eof => s = "EOF"
  | .illegal => True
  | .ident => IsName s
  | .int => IsDigits s.toList
  | .float => IsFraction s.toList
  | .string => OneQuote s
  | .escape => ∃ c, s = String.singleton c
  | .mark m => s = m.text
  | .keyword k => s = k.text

def Token.Spelled (t : Token) : Prop := t.kind.Spells t.literal

namespace Piece

def Spelled : Piece → Prop
  | lexeme kind text => kind.Spells (literal kind text)
  | _ => True

theorem word_spelled {cs : List Char} (h : IsWord cs) : (word cs).Spelled := by
  unfold word
  split
  · rename_i k hk
    exact (Keyword.text_of_ofText? hk).symm
  · rename_i hk
    exact ⟨by simpa [literal] using h, hk⟩

theorem isDigits_takeWhile {d : Char} (hd : d.isDigit) (cs : List Char) :
    IsDigits (d :: cs.takeWhile Char.isDigit) := by
  refine ⟨List.cons_ne_nil _ _, fun c hc => ?_⟩
  rcases List.mem_cons.1 hc with rfl | hc
  · exact hd
  · exact List.mem_takeWhile_imp hc

theorem number_spelled {d : Char} (hd : d.isDigit) (cs : List Char) :
    (number d cs).1.Spelled := by
  have hint : (lexeme .int (d :: cs.takeWhile Char.isDigit)).Spelled := by
    simpa [Spelled, Kind.Spells, literal] using isDigits_takeWhile hd cs
  unfold number
  dsimp only
  split
  · rename_i e rest _
    split
    · rename_i he
      refine ⟨d :: cs.takeWhile Char.isDigit, e :: rest.takeWhile Char.isDigit,
        isDigits_takeWhile hd cs, isDigits_takeWhile he rest, ?_⟩
      simp [literal]
    · exact hint
  · exact hint

theorem quoted_spelled {q : Char} (hq : q = '\'' ∨ q = '"') (cs : List Char) :
    (quoted q cs).1.Spelled := by
  unfold quoted
  split
  · trivial
  · have hfree : q ∉ cs.takeWhile (· ≠ q) := by
      intro hmem
      simpa using List.mem_takeWhile_imp hmem
    have hliteral : q ∉ (literal .string (q :: cs.takeWhile (· ≠ q) ++ [q])).toList := by
      simpa [literal] using hfree
    rcases hq with rfl | rfl
    · exact Or.inr hliteral
    · exact Or.inl hliteral

theorem symbol_spelled (c : Char) (cs : List Char) : (symbol c cs).1.Spelled := by
  unfold symbol
  split
  · simp [Spelled, Kind.Spells, literal]
  · trivial

theorem first_spelled (w : Bool) (c : Char) (cs : List Char) : (first w c cs).1.Spelled := by
  unfold first
  split
  · trivial
  split
  · trivial
  split
  · rename_i hq
    exact quoted_spelled (by simpa using hq) cs
  split
  · rename_i hc
    exact word_spelled ⟨c, _, rfl, hc, fun x hx => List.mem_takeWhile_imp hx⟩
  split
  · rename_i hd
    exact number_spelled hd cs
  split
  · exact ⟨_, rfl⟩
  · exact symbol_spelled _ _

theorem cut_spelled (w : Bool) (cs : List Char) : ∀ piece ∈ cut w cs, piece.Spelled := by
  fun_induction cut w cs with
  | case1 => simp
  | case2 w c cs piece ih =>
    intro p hp
    rcases List.mem_cons.1 hp with rfl | hp
    · exact first_spelled w c cs
    · exact ih p hp

theorem tokens_spelled {ps : List Piece} (h : ∀ piece ∈ ps, piece.Spelled) (p : Position) :
    ∀ t ∈ tokens p ps, t.Spelled := by
  fun_induction tokens p ps with
  | case1 p =>
    intro t ht
    rw [List.mem_singleton.1 ht]
    rfl
  | case2 p kind text rest ih =>
    intro t ht
    rcases List.mem_cons.1 ht with rfl | ht
    · exact h (lexeme kind text) (by simp)
    · exact ih (fun q hq => h q (by simp [hq])) t ht
  | case3 p piece rest _ ih => exact ih fun q hq => h q (by simp [hq])

end Piece

theorem tokenize_spelled (source : String) : ∀ t ∈ tokenize source, t.Spelled :=
  tokens_spelled (cut_spelled false source.toList) .start

end Bisaya
