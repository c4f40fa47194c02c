import Bisaya.Proofs.Token.Lines

namespace Bisaya

open Piece Text

/-- A place in a text with the character there. Behind the end there are zero characters. -/
structure Scanner where
  input : List Char
  position : ℕ
  readPosition : ℕ
  ch : Char
  line : ℕ
  column : ℕ
  readPosition_eq : readPosition = position + 1
  ch_eq : ch = input[position]?.getD '\x00'

namespace Scanner

def start (input : List Char) : Scanner where
  input := input
  position := 0
  readPosition := 1
  ch := input[0]?.getD '\x00'
  line := 1
  column := 1
  readPosition_eq := rfl
  ch_eq := rfl

def peek (s : Scanner) (n : ℕ) : Char := s.input[s.readPosition + n]?.getD '\x00'

def readChar (s : Scanner) : Scanner where
  input := s.input
  position := s.readPosition
  readPosition := s.readPosition + 1
  ch := s.peek 0
  line := if s.ch = '\n' then s.line + 1 else s.line
  column := if s.ch = '\n' then 1 else s.column + 1
  readPosition_eq := rfl
  ch_eq := rfl

def atEnd (s : Scanner) : Bool := s.input.length ≤ s.position

def place (s : Scanner) : Position := ⟨s.line, s.column⟩

def slice (s : Scanner) (start : ℕ) : String :=
  String.ofList ((s.input.drop start).take (s.position - start))

def followsWord (s : Scanner) : Bool := 0 < s.position && s.input[s.position - 1]?.any inWord

def rest (s : Scanner) : List Char := s.input.drop s.position

section

variable {s : Scanner} {c : Char} {cs : List Char}

theorem atEnd_iff : s.atEnd = true ↔ s.rest = [] := by
  simp only [atEnd, rest, decide_eq_true_eq, List.drop_eq_nil_iff]

theorem getElem?_rest (s : Scanner) (n : ℕ) : s.rest[n]? = s.input[s.position + n]? :=
  List.getElem?_drop

theorem ch_of_rest (h : s.rest = c :: cs) : s.ch = c := by
  have hc : s.rest[0]? = some c := by rw [h, List.getElem?_cons_zero]
  rw [getElem?_rest, Nat.add_zero] at hc
  rw [s.ch_eq, hc, Option.getD_some]

theorem peek_of_rest (h : s.rest = c :: cs) (n : ℕ) : s.peek n = cs[n]?.getD '\x00' := by
  have hn := getElem?_rest s (n + 1)
  rw [h, List.getElem?_cons_succ] at hn
  rw [peek, s.readPosition_eq, hn, Nat.add_right_comm, Nat.add_assoc]

theorem rest_readChar (h : s.rest = c :: cs) : s.readChar.rest = cs := by
  have hdrop : s.readChar.rest = s.rest.drop 1 := by
    rw [rest, rest, List.drop_drop]
    exact congrArg s.input.drop s.readPosition_eq
  rw [hdrop, h, List.drop_one, List.tail_cons]

theorem rest_of_not_atEnd (h : ¬ s.atEnd = true) : s.rest = s.ch :: s.readChar.rest := by
  obtain ⟨c, cs, hcs⟩ := List.exists_cons_of_ne_nil (mt atEnd_iff.2 h)
  rw [rest_readChar hcs, ch_of_rest hcs, hcs]

/-- A character other than zero is one of the text. -/
theorem rest_of_ch (h : s.ch ≠ '\x00') : s.rest = s.ch :: s.readChar.rest := by
  apply rest_of_not_atEnd
  intro hend
  rw [atEnd, decide_eq_true_eq] at hend
  rw [s.ch_eq, List.getElem?_eq_none hend] at h
  exact h rfl

end

/-- From `s` the text is read and the scanner is then `s'`. -/
structure Reads (s : Scanner) (text : List Char) (s' : Scanner) : Prop where
  input : s'.input = s.input
  position : s'.position = s.position + text.length
  rest : s.rest = text ++ s'.rest
  place : s'.place = s.place.after text

namespace Reads

variable {s s' s'' : Scanner} {text text' : List Char}

theorem refl (s : Scanner) : s.Reads [] s := ⟨rfl, rfl, rfl, rfl⟩

theorem trans (h : s.Reads text s') (h' : s'.Reads text' s'') : s.Reads (text ++ text') s'' where
  input := h'.input.trans h.input
  position := by rw [h'.position, h.position, List.length_append, Nat.add_assoc]
  rest := by rw [h.rest, h'.rest, List.append_assoc]
  place := by rw [h'.place, h.place, Position.after_append]

theorem readChar {c : Char} {cs : List Char} (h : s.rest = c :: cs) :
    s.Reads [c] s.readChar where
  input := rfl
  position := s.readPosition_eq
  rest := by rw [rest_readChar h, h, List.singleton_append]
  place := by
    change Position.mk (if s.ch = '\n' then _ else _) (if s.ch = '\n' then _ else _) =
      s.place.next c
    rw [ch_of_rest h, Position.next]
    split <;> rfl

theorem cons {c : Char} {cs : List Char} (h : s.rest = c :: cs)
    (h' : s.readChar.Reads text s') : s.Reads (c :: text) s' :=
  (readChar h).trans h'

theorem rest_eq {more : List Char} (h : s.Reads text s') (hrest : s.rest = text ++ more) :
    s'.rest = more :=
  List.append_cancel_left (h.rest.symm.trans hrest)

theorem slice_eq (h : s.Reads text s') : s'.slice s.position = String.ofList text := by
  have hdrop : s'.input.drop s.position = text ++ s'.rest := by
    rw [h.input, ← h.rest, Scanner.rest]
  rw [slice, hdrop, h.position, Nat.add_sub_cancel_left, List.take_left]

/-- Whether a word stands before the scanner is told by the last character that was read. -/
theorem followsWord_eq (h : s.Reads text s') (hne : text ≠ []) :
    s'.followsWord = text.getLast?.any inWord := by
  obtain ⟨init, c, rfl⟩ : ∃ init c, text = init ++ [c] :=
    ⟨text.dropLast, text.getLast hne, (List.dropLast_append_getLast hne).symm⟩
  have hposition : s'.position = s.position + init.length + 1 := by
    rw [h.position, List.length_append, List.length_singleton, Nat.add_assoc]
  have hlast : s'.input[s.position + init.length]? = some c := by
    rw [h.input, ← getElem?_rest, h.rest, List.append_assoc, List.getElem?_append_right le_rfl,
      Nat.sub_self, List.singleton_append, List.getElem?_cons_zero]
  rw [followsWord, hposition, Nat.add_sub_cancel, hlast, List.getLast?_concat]
  simp

end Reads

def advanceWhile (p : Char → Bool) (s : Scanner) : Scanner :=
  if s.atEnd then s else if p s.ch then s.readChar.advanceWhile p else s
termination_by s.input.length - s.position
decreasing_by
  rename_i hend _
  have hposition : s.readChar.position = s.position + 1 := s.readPosition_eq
  rw [atEnd, decide_eq_true_eq] at hend
  rw [hposition]
  change s.input.length - (s.position + 1) < _
  omega

theorem advanceWhile_reads (p : Char → Bool) (s : Scanner) :
    s.Reads (s.rest.takeWhile p) (s.advanceWhile p) := by
  fun_induction advanceWhile p s with
  | case1 s hend =>
    rw [atEnd_iff.1 hend]
    exact .refl s
  | case2 s hend hp ih =>
    have hrest := rest_of_not_atEnd hend
    have hcons := Reads.cons hrest ih
    rwa [← List.takeWhile_cons_of_pos hp, ← hrest] at hcons
  | case3 s hend hp =>
    rw [rest_of_not_atEnd hend, List.takeWhile_cons_of_neg hp]
    exact .refl s

theorem rest_advanceWhile (p : Char → Bool) (s : Scanner) :
    (s.advanceWhile p).rest = s.rest.dropWhile p :=
  (advanceWhile_reads p s).rest_eq List.takeWhile_append_dropWhile.symm

/-- The number of the first character behind the next one, from the `n`th on, that is no space and
no tab. -/
def gapEnd (s : Scanner) (n : ℕ) : ℕ :=
  if s.peek n = ' ' ∨ s.peek n = '\t' then s.gapEnd (n + 1) else n
termination_by s.input.length - (s.readPosition + n)
decreasing_by
  rename_i hgap
  have hlt : s.readPosition + n < s.input.length := by
    by_contra hle
    rw [peek, List.getElem?_eq_none (Nat.le_of_not_lt hle), Option.getD_none] at hgap
    exact absurd hgap (by decide)
  omega

def atDecrement (s : Scanner) : Bool :=
  s.followsWord &&
    match s.peek (s.gapEnd 1) with
    | '\x00' | '\n' | '\r' | ')' | '\x7d' | ',' => true
    | '-' => s.peek (s.gapEnd 1 + 1) = '-'
    | _ => false

theorem drop_gapEnd {s : Scanner} {c : Char} {cs : List Char} (h : s.rest = c :: cs) (n : ℕ) :
    cs.drop (s.gapEnd n) = (cs.drop n).dropWhile fun c => c = ' ' || c = '\t' := by
  fun_induction gapEnd s n with
  | case1 n hgap ih =>
    rw [peek_of_rest h] at hgap
    have hlt : n < cs.length := by
      by_contra hle
      rw [List.getElem?_eq_none (Nat.le_of_not_lt hle)] at hgap
      exact absurd hgap (by decide)
    rw [List.getElem?_eq_getElem hlt, Option.getD_some] at hgap
    rw [ih, List.drop_eq_getElem_cons hlt, List.dropWhile_cons_of_pos (by simpa using hgap)]
  | case2 n hgap =>
    rw [peek_of_rest h] at hgap
    cases hdrop : cs.drop n with
    | nil => rfl
    | cons d ds =>
      have hd : cs[n]? = some d := by
        rw [← Nat.add_zero n, ← List.getElem?_drop, hdrop, List.getElem?_cons_zero]
      rw [hd, Option.getD_some] at hgap
      rw [List.dropWhile_cons_of_neg (by simpa using hgap)]

theorem atDecrement_eq {s : Scanner} {cs : List Char} (h : s.rest = '-' :: '-' :: cs) :
    s.atDecrement = (s.followsWord && endsDecrement cs) := by
  have hdrop := drop_gapEnd h 1
  rw [List.drop_one, List.tail_cons] at hdrop
  have hpeek (n : ℕ) : s.peek (s.gapEnd 1 + n) =
      (cs.dropWhile fun c => c = ' ' || c = '\t')[n]?.getD '\x00' := by
    rw [peek_of_rest h, ← List.getElem?_drop, hdrop]
  have hzero := hpeek 0
  rw [Nat.add_zero] at hzero
  rw [atDecrement, hzero, hpeek 1, endsDecrement]
  congr 1
  generalize (cs.dropWhile fun c => c = ' ' || c = '\t') = ds
  cases ds with
  | nil => rfl
  | cons d ds =>
    rw [List.getElem?_cons_zero, Option.getD_some, List.getElem?_cons_succ]
    split
    any_goals rfl
    · -- only behind a dash does the next character count
      cases ds with
      | nil => rfl
      | cons e es =>
        by_cases he : e = '-'
        · rw [he]
          rfl
        · simp [he]
    · rename_i hdash
      split
      · contradiction
      · rename_i heq
        exact absurd (List.cons.inj heq).1 hdash
      · rename_i heq
        rw [← (List.cons.inj heq).1]
        simp only [Bool.false_eq, Bool.or_eq_false_iff, decide_eq_false_iff_not]
        tauto

def atComment (s : Scanner) : Bool := s.ch = '-' && s.peek 0 = '-' && !s.atDecrement

theorem atComment_eq {s : Scanner} {c : Char} {cs : List Char} (h : s.rest = c :: cs) :
    s.atComment = opensComment s.followsWord (c :: cs) := by
  have hch := ch_of_rest h
  have hpeek := peek_of_rest h 0
  unfold opensComment
  split
  · rename_i ds heq
    rw [heq] at h
    rw [(List.cons.inj heq).1] at hch
    rw [(List.cons.inj heq).2] at hpeek
    simp [atComment, hch, hpeek, atDecrement_eq h]
  · rename_i hne
    rw [atComment, hch, hpeek, Bool.and_assoc, Bool.and_eq_false_iff, Bool.and_eq_false_iff]
    by_cases hc : c = '-'
    · refine .inr (.inl ?_)
      cases cs with
      | nil => rfl
      | cons d ds =>
        rw [List.getElem?_cons_zero, Option.getD_some, decide_eq_false_iff_not]
        intro hd
        exact hne ds (by rw [hc, hd])
    · exact .inl (decide_eq_false hc)

theorem rest_of_atComment {s : Scanner} (h : s.atComment) :
    s.rest = '-' :: s.readChar.rest := by
  simp only [atComment, Bool.and_eq_true, decide_eq_true_eq] at h
  rw [← h.1.1]
  apply rest_of_ch
  rw [h.1.1]
  decide

def skip (s : Scanner) : Scanner :=
  if (s.advanceWhile isBlank).atComment then
    ((s.advanceWhile isBlank).advanceWhile (· ≠ '\n')).skip
  else s.advanceWhile isBlank
termination_by s.rest.length
decreasing_by
  rename_i h
  have hcomment := rest_of_atComment h
  have hblanks := congrArg List.length (advanceWhile_reads isBlank s).rest
  rw [rest_advanceWhile _ (s.advanceWhile isBlank)]
  rw [List.length_append, hcomment, List.length_cons] at hblanks
  rw [hcomment, List.dropWhile_cons_of_pos (by decide)]
  have hle := (List.dropWhile_sublist (fun c => decide (c ≠ '\n'))
    (l := (s.advanceWhile isBlank).readChar.rest)).length_le
  omega

section

variable {s s' : Scanner}

theorem Reads.cut_eq {piece : Piece} {c : Char} {cs : List Char} (h : s.Reads piece.text s')
    (hrest : s.rest = c :: cs) (hfirst : first s.followsWord c cs = (piece, s'.rest)) :
    cut s.followsWord s.rest = piece :: cut s'.followsWord s'.rest := by
  have hne : piece.text ≠ [] := by
    have hne := first_text_ne_nil s.followsWord c cs
    rwa [hfirst] at hne
  rw [hrest, cut_of_first hfirst, h.followsWord_eq hne, endsWord]

/-- The tokens of what is still to be read. -/
def pending (s : Scanner) : List Token := tokens s.place (cut s.followsWord s.rest)

theorem Reads.pending_eq {piece : Piece} {c : Char} {cs : List Char} (h : s.Reads piece.text s')
    (hrest : s.rest = c :: cs) (hfirst : first s.followsWord c cs = (piece, s'.rest))
    (hpiece : ∀ kind text, piece ≠ lexeme kind text) : s.pending = s'.pending := by
  rw [pending, pending, h.cut_eq hrest hfirst, h.place, tokens]
  exact hpiece

theorem pending_readChar (hend : ¬ s.atEnd = true) (h : isBlank s.ch) :
    s.pending = s.readChar.pending := by
  have hrest := rest_of_not_atEnd hend
  have hread : s.Reads (blank s.ch).text s.readChar := .readChar hrest
  apply hread.pending_eq hrest
  · unfold first
    rw [if_pos h]
  · exact fun _ _ => Piece.noConfusion

theorem pending_blanks (s : Scanner) : s.pending = (s.advanceWhile isBlank).pending := by
  fun_induction advanceWhile isBlank s with
  | case1 s hend => rfl
  | case2 s hend hp ih => rw [pending_readChar hend hp, ih]
  | case3 s hend hp => rfl

theorem pending_comment (h : s.atComment) :
    s.pending = (s.advanceWhile (· ≠ '\n')).pending := by
  have hrest := rest_of_atComment h
  have hopens := atComment_eq hrest
  rw [h] at hopens
  have hread : s.Reads (comment (s.rest.takeWhile (· ≠ '\n'))).text _ :=
    advanceWhile_reads (· ≠ '\n') s
  apply hread.pending_eq hrest
  · unfold first
    rw [if_neg (by decide), if_pos hopens.symm, rest_advanceWhile, hrest,
      List.takeWhile_cons_of_pos (by decide), List.dropWhile_cons_of_pos (by decide)]
  · exact fun _ _ => Piece.noConfusion

theorem pending_skip (s : Scanner) : s.pending = s.skip.pending := by
  fun_induction skip s with
  | case1 s h ih => rw [pending_blanks, pending_comment h, ih]
  | case2 s h => exact pending_blanks s

theorem exists_reads_skip (s : Scanner) : ∃ text, s.Reads text s.skip := by
  fun_induction skip s with
  | case1 s h ih =>
    obtain ⟨text, htext⟩ := ih
    exact ⟨_, ((advanceWhile_reads isBlank s).trans (advanceWhile_reads _ _)).trans htext⟩
  | case2 s h => exact ⟨_, advanceWhile_reads isBlank s⟩

/-- No blank and no comment stands in front. -/
theorem skip_settled (s : Scanner) {c : Char} {cs : List Char} (h : s.skip.rest = c :: cs) :
    isBlank c = false ∧ opensComment s.skip.followsWord (c :: cs) = false := by
  fun_induction skip s with
  | case1 s _ ih => exact ih h
  | case2 s hcomment =>
    rw [← atComment_eq h]
    refine ⟨?_, Bool.eq_false_iff.2 hcomment⟩
    have hhead := List.head?_dropWhile_not isBlank s.rest
    rw [← rest_advanceWhile, h] at hhead
    simpa using hhead

end

end Scanner

end Bisaya
