import Bisaya.Proofs.Token.Lines

namespace Bisaya

open Piece

namespace Piece

/-- A comment leaves no trace behind the end of its line. -/
theorem tokens_comment {text : List Char} (h : '\n' ∉ text) (p : Position) (ps : List Piece) :
    tokens p (comment text :: blank '\n' :: ps) = tokens ⟨p.line + 1, 1⟩ ps := by
  change tokens ⟨(p.after text).line + 1, 1⟩ ps = _
  rw [Position.line_after, List.count_eq_zero_of_not_mem h]

theorem tokens_cons_congr {ps qs : List Piece} (h : ∀ p, tokens p ps = tokens p qs) (piece : Piece)
    (p : Position) : tokens p (piece :: ps) = tokens p (piece :: qs) := by
  cases piece <;> simp only [tokens, h]

theorem eq_dash_of_opensComment {w : Bool} {c : Char} {cs : List Char}
    (h : opensComment w (c :: cs)) : c = '-' := by
  by_contra hc
  rw [opensComment_of_ne hc] at h
  cases h

theorem cut_comment {w : Bool} {cs more : List Char}
    (hopen : opensComment w ('-' :: (cs ++ '\n' :: more))) (hline : '\n' ∉ cs) :
    cut w ('-' :: (cs ++ '\n' :: more)) = comment ('-' :: cs) :: blank '\n' :: cut false more := by
  have hall : ∀ d ∈ cs, decide (d ≠ '\n') = true := fun d hd => by
    rw [decide_eq_true_eq]
    rintro rfl
    exact hline hd
  have hstop : StopsAt (fun d => decide (d ≠ '\n')) ('\n' :: more) := stopsAt_cons (by simp) more
  have hfirst : first w '-' (cs ++ '\n' :: more) = (comment ('-' :: cs), '\n' :: more) := by
    unfold first
    rw [if_neg (by decide), if_pos hopen, takeWhile_append hall hstop, dropWhile_append hall hstop]
  rw [cut_of_first hfirst, cut_newline]

/-- Behind a space two dashes open a comment, and for what stands before they end the line. -/
theorem tokens_cut_comment {w : Bool} {cs text more : List Char} (htext : '\n' ∉ text)
    (hclosed : ∀ piece ∈ cut w cs, ¬ piece.IsUnclosed)
    (hbracket : cs.getLast? = some '[' → more.head? ≠ some ']') (p : Position) :
    tokens p (cut w (cs ++ ' ' :: '-' :: '-' :: (text ++ '\n' :: more))) =
      tokens p (cut w (cs ++ '\n' :: more)) := by
  fun_induction cut w cs generalizing p with
  | case1 w =>
    have hdash : '\n' ∉ '-' :: text := by simpa using htext
    have hdashes : '\n' ∉ '-' :: '-' :: text := by simpa using hdash
    rw [List.nil_append, List.nil_append, cut_space, ← List.cons_append,
      cut_comment rfl hdash, cut_newline]
    exact tokens_comment hdashes (p.next ' ') _
  | case2 w c cs piece ih =>
    have hspace : opensComment w (c :: (cs ++ ' ' :: '-' :: '-' :: (text ++ '\n' :: more))) =
        opensComment w (c :: cs) := opensComment_append (.inl rfl) rfl w (c :: cs)
    have hbreak : opensComment w (c :: (cs ++ '\n' :: more)) = opensComment w (c :: cs) :=
      opensComment_append (.inr rfl) rfl w (c :: cs)
    by_cases hcomment : opensComment w (c :: cs) ∧ '\n' ∉ cs
    · -- a comment that already stands on the line takes up the new one
      obtain ⟨hopen, hline⟩ := hcomment
      obtain rfl := eq_dash_of_opensComment hopen
      have hlonger : '\n' ∉ cs ++ ' ' :: '-' :: '-' :: text := by simp [hline, htext]
      have hassoc : cs ++ ' ' :: '-' :: '-' :: (text ++ '\n' :: more) =
          (cs ++ ' ' :: '-' :: '-' :: text) ++ '\n' :: more := by simp
      rw [hassoc] at hspace
      rw [List.cons_append, List.cons_append, hassoc, cut_comment (hspace.trans hopen) hlonger,
        cut_comment (hbreak.trans hopen) hline, tokens_comment (by simpa using hlonger),
        tokens_comment (by simpa using hline)]
    · have hline : opensComment w (c :: cs) → '\n' ∈ cs := by simpa using hcomment
      have hquote : IsQuote c → c ∈ cs :=
        mem_of_not_isUnclosed (hclosed piece (List.mem_cons_self ..))
      have hfirst := first_append (.inl rfl) hspace (fun h => .inr (hline h)) hquote
        (fun _ _ => by simp)
      have hfirst' : first w c (cs ++ '\n' :: more) = (piece, (first w c cs).2 ++ '\n' :: more) :=
        first_append_newline hquote (by rintro rfl rfl; exact hbracket rfl)
      rw [List.cons_append, List.cons_append, cut_of_first hfirst, cut_of_first hfirst']
      exact tokens_cons_congr (ih (fun q hq => hclosed q (List.mem_cons_of_mem _ hq))
        (fun hlast => hbracket (getLast?_of_first hlast))) piece p

end Piece

/-- A comment at the end of a line makes no difference to the tokens and their places. -/
theorem tokenize_append_comment {a b c : String} (ha : ∀ t ∈ tokenize a, ¬ t.IsUnclosed)
    (hc : '\n' ∉ c.toList)
    (hbracket : ¬ (a.toList.getLast? = some '[' ∧ b.toList.head? = some ']')) :
    tokenize (a ++ " --" ++ c ++ "\n" ++ b) = tokenize (a ++ "\n" ++ b) := by
  have htokens := tokens_cut_comment hc (not_isUnclosed_of_tokens ha) (not_and.1 hbracket) .start
  simpa [tokenize] using htokens

/-- The dashes behind `x` stay a decrement, and the quote in the comment opens no text. -/
theorem tokenize_decrement_comment :
    (∀ t ∈ tokenize "x--", ¬ t.IsUnclosed) ∧
      tokenize ("x--" ++ " --" ++ "-- it's [" ++ "\n" ++ "] y") =
        tokenize ("x--" ++ "\n" ++ "] y") := by
  have htokens : tokenize "x--" =
      [⟨.ident, "x", ⟨1, 1⟩⟩, ⟨.mark .decrement, "--", ⟨1, 2⟩⟩, ⟨.eof, "EOF", ⟨1, 4⟩⟩] := by cbv
  have hclosed : ∀ t ∈ tokenize "x--", ¬ t.IsUnclosed := by
    rw [htokens]
    simp [Token.IsUnclosed]
  exact ⟨hclosed, tokenize_append_comment hclosed (by decide) (by decide)⟩

end Bisaya
