import Bisaya.Proofs.Token.Segments

namespace Bisaya

open Number Text

namespace Piece

/-- The characters that may stand between two pieces in place of each other. -/
def IsBreak (s : Char) : Prop := s = ' ' ∨ s = '\n'

theorem takeWhile_append_stop {inClass : Char → Bool} {s : Char} (hs : inClass s = false)
    (cs more : List Char) : (cs ++ s :: more).takeWhile inClass = cs.takeWhile inClass := by
  induction cs with
  | nil => simp [hs]
  | cons c cs ih => simp [List.takeWhile_cons, ih]

theorem dropWhile_append_stop {inClass : Char → Bool} {s : Char} (hs : inClass s = false)
    (cs more : List Char) :
    (cs ++ s :: more).dropWhile inClass = cs.dropWhile inClass ++ s :: more := by
  induction cs with
  | nil => simp [hs]
  | cons c cs ih =>
    simp only [List.cons_append, List.dropWhile_cons, ih]
    split <;> rfl

theorem isPrefixOf_append_stop {text : List Char} {s : Char} (hs : s ∉ text)
    (cs more : List Char) : text.isPrefixOf (cs ++ s :: more) = text.isPrefixOf cs := by
  induction text generalizing cs with
  | nil => simp
  | cons c text ih =>
    have hne : (c == s) = false := by
      simp only [List.mem_cons, not_or] at hs
      simpa using Ne.symm hs.1
    cases cs with
    | nil => simp [List.isPrefixOf, hne]
    | cons d cs => simp [List.isPrefixOf, ih (List.not_mem_of_not_mem_cons hs)]

section Break

variable {s : Char} (hs : IsBreak s) (cs more : List Char)

include hs

theorem markAt_append : markAt (cs ++ s :: more) = markAt cs := by
  have hmark (m : Mark) : s ∉ m.text.toList := by
    rcases hs with rfl | rfl <;> cases m <;> decide
  unfold markAt
  congr 1
  funext m
  exact isPrefixOf_append_stop (hmark m) cs more

theorem symbol_append (c : Char) :
    symbol c (cs ++ s :: more) = ((symbol c cs).1, (symbol c cs).2 ++ s :: more) := by
  have hmark := markAt_append hs (c :: cs) more
  rw [List.cons_append] at hmark
  unfold symbol
  rw [hmark]
  cases hm : markAt (c :: cs) with
  | none => rfl
  | some m =>
    have hlength := congrArg List.length (markAt_text hm)
    rw [List.length_append, List.length_drop] at hlength
    dsimp only
    rw [← List.cons_append, List.drop_append_of_le_length (by omega)]

theorem number_append (d : Char) :
    number d (cs ++ s :: more) = ((number d cs).1, (number d cs).2 ++ s :: more) := by
  have hdigit : s.isDigit = false := by rcases hs with rfl | rfl <;> rfl
  have hpoint : s ≠ '.' := by rcases hs with rfl | rfl <;> decide
  unfold number
  rw [takeWhile_append_stop hdigit, dropWhile_append_stop hdigit]
  rcases cs.dropWhile Char.isDigit with _ | ⟨c, _ | ⟨e, rest⟩⟩
  · simp [hpoint]
  · by_cases hc : c = '.'
    · simp [hc, hdigit]
    · simp [hc]
  · by_cases hc : c = '.'
    · by_cases he : e.isDigit
      · simp [hc, he, takeWhile_append_stop hdigit, dropWhile_append_stop hdigit]
      · simp [hc, he]
    · simp [hc]

end Break

theorem quoted_append {q : Char} {cs : List Char} (hq : q ∈ cs) (more : List Char) :
    quoted q (cs ++ more) = ((quoted q cs).1, (quoted q cs).2 ++ more) := by
  obtain ⟨before, after, rfl, -⟩ := List.eq_append_cons_of_mem hq
  have hdrop := @dropWhile_append_stop (fun c => decide (c ≠ q)) q (by simp) before
  have htake := @takeWhile_append_stop (fun c => decide (c ≠ q)) q (by simp) before
  unfold quoted
  rw [List.append_assoc, List.cons_append, hdrop, hdrop, htake, htake]
  cases before.dropWhile fun c => decide (c ≠ q) with
  | nil => rfl
  | cons c rest => simp

/-- The first piece is the same in front of a break, unless the break is part of a comment, of a
quoted text or of an escape. -/
theorem first_append {w : Bool} {c s : Char} {cs more : List Char} (hs : IsBreak s)
    (hcomment : opensComment w (c :: (cs ++ s :: more)) = opensComment w (c :: cs))
    (hline : opensComment w (c :: cs) → s = '\n' ∨ '\n' ∈ cs) (hquote : IsQuote c → c ∈ cs)
    (hbracket : c = '[' → cs = [] → more.head? ≠ some ']') :
    first w c (cs ++ s :: more) = ((first w c cs).1, (first w c cs).2 ++ s :: more) := by
  unfold first
  rw [hcomment]
  split
  · rfl
  rename_i hblank
  split
  · rename_i h
    rcases hline h with rfl | hmem
    · rw [takeWhile_append_stop (by simp), dropWhile_append_stop (by simp)]
    · obtain ⟨before, after, rfl, -⟩ := List.eq_append_cons_of_mem hmem
      rw [List.append_assoc, List.cons_append, takeWhile_append_stop (by simp),
        dropWhile_append_stop (by simp), takeWhile_append_stop (by simp),
        dropWhile_append_stop (by simp), List.append_assoc, List.cons_append]
  rename_i hopen
  split
  · rename_i hq
    exact quoted_append (hquote (by simpa [IsQuote] using hq)) _
  rename_i hunquoted
  split
  · have hword : inWord s = false := by rcases hs with rfl | rfl <;> decide
    rw [takeWhile_append_stop hword, dropWhile_append_stop hword]
  rename_i hword
  split
  · exact number_append hs cs more c
  rename_i hdigit
  split
  · rename_i x rest heq
    -- the three characters of an escape stand before the break, or the break would be one of them
    rcases cs with _ | ⟨y, _ | ⟨z, cs⟩⟩
    · obtain ⟨-, rfl⟩ := List.cons.inj heq
      exact absurd rfl (hbracket rfl rfl)
    · obtain ⟨rfl, -⟩ := List.cons.inj (List.cons.inj heq).2
      rcases hs with h | h <;> exact absurd h (by decide)
    · simp only [List.cons_append, List.cons.injEq] at heq
      obtain ⟨rfl, rfl, rfl⟩ := heq
      rfl
  · rename_i hescape
    rw [symbol_append hs]
    split
    · rename_i x rest
      exact absurd rfl (hescape x (rest ++ s :: more) rfl)
    · rfl

/-- What stands behind two dashes is settled by its first character that is no space or tab. -/
theorem endsDecrement_stop {c s : Char} (hc : ¬ (c = ' ' ∨ c = '\t')) (hs : IsBreak s)
    (cs more : List Char) : endsDecrement (c :: (cs ++ s :: more)) = endsDecrement (c :: cs) := by
  have hstop : ¬ (decide (c = ' ') || decide (c = '\t')) = true := by simpa using hc
  unfold endsDecrement
  rw [List.dropWhile_cons, List.dropWhile_cons, if_neg hstop, if_neg hstop]
  by_cases hc : c = '-'
  · subst hc
    cases cs with
    | nil => rcases hs with rfl | rfl <;> rfl
    | cons d cs =>
      by_cases hd : d = '-'
      · subst hd
        rfl
      · simp [hd]
  · simp [hc]

/-- Dashes before a break are read as if the text ended there, if a decrement may stand before the
break. -/
theorem endsDecrement_append {s : Char} {more : List Char} (hs : IsBreak s)
    (hend : endsDecrement (s :: more)) (cs : List Char) :
    endsDecrement (cs ++ s :: more) = endsDecrement cs := by
  induction cs with
  | nil => exact hend
  | cons c cs ih =>
    by_cases hblank : c = ' ' ∨ c = '\t'
    · rcases hblank with rfl | rfl <;> exact ih
    · exact endsDecrement_stop hblank hs cs more

/-- Where a character stands between dashes and a break, the break plays no part. -/
theorem endsDecrement_append_of_mem {s : Char} (hs : IsBreak s) {cs : List Char}
    (h : ∃ c ∈ cs, ¬ (c = ' ' ∨ c = '\t')) (more : List Char) :
    endsDecrement (cs ++ s :: more) = endsDecrement cs := by
  induction cs with
  | nil => simp at h
  | cons c cs ih =>
    by_cases hblank : c = ' ' ∨ c = '\t'
    · have hrest : ∃ c ∈ cs, ¬ (c = ' ' ∨ c = '\t') := by
        obtain ⟨d, hd, hpad⟩ := h
        rcases List.mem_cons.1 hd with rfl | hd
        · exact absurd hblank hpad
        · exact ⟨d, hd, hpad⟩
      rcases hblank with rfl | rfl <;> exact ih hrest
    · exact endsDecrement_stop hblank hs cs more

theorem opensComment_append_of {s : Char} {cs more : List Char} (hs : IsBreak s)
    (h : ∀ rest, cs = '-' :: '-' :: rest → endsDecrement (rest ++ s :: more) = endsDecrement rest)
    (w : Bool) : opensComment w (cs ++ s :: more) = opensComment w cs := by
  unfold opensComment
  rcases cs with _ | ⟨c, _ | ⟨d, rest⟩⟩
  · rcases hs with rfl | rfl <;> rfl
  · by_cases hc : c = '-'
    · subst hc
      rcases hs with rfl | rfl <;> rfl
    · simp [hc]
  · by_cases hc : c = '-'
    · by_cases hd : d = '-'
      · subst hc hd
        simp [h rest rfl]
      · simp [hc, hd]
    · simp [hc]

theorem opensComment_append {s : Char} {more : List Char} (hs : IsBreak s)
    (hend : endsDecrement (s :: more)) (w : Bool) (cs : List Char) :
    opensComment w (cs ++ s :: more) = opensComment w cs :=
  opensComment_append_of hs (fun rest _ => endsDecrement_append hs hend rest) w

/-- A quote that is never closed, with all that follows it. -/
def IsUnclosed (piece : Piece) : Prop := ∃ q cs, piece = lexeme .illegal (q :: cs) ∧ IsQuote q

theorem first_unclosed {q : Char} (hq : IsQuote q) {cs : List Char} (h : q ∉ cs) (w : Bool) :
    first w q cs = (lexeme .illegal (q :: cs), []) := by
  have hall : cs.dropWhile (fun c => decide (c ≠ q)) = [] := by
    rw [List.dropWhile_eq_nil_iff]
    intro c hc
    rw [decide_eq_true_eq]
    rintro rfl
    exact h hc
  have hfirst : first w q cs = quoted q cs := by rcases hq with rfl | rfl <;> rfl
  rw [hfirst, quoted, hall]

theorem first_append_newline {w : Bool} {c : Char} {cs more : List Char}
    (hquote : IsQuote c → c ∈ cs) (hbracket : c = '[' → cs = [] → more.head? ≠ some ']') :
    first w c (cs ++ '\n' :: more) = ((first w c cs).1, (first w c cs).2 ++ '\n' :: more) :=
  first_append (.inr rfl) (opensComment_append (.inr rfl) rfl w (c :: cs)) (fun _ => .inl rfl)
    hquote hbracket

theorem mem_of_not_isUnclosed {w : Bool} {c : Char} {cs : List Char}
    (h : ¬ (first w c cs).1.IsUnclosed) (hq : IsQuote c) : c ∈ cs := by
  by_contra hnot
  refine h ⟨c, cs, ?_, hq⟩
  rw [first_unclosed hq hnot w]

theorem getLast?_of_first {w : Bool} {c d : Char} {cs : List Char}
    (h : (first w c cs).2.getLast? = some d) : (c :: cs).getLast? = some d := by
  rw [← first_text w c cs, List.getLast?_append, h]
  rfl

/-- Lines are cut one by one. -/
theorem cut_append_newline {w : Bool} {cs more : List Char}
    (hclosed : ∀ piece ∈ cut w cs, ¬ piece.IsUnclosed)
    (hbracket : cs.getLast? = some '[' → more.head? ≠ some ']') :
    cut w (cs ++ '\n' :: more) = cut w cs ++ blank '\n' :: cut false more := by
  fun_induction cut w cs with
  | case1 w => exact cut_newline w more
  | case2 w c cs piece ih =>
    have hquote : IsQuote c → c ∈ cs :=
      mem_of_not_isUnclosed (hclosed piece (List.mem_cons_self ..))
    have hfirst : first w c (cs ++ '\n' :: more) = (piece, (first w c cs).2 ++ '\n' :: more) :=
      first_append_newline hquote (by rintro rfl rfl; exact hbracket rfl)
    rw [List.cons_append, cut_of_first hfirst, List.cons_append,
      ih (fun q hq => hclosed q (List.mem_cons_of_mem _ hq))
        (fun hlast => hbracket (getLast?_of_first hlast))]

/-- Two dashes with at most spaces and tabs behind them, which are a decrement or a comment as the
text goes on. -/
def EndsInDashes (cs : List Char) : Prop :=
  ∃ padding, '-' :: '-' :: padding <:+ cs ∧ ∀ c ∈ padding, c = ' ' ∨ c = '\t'

theorem mem_newline_of_comment {w : Bool} {c : Char} {cs : List Char}
    (hopen : opensComment w (c :: cs))
    (hlast : ∀ text, (cut w (c :: cs)).getLast? ≠ some (comment text)) : '\n' ∈ cs := by
  by_contra hnot
  have hall : ∀ d ∈ cs, decide (d ≠ '\n') := by
    intro d hd
    rw [decide_eq_true_eq]
    rintro rfl
    exact hnot hd
  have hdash : c = '-' := by
    by_contra hc
    rw [opensComment_of_ne hc] at hopen
    cases hopen
  have hfirst : first w c cs = (comment (c :: cs), []) := by
    unfold first
    rw [hopen, List.takeWhile_eq_self_iff.2 hall, List.dropWhile_eq_nil_iff.2 hall, hdash]
    rfl
  refine hlast (c :: cs) ?_
  rw [cut_of_first hfirst, cut]
  rfl

/-- A space parts two texts as a line break does, if no comment stands in front of it and no dashes
do. -/
theorem cut_append_space {w : Bool} {cs more : List Char}
    (hclosed : ∀ piece ∈ cut w cs, ¬ piece.IsUnclosed)
    (hbracket : cs.getLast? = some '[' → more.head? ≠ some ']')
    (hcomment : ∀ text, (cut w cs).getLast? ≠ some (comment text)) (hdash : ¬ EndsInDashes cs) :
    cut w (cs ++ ' ' :: more) = cut w cs ++ blank ' ' :: cut false more := by
  fun_induction cut w cs with
  | case1 w => exact cut_space w more
  | case2 w c cs piece ih =>
    have hquote : IsQuote c → c ∈ cs :=
      mem_of_not_isUnclosed (hclosed piece (List.mem_cons_self ..))
    -- dashes are followed by some character before the space, which settles what they are
    have hopens : opensComment w (c :: (cs ++ ' ' :: more)) = opensComment w (c :: cs) := by
      rw [← List.cons_append]
      refine opensComment_append_of (.inl rfl) (fun rest hrest => ?_) w
      refine endsDecrement_append_of_mem (.inl rfl) ?_ more
      by_contra hpadding
      push Not at hpadding
      exact hdash ⟨rest, hrest ▸ List.suffix_rfl, hpadding⟩
    have hline (hopen : opensComment w (c :: cs)) : ' ' = '\n' ∨ '\n' ∈ cs :=
      .inr (mem_newline_of_comment hopen (by rw [cut]; exact hcomment))
    have hfirst : first w c (cs ++ ' ' :: more) = (piece, (first w c cs).2 ++ ' ' :: more) :=
      first_append (.inl rfl) hopens hline hquote (by rintro rfl rfl; exact hbracket rfl)
    have hdash' : ¬ EndsInDashes (first w c cs).2 := by
      rintro ⟨padding, hdashes, hblank⟩
      exact hdash ⟨padding, hdashes.trans ⟨_, first_text w c cs⟩, hblank⟩
    have hrest := ih (fun q hq => hclosed q (List.mem_cons_of_mem _ hq))
      (fun hlast => hbracket (getLast?_of_first hlast))
      (fun text hlast => hcomment text (by rw [List.getLast?_cons, hlast]; rfl)) hdash'
    rw [List.cons_append, cut_of_first hfirst, List.cons_append, hrest]

/-- Only a quote that does not come again is never closed. -/
theorem first_not_unclosed {w : Bool} {c : Char} {cs : List Char} (hquote : IsQuote c → c ∈ cs) :
    ¬ (first w c cs).1.IsUnclosed := by
  rintro ⟨q, text, hpiece, hq⟩
  have hfirst := first_isFirst w c cs
  have htext := first_text w c cs
  rw [hpiece] at hfirst htext
  obtain ⟨-, ⟨d, hd, hunknown⟩ | ⟨q', text', hq', -, hnot, hrest⟩⟩ := hfirst
  · obtain ⟨rfl, -⟩ := List.cons.inj hd
    exact hunknown.quote hq
  · obtain ⟨rfl, rfl⟩ := List.cons.inj hq'
    rw [hrest, List.append_nil] at htext
    obtain ⟨rfl, rfl⟩ := List.cons.inj htext
    exact hnot (hquote hq)

/-- A quote that is not closed on its line stays open if no quote follows. -/
theorem exists_illegal_of_unclosed {w : Bool} {cs : List Char} {piece : Piece}
    (hmem : piece ∈ cut w cs) (h : piece.IsUnclosed) {more : List Char}
    (hmore : ∀ c ∈ more, ¬ IsQuote c) :
    ∃ text, lexeme .illegal text ∈ cut w (cs ++ '\n' :: more) := by
  fun_induction cut w cs with
  | case1 => cases hmem
  | case2 w c cs front ih =>
    by_cases hquote : IsQuote c ∧ c ∉ cs
    · have hnot : c ∉ cs ++ '\n' :: more := by
        simp only [List.mem_append, List.mem_cons, not_or]
        refine ⟨hquote.2, ?_, fun hc => hmore c hc hquote.1⟩
        rcases hquote.1 with rfl | rfl <;> decide
      rw [List.cons_append, cut_of_first (first_unclosed hquote.1 hnot w)]
      exact ⟨_, List.mem_cons_self ..⟩
    · replace hquote : IsQuote c → c ∈ cs := by simpa using hquote
      rcases List.mem_cons.1 hmem with rfl | hrest
      · exact absurd h (first_not_unclosed hquote)
      · obtain ⟨text, htext⟩ := ih hrest
        -- a bracket that the break could make an escape stands at the end
        have hne : cs ≠ [] := by
          rintro rfl
          have hshort := length_first w c []
          have hnil : (first w c []).2 = [] := List.length_eq_zero_iff.1 (by simpa using hshort)
          rw [hnil, cut] at hrest
          cases hrest
        have hfirst : first w c (cs ++ '\n' :: more) = (front, (first w c cs).2 ++ '\n' :: more) :=
          first_append_newline hquote fun _ hnil => absurd hnil hne
        rw [List.cons_append, cut_of_first hfirst]
        exact ⟨text, List.mem_cons_of_mem _ htext⟩

theorem kind_ne_eof {w : Bool} {cs : List Char} {kind : Kind} {text : List Char}
    (h : lexeme kind text ∈ cut w cs) : kind ≠ .eof := by
  fun_induction cut w cs with
  | case1 => cases h
  | case2 w c cs piece ih =>
    rcases List.mem_cons.1 h with h | h
    · rintro rfl
      have hfirst := first_isFirst w c cs
      rw [show (first w c cs).1 = lexeme .eof text from h.symm] at hfirst
      exact hfirst
    · exact ih h

/-- The tokens of pieces whose first one starts at `p`, without an end mark. -/
def lexemes (p : Position) : List Piece → List Token
  | [] => []
  | lexeme kind text :: rest => ⟨kind, literal kind text, p⟩ :: lexemes (p.after text) rest
  | piece :: rest => lexemes (p.after piece.text) rest

theorem tokens_append (p : Position) (ps qs : List Piece) :
    tokens p (ps ++ qs) = lexemes p ps ++ tokens (p.after (ps.flatMap text)) qs := by
  fun_induction lexemes p ps with
  | case1 p => rfl
  | case2 p kind text rest ih =>
    rw [List.cons_append, tokens, ih, List.flatMap_cons, Position.after_append]
    rfl
  | case3 p piece rest hpiece ih =>
    rw [List.cons_append, tokens, ih, List.flatMap_cons, Position.after_append]
    exact hpiece

end Piece

namespace Position

theorem line_after (p : Position) (cs : List Char) :
    (p.after cs).line = p.line + cs.count '\n' := by
  induction cs generalizing p with
  | nil => rfl
  | cons c cs ih =>
    change ((p.next c).after cs).line = _
    rw [ih, next, List.count_cons]
    by_cases hc : c = '\n'
    · simp [hc, Nat.add_comm, Nat.add_left_comm]
    · simp [hc]

theorem line_le_after (p : Position) (cs : List Char) : p.line ≤ (p.after cs).line := by
  rw [line_after]
  exact Nat.le_add_right _ _

/-- The same column, `k` lines further down. -/
def down (k : Nat) (p : Position) : Position := ⟨p.line + k, p.column⟩

theorem after_down (k : Nat) (p : Position) (cs : List Char) :
    (p.down k).after cs = (p.after cs).down k := by
  induction cs generalizing p with
  | nil => rfl
  | cons c cs ih =>
    have hnext : (p.down k).next c = (p.next c).down k := by
      unfold next
      split
      · simp [down, Nat.add_right_comm]
      · rfl
    change ((p.down k).next c).after cs = ((p.next c).after cs).down k
    rw [hnext, ih]

end Position

def Token.down (k : Nat) (t : Token) : Token := { t with position := t.position.down k }

namespace Piece

theorem tokens_down (k : Nat) (p : Position) (ps : List Piece) :
    tokens (p.down k) ps = (tokens p ps).map (Token.down k) := by
  fun_induction tokens p ps with
  | case1 p => rfl
  | case2 p kind text rest ih =>
    rw [tokens, Position.after_down, ih]
    rfl
  | case3 p piece rest hpiece ih =>
    rw [tokens, Position.after_down, ih]
    exact hpiece

theorem mem_lexemes {p : Position} {ps : List Piece} {t : Token} (h : t ∈ lexemes p ps) :
    (∃ text, lexeme t.kind text ∈ ps) ∧
      t.position.line ≤ (p.after (ps.flatMap text)).line := by
  fun_induction lexemes p ps with
  | case1 => cases h
  | case2 p kind text rest ih =>
    rw [List.flatMap_cons, Position.after_append]
    rcases List.mem_cons.1 h with rfl | h
    · exact ⟨⟨text, List.mem_cons_self ..⟩,
        (p.line_le_after text).trans (Position.line_le_after _ _)⟩
    · obtain ⟨⟨text, hmem⟩, hline⟩ := ih h
      exact ⟨⟨text, List.mem_cons_of_mem _ hmem⟩, hline⟩
  | case3 p piece rest hpiece ih =>
    rw [List.flatMap_cons, Position.after_append]
    obtain ⟨⟨text, hmem⟩, hline⟩ := ih h
    exact ⟨⟨text, List.mem_cons_of_mem _ hmem⟩, hline⟩

theorem line_le_of_mem_tokens {p : Position} {ps : List Piece} {t : Token} (h : t ∈ tokens p ps) :
    p.line ≤ t.position.line := by
  fun_induction tokens p ps with
  | case1 p =>
    cases List.mem_singleton.1 h
    exact le_rfl
  | case2 p kind text rest ih =>
    rcases List.mem_cons.1 h with rfl | h
    · exact le_rfl
    · exact (p.line_le_after text).trans (ih h)
  | case3 p piece rest hpiece ih => exact (p.line_le_after piece.text).trans (ih h)

/-- What stands above a line break moves the tokens below it down by its own lines. -/
theorem tokens_append_break (l : Nat) (ps qs : List Piece) :
    tokens ⟨l, 1⟩ (ps ++ blank '\n' :: qs) = lexemes ⟨l, 1⟩ ps ++
      (tokens ⟨l, 1⟩ qs).map (Token.down (1 + (ps.flatMap text).count '\n')) := by
  let p : Position := .after ⟨l, 1⟩ (ps.flatMap text)
  have hdown : p.after ['\n'] = Position.down (1 + (ps.flatMap text).count '\n') ⟨l, 1⟩ := by
    change (⟨p.line + 1, 1⟩ : Position) = ⟨l + (1 + (ps.flatMap text).count '\n'), 1⟩
    rw [Position.line_after, Nat.add_assoc, Nat.add_comm 1]
  rw [tokens_append, ← tokens_down, ← hdown]
  rfl

/-- The tokens below a line break stand on later lines than those above it. -/
theorem tokens_append_newline (l : Nat) (ps qs : List Piece) :
    ∃ k, tokens ⟨l, 1⟩ (ps ++ blank '\n' :: qs) =
        lexemes ⟨l, 1⟩ ps ++ (tokens ⟨l, 1⟩ qs).map (Token.down k) ∧
      ∀ t ∈ lexemes ⟨l, 1⟩ ps, ∀ u ∈ (tokens ⟨l, 1⟩ qs).map (Token.down k),
        t.position.line < u.position.line := by
  refine ⟨_, tokens_append_break l ps qs, fun t ht u hu => ?_⟩
  have hline := (mem_lexemes ht).2
  rw [← tokens_down] at hu
  have hbelow := line_le_of_mem_tokens hu
  rw [Position.line_after] at hline
  change l + (1 + (ps.flatMap text).count '\n') ≤ u.position.line at hbelow
  dsimp only at hline
  omega

theorem exists_mem_tokens {ps : List Piece} {kind : Kind} {text : List Char}
    (h : lexeme kind text ∈ ps) (p : Position) :
    ∃ t ∈ tokens p ps, t.kind = kind ∧ t.literal = literal kind text := by
  fun_induction tokens p ps with
  | case1 => cases h
  | case2 p kind' text' rest ih =>
    rcases List.mem_cons.1 h with h | h
    · obtain ⟨rfl, rfl⟩ := Piece.lexeme.inj h
      exact ⟨_, List.mem_cons_self .., rfl, rfl⟩
    · obtain ⟨t, ht, hspelled⟩ := ih h
      exact ⟨t, List.mem_cons_of_mem _ ht, hspelled⟩
  | case3 p piece rest hpiece ih =>
    rcases List.mem_cons.1 h with h | h
    · exact absurd h.symm (hpiece kind text)
    · exact ih h

end Piece

def Token.IsUnclosed (t : Token) : Prop :=
  t.kind = .illegal ∧ ∃ q, t.literal.toList.head? = some q ∧ IsQuote q

theorem Piece.not_isUnclosed_of_tokens {p : Position} {ps : List Piece}
    (h : ∀ t ∈ tokens p ps, ¬ t.IsUnclosed) : ∀ piece ∈ ps, ¬ piece.IsUnclosed := by
  rintro piece hpiece ⟨q, cs, rfl, hq⟩
  obtain ⟨t, ht, hkind, hliteral⟩ := exists_mem_tokens hpiece p
  refine h t ht ⟨hkind, q, ?_, hq⟩
  simp [hliteral, literal]

open Piece

/-- The end mark is the last token and the only one of its kind. -/
theorem tokens_cut_eof (p : Position) (cs : List Char) :
    ∃ q, tokens p (cut false cs) = lexemes p (cut false cs) ++ [.ofKind .eof q] ∧
      ∀ t ∈ lexemes p (cut false cs), t.kind ≠ .eof := by
  have hend := tokens_append p (cut false cs) []
  rw [List.append_nil] at hend
  refine ⟨_, hend, fun t ht => ?_⟩
  obtain ⟨⟨text, hpiece⟩, -⟩ := mem_lexemes ht
  exact kind_ne_eof hpiece

theorem eq_nil_of_eof {p : Position} {cs : List Char} {front rest : List Token} {t : Token}
    (h : tokens p (cut false cs) = front ++ t :: rest) (ht : t.kind = .eof) : rest = [] := by
  obtain ⟨q, hend, hkinds⟩ := tokens_cut_eof p cs
  rw [h] at hend
  rcases List.eq_nil_or_concat rest with rfl | ⟨rest, u, rfl⟩
  · rfl
  · have hsplit : front ++ t :: rest.concat u = front ++ t :: rest ++ [u] := by simp
    rw [hsplit] at hend
    have hmem : t ∈ lexemes p (cut false cs) := by
      rw [← (List.append_inj' hend rfl).1]
      simp
    exact absurd ht (hkinds t hmem)

/-- The tokens of two texts with a line break between them are those of the first, without its end
mark, and those of the second, further down by the lines of the first and in the same columns. -/
theorem tokenize_append_newline {a b : String} (ha : ∀ t ∈ tokenize a, ¬ t.IsUnclosed)
    (hbracket : ¬ (a.toList.getLast? = some '[' ∧ b.toList.head? = some ']')) :
    tokenize (a ++ "\n" ++ b) = (tokenize a).dropLast ++
      (tokenize b).map (Token.down (1 + a.toList.count '\n')) := by
  obtain ⟨p, hend, -⟩ := tokens_cut_eof .start a.toList
  have hcut := cut_append_newline (not_isUnclosed_of_tokens ha) (not_and.1 hbracket)
  have hbreak := tokens_append_break 1 (cut false a.toList) (cut false b.toList)
  rw [cut_text] at hbreak
  have htext : (a ++ "\n" ++ b).toList = a.toList ++ '\n' :: b.toList := by simp
  rw [tokenize, htext, hcut, tokenize, hend, List.dropLast_concat]
  exact hbreak

/-- A break inside a quoted text counts as a line, and a decrement at the end of the text stays
one in front of the break. -/
theorem tokenize_decrement_newline :
    (∀ t ∈ tokenize "'a\nb' x--", ¬ t.IsUnclosed) ∧
      tokenize ("'a\nb' x--" ++ "\n" ++ " ]") =
        [⟨.string, "a\nb", ⟨1, 1⟩⟩, ⟨.ident, "x", ⟨2, 4⟩⟩, ⟨.mark .decrement, "--", ⟨2, 5⟩⟩,
          ⟨.mark .rbracket, "]", ⟨3, 2⟩⟩, ⟨.eof, "EOF", ⟨3, 3⟩⟩] := by
  have htokens : tokenize "'a\nb' x--" = [⟨.string, "a\nb", ⟨1, 1⟩⟩, ⟨.ident, "x", ⟨2, 4⟩⟩,
      ⟨.mark .decrement, "--", ⟨2, 5⟩⟩, ⟨.eof, "EOF", ⟨2, 7⟩⟩] := by cbv
  have hbelow : tokenize " ]" = [⟨.mark .rbracket, "]", ⟨1, 2⟩⟩, ⟨.eof, "EOF", ⟨1, 3⟩⟩] := by cbv
  have hclosed : ∀ t ∈ tokenize "'a\nb' x--", ¬ t.IsUnclosed := by
    rw [htokens]
    simp [Token.IsUnclosed]
  refine ⟨hclosed, (tokenize_append_newline hclosed (by decide)).trans ?_⟩
  rw [htokens, hbelow]
  rfl

end Bisaya
