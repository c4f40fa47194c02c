import Bisaya.Proofs.Token.Spelling

namespace Bisaya.Piece

open Number Text

theorem cut_of_first {w : Bool} {c : Char} {cs rest : List Char} {piece : Piece}
    (h : first w c cs = (piece, rest)) : cut w (c :: cs) = piece :: cut piece.endsWord rest := by
  rw [cut, h]

theorem opensComment_of_ne {w : Bool} {c : Char} (h : c ≠ '-') (cs : List Char) :
    opensComment w (c :: cs) = false := by
  unfold opensComment
  split
  · rename_i heq
    exact absurd (List.cons.inj heq).1 h
  · rfl

/-- Only a dash looks back. -/
theorem cut_eq_of_head {cs : List Char} (w : Bool) (h : cs.head? ≠ some '-') :
    cut w cs = cut false cs := by
  cases cs with
  | nil => rw [cut, cut]
  | cons c cs =>
    have hc : c ≠ '-' := by simpa using h
    have hf : first w c cs = first false c cs := by
      simp only [first, opensComment_of_ne hc]
    rw [cut, cut, hf]

theorem cut_space (w : Bool) (cs : List Char) : cut w (' ' :: cs) = blank ' ' :: cut false cs :=
  cut_of_first rfl

theorem cut_newline (w : Bool) (cs : List Char) : cut w ('\n' :: cs) = blank '\n' :: cut false cs :=
  cut_of_first rfl

abbrev ofMark (m : Mark) : Piece := lexeme (.mark m) m.text.toList

abbrev ofKeyword (k : Keyword) : Piece := lexeme (.keyword k) k.text.toList

abbrev ofName (s : String) : Piece := lexeme .ident s.toList

/-- The marks that no further character can extend. -/
def closedMarks : List Mark :=
  [.lparen, .rparen, .lbrace, .rbrace, .comma, .colon, .ampersand, .dollar]

theorem cut_closed {m : Mark} (h : m ∈ closedMarks) (w : Bool) (rest : List Char) :
    cut w (m.text.toList ++ rest) = ofMark m :: cut false rest := by
  simp only [closedMarks, List.mem_cons, List.not_mem_nil, or_false] at h
  rcases h with rfl | rfl | rfl | rfl | rfl | rfl | rfl | rfl <;> exact cut_of_first rfl

/-- The marks that stand between two operands, and the one of an assignment. -/
def spacedMarks : List Mark :=
  [.equals, .notEquals, .lessEquals, .greaterEquals, .assign, .less, .greater, .plus, .minus,
    .asterisk, .slash, .percent]

theorem cut_spaced {m : Mark} (h : m ∈ spacedMarks) (w : Bool) (rest : List Char) :
    cut w (m.text.toList ++ ' ' :: rest) = ofMark m :: cut false (' ' :: rest) := by
  simp only [spacedMarks, List.mem_cons, List.not_mem_nil, or_false] at h
  rcases h with rfl | rfl | rfl | rfl | rfl | rfl | rfl | rfl | rfl | rfl | rfl | rfl <;>
    exact cut_of_first rfl

theorem cut_plus {c : Char} (h : c ≠ '+') (w : Bool) (rest : List Char) :
    cut w ('+' :: c :: rest) = ofMark .plus :: cut false (c :: rest) := by
  have hm : markAt ('+' :: c :: rest) = some .plus := by
    have hc : ('+' == c) = false := by simpa using h.symm
    simp [markAt, Mark.all, List.find?, List.isPrefixOf, Mark.text, hc]
  apply cut_of_first
  change symbol '+' (c :: rest) = _
  rw [symbol, hm]
  rfl

theorem first_dash {w : Bool} {cs : List Char} (h : opensComment w ('-' :: cs) = false) :
    first w '-' cs = symbol '-' cs := by
  unfold first
  rw [h]
  rfl

theorem cut_minus {c : Char} (h : c ≠ '-') (w : Bool) (rest : List Char) :
    cut w ('-' :: c :: rest) = ofMark .minus :: cut false (c :: rest) := by
  have hm : markAt ('-' :: c :: rest) = some .minus := by
    have hc : ('-' == c) = false := by simpa using h.symm
    simp [markAt, Mark.all, List.find?, List.isPrefixOf, Mark.text, hc]
  have ho : opensComment w ('-' :: c :: rest) = false := by
    unfold opensComment
    split
    · rename_i heq
      exact absurd (List.cons.inj (List.cons.inj heq).2).1 h
    · rfl
  apply cut_of_first
  rw [first_dash ho, symbol, hm]
  rfl

theorem cut_increment (w : Bool) (rest : List Char) :
    cut w ('+' :: '+' :: rest) = ofMark .increment :: cut false rest := cut_of_first rfl

/-- Two dashes after a word are a decrement where the line or the bracket ends. -/
theorem cut_decrement {rest : List Char} (h : endsDecrement rest = true) :
    cut true ('-' :: '-' :: rest) = ofMark .decrement :: cut false rest := by
  have ho : opensComment true ('-' :: '-' :: rest) = false := by simp [opensComment, h]
  apply cut_of_first
  rw [first_dash ho]
  rfl

theorem cut_escape (w : Bool) (c : Char) (rest : List Char) :
    cut w ('[' :: c :: ']' :: rest) = lexeme .escape ['[', c, ']'] :: cut false rest :=
  cut_of_first rfl

/-- No character at the front of `rest` belongs to the class. -/
def StopsAt (inClass : Char → Bool) (rest : List Char) : Prop :=
  ∀ c, rest.head? = some c → inClass c = false

theorem stopsAt_cons {inClass : Char → Bool} {c : Char} (h : inClass c = false) (rest : List Char) :
    StopsAt inClass (c :: rest) := by
  intro c' hc'
  rwa [← Option.some.inj hc']

theorem takeWhile_append {inClass : Char → Bool} {cs rest : List Char} (h : ∀ c ∈ cs, inClass c)
    (hrest : StopsAt inClass rest) : (cs ++ rest).takeWhile inClass = cs := by
  rw [List.takeWhile_append_of_pos h]
  cases rest with
  | nil => simp
  | cons c rest =>
    rw [List.takeWhile_cons_of_neg (by simp [hrest c rfl]), List.append_nil]

theorem dropWhile_append {inClass : Char → Bool} {cs rest : List Char} (h : ∀ c ∈ cs, inClass c)
    (hrest : StopsAt inClass rest) : (cs ++ rest).dropWhile inClass = rest := by
  rw [List.dropWhile_append_of_pos h]
  cases rest with
  | nil => rfl
  | cons c rest => rw [List.dropWhile_cons_of_neg (by simp [hrest c rfl])]

theorem inRanges_disjoint {as bs : List (Nat × Nat)}
    (h : ∀ a ∈ as, ∀ b ∈ bs, a.2 < b.1 ∨ b.2 < a.1) {c : Char} (hc : inRanges as c) :
    inRanges bs c = false := by
  simp only [inRanges, List.any_eq_true, Bool.and_eq_true, decide_eq_true_eq] at hc
  obtain ⟨a, ha, hlow, hhigh⟩ := hc
  simp only [inRanges, List.any_eq_false, Bool.and_eq_true, decide_eq_true_eq, not_and]
  intro b hb hlow' hhigh'
  have := h a ha b hb
  omega

theorem letterRanges_blankRanges :
    ∀ a ∈ letterRanges, ∀ b ∈ blankRanges, a.2 < b.1 ∨ b.2 < a.1 := by
  -- the table of letters is long
  decide +kernel

theorem inRanges_of_isAlpha {c : Char} (h : c.isAlpha) : inRanges [(65, 90), (97, 122)] c := by
  simp only [Char.isAlpha, Char.isUpper, Char.isLower, Bool.or_eq_true, Bool.and_eq_true,
    decide_eq_true_eq] at h
  have hcode : (65 ≤ c.toNat ∧ c.toNat ≤ 90) ∨ (97 ≤ c.toNat ∧ c.toNat ≤ 122) := h
  simpa [inRanges] using hcode

theorem isBlank_of_startsWord {c : Char} (h : startsWord c) : isBlank c = false := by
  simp only [startsWord, isLetter, Bool.or_eq_true, decide_eq_true_eq] at h
  rcases h with h | rfl
  · split at h
    · exact inRanges_disjoint (by decide) (inRanges_of_isAlpha h)
    · exact inRanges_disjoint letterRanges_blankRanges h
  · rfl

theorem inWord_of_startsWord {c : Char} (h : startsWord c) : inWord c := by
  simp only [startsWord, Bool.or_eq_true, decide_eq_true_eq] at h
  simp only [inWord, Bool.or_eq_true, decide_eq_true_eq]
  exact h.imp_left Or.inl

theorem endsWord_word {cs : List Char} (h : IsWord cs) : (word cs).endsWord := by
  obtain ⟨c, rest, rfl, hc, hrest⟩ := h
  have hall : ∀ x ∈ c :: rest, inWord x := by
    intro x hx
    rcases List.mem_cons.1 hx with rfl | hx
    · exact inWord_of_startsWord hc
    · exact hrest x hx
  have hlast := List.getLast?_eq_some_getLast (List.cons_ne_nil c rest)
  rw [endsWord, word_text, hlast, Option.any_some]
  exact hall _ (List.getLast_mem _)

theorem cut_word {cs rest : List Char} (h : IsWord cs) (hrest : StopsAt inWord rest) (w : Bool) :
    cut w (cs ++ rest) = word cs :: cut true rest := by
  have hends := endsWord_word h
  obtain ⟨c, cs, rfl, hc, hcs⟩ := h
  -- none of the tests before that for a word applies
  have hdash : c ≠ '-' := by rintro rfl; exact absurd hc (by decide)
  have hquote : (c = '\'' || c = '"') = false := by
    rw [Bool.or_eq_false_iff, decide_eq_false_iff_not, decide_eq_false_iff_not]
    constructor <;> rintro rfl <;> exact absurd hc (by decide)
  have hf : first w c (cs ++ rest) = (word (c :: cs), rest) := by
    unfold first
    rw [isBlank_of_startsWord hc, opensComment_of_ne hdash, hquote, hc,
      takeWhile_append hcs hrest, dropWhile_append hcs hrest]
    rfl
  rw [List.cons_append, cut_of_first hf, hends]

theorem cut_name {s : String} (h : IsName s) {rest : List Char} (hrest : StopsAt inWord rest)
    (w : Bool) : cut w (s.toList ++ rest) = ofName s :: cut true rest := by
  have hw : word s.toList = ofName s := by rw [word, String.ofList_toList, h.free]
  rw [cut_word h.word hrest, hw]

theorem isWord_keyword (k : Keyword) : IsWord k.text.toList := by
  have h : ∀ k : Keyword, k.text.toList ≠ [] ∧ k.text.toList.head?.all startsWord ∧
      k.text.toList.tail.all inWord := by
    intro k
    cases k <;> decide
  obtain ⟨hne, hhead, htail⟩ := h k
  obtain ⟨c, cs, hcs⟩ := List.exists_cons_of_ne_nil hne
  rw [hcs] at hhead htail ⊢
  exact ⟨c, cs, rfl, by simpa using hhead, List.all_eq_true.1 htail⟩

theorem cut_keyword (k : Keyword) {rest : List Char} (hrest : StopsAt inWord rest) (w : Bool) :
    cut w (k.text.toList ++ rest) = ofKeyword k :: cut true rest := by
  have hw : word k.text.toList = ofKeyword k := by
    rw [word, String.ofList_toList, Keyword.ofText?_text]
  rw [cut_word (isWord_keyword k) hrest, hw]

/-- A keyword ends before a character of no word. -/
theorem cut_keyword_cons (k : Keyword) {c : Char} (hword : inWord c = false) (hdash : c ≠ '-')
    (w : Bool) (rest : List Char) :
    cut w (k.text.toList ++ c :: rest) = ofKeyword k :: cut false (c :: rest) := by
  have hhead : (c :: rest).head? ≠ some '-' := by simpa using hdash
  rw [cut_keyword k (stopsAt_cons hword rest), cut_eq_of_head true hhead]

/-- A character stands in front at which every word and number ends. -/
def Delimited (rest : List Char) : Prop := ∃ c cs, rest = c :: cs ∧ c ∈ [' ', ')', ',', '\n']

theorem delimited_space (cs : List Char) : Delimited (' ' :: cs) := ⟨' ', cs, rfl, by decide⟩

theorem delimited_rparen (cs : List Char) : Delimited (Mark.rparen.text.toList ++ cs) :=
  ⟨')', cs, rfl, by decide⟩

theorem Delimited.stopsAt {rest : List Char} (h : Delimited rest) {inClass : Char → Bool}
    (hclass : [' ', ')', ',', '\n'].any inClass = false) : StopsAt inClass rest := by
  obtain ⟨c, cs, rfl, hc⟩ := h
  intro c' hc'
  rw [← Option.some.inj hc']
  exact Bool.eq_false_iff.2 (List.any_eq_false.1 hclass c hc)

theorem Delimited.cut_eq {rest : List Char} (h : Delimited rest) (w : Bool) :
    cut w rest = cut false rest := by
  apply cut_eq_of_head
  intro hdash
  have hstop : StopsAt (· == '-') rest := h.stopsAt rfl
  exact absurd (hstop '-' hdash) (by decide)

theorem cut_name_delimited {s : String} (h : IsName s) {rest : List Char} (hrest : Delimited rest) :
    cut false (s.toList ++ rest) = [ofName s] ++ cut false rest := by
  rw [cut_name h (hrest.stopsAt rfl), hrest.cut_eq]
  rfl

theorem first_digit {w : Bool} {d : Char} (hd : d.isDigit) (cs : List Char) :
    first w d cs = number d cs := by
  have hdigits : ∀ k : Fin 10, isBlank (digitChar k) = false ∧ digitChar k ≠ '-' ∧
      (digitChar k = '\'' || digitChar k = '"') = false ∧ startsWord (digitChar k) = false := by
    decide
  obtain ⟨k, rfl⟩ := eq_digitChar hd
  obtain ⟨hblank, hdash, hquote, hword⟩ := hdigits k
  unfold first
  rw [hblank, opensComment_of_ne hdash, hquote, hword, hd]
  rfl

theorem cut_int {ds rest : List Char} (h : IsDigits ds) (hrest : Delimited rest) (w : Bool) :
    cut w (ds ++ rest) = lexeme .int ds :: cut false rest := by
  obtain ⟨d, ds, rfl, hd, hds⟩ := h.cons
  have hstop : StopsAt Char.isDigit rest := hrest.stopsAt rfl
  have hn : number d (ds ++ rest) = (lexeme .int (d :: ds), rest) := by
    unfold number
    rw [takeWhile_append hds hstop, dropWhile_append hds hstop]
    obtain ⟨c, cs, rfl, hc⟩ := hrest
    split
    · rename_i heq
      rw [(List.cons.inj heq).1] at hc
      exact absurd hc (by decide)
    · rfl
  rw [List.cons_append, cut_of_first ((first_digit hd _).trans hn), hrest.cut_eq]

theorem cut_float {whole fraction rest : List Char} (hw : IsDigits whole) (hf : IsDigits fraction)
    (hrest : Delimited rest) (w : Bool) :
    cut w (whole ++ '.' :: fraction ++ rest) =
      lexeme .float (whole ++ '.' :: fraction) :: cut false rest := by
  obtain ⟨d, ds, rfl, hd, hds⟩ := hw.cons
  obtain ⟨e, es, rfl, he, hes⟩ := hf.cons
  have hstop : StopsAt Char.isDigit rest := hrest.stopsAt rfl
  have hpoint : StopsAt Char.isDigit ('.' :: e :: (es ++ rest)) := stopsAt_cons rfl _
  have hn : number d (ds ++ '.' :: e :: (es ++ rest)) =
      (lexeme .float (d :: ds ++ '.' :: e :: es), rest) := by
    unfold number
    rw [takeWhile_append hds hpoint, dropWhile_append hds hpoint]
    simp only [he, if_true, takeWhile_append hes hstop, dropWhile_append hes hstop]
  have hcs : d :: ds ++ '.' :: e :: es ++ rest = d :: (ds ++ '.' :: e :: (es ++ rest)) := by simp
  rw [hcs, cut_of_first ((first_digit hd _).trans hn), hrest.cut_eq]

theorem cut_string {q : Char} (hq : q = '"' ∨ q = '\'') {cs : List Char} (h : q ∉ cs)
    (rest : List Char) (w : Bool) :
    cut w (q :: cs ++ q :: rest) = lexeme .string (q :: cs ++ [q]) :: cut false rest := by
  have hcs : ∀ c ∈ cs, decide (c ≠ q) := fun c hc => by
    rw [decide_eq_true_eq]
    rintro rfl
    exact h hc
  have hstop : StopsAt (fun c => decide (c ≠ q)) (q :: rest) := stopsAt_cons (by simp) rest
  have hquoted : quoted q (cs ++ q :: rest) = (lexeme .string (q :: cs ++ [q]), rest) := by
    unfold quoted
    rw [dropWhile_append hcs hstop, takeWhile_append hcs hstop]
  have hf : first w q (cs ++ q :: rest) = quoted q (cs ++ q :: rest) := by
    rcases hq with rfl | rfl <;> rfl
  have hends : (lexeme .string (q :: cs ++ [q])).endsWord = false := by
    rw [endsWord, text, List.getLast?_append]
    rcases hq with rfl | rfl <;> rfl
  rw [List.cons_append, cut_of_first (hf.trans hquoted), hends]

end Bisaya.Piece
