import Bisaya.Proofs.Token.Scanner

namespace Bisaya

open Piece Text

namespace Scanner

def readEscape (s : Scanner) : Token × Scanner :=
  (⟨.escape, String.singleton s.readChar.ch, s.place⟩, s.readChar.readChar.readChar)

def readIdent (s : Scanner) : Token × Scanner :=
  let last := s.advanceWhile inWord
  let literal := last.slice s.position
  match Keyword.ofText? literal with
  | some k => (⟨.keyword k, literal, s.place⟩, last)
  | none => (⟨.ident, literal, s.place⟩, last)

def readNumber (s : Scanner) : Token × Scanner :=
  let whole := s.advanceWhile Char.isDigit
  if whole.ch = '.' ∧ (whole.peek 0).isDigit then
    let last := whole.readChar.advanceWhile Char.isDigit
    (⟨.float, last.slice s.position, s.place⟩, last)
  else (⟨.int, whole.slice s.position, s.place⟩, whole)

def readString (s : Scanner) : Token × Scanner :=
  let opened := s.readChar
  let last := opened.advanceWhile (· ≠ s.ch)
  if last.atEnd then
    (⟨.illegal, String.singleton s.ch ++ last.slice opened.position, s.place⟩, last)
  else (⟨.string, last.slice opened.position, s.place⟩, last.readChar)

def either (s : Scanner) (next : Char) (matched single : Mark) : Mark × Scanner :=
  if s.peek 0 = next then (matched, s.readChar) else (single, s)

/-- The mark in front and the scanner on its last character. -/
def mark? (s : Scanner) : Option (Mark × Scanner) :=
  match s.ch with
  | '=' => some (s.either '=' .equals .assign)
  | '<' =>
    if s.peek 0 = '=' then some (.lessEquals, s.readChar)
    else if s.peek 0 = '>' then some (.notEquals, s.readChar)
    else some (.less, s)
  | '>' => some (s.either '=' .greaterEquals .greater)
  | '+' => some (s.either '+' .increment .plus)
  | '-' => some (s.either '-' .decrement .minus)
  | '*' => some (.asterisk, s)
  | '/' => some (.slash, s)
  | '%' => some (.percent, s)
  | '&' => some (.ampersand, s)
  | '$' => some (.dollar, s)
  | ',' => some (.comma, s)
  | ':' => some (.colon, s)
  | '(' => some (.lparen, s)
  | ')' => some (.rparen, s)
  | '\x7b' => some (.lbrace, s)
  | '\x7d' => some (.rbrace, s)
  | '[' => some (.lbracket, s)
  | ']' => some (.rbracket, s)
  | _ => none

def readLexeme (s : Scanner) : Token × Scanner :=
  if s.ch = '[' ∧ s.peek 1 = ']' then s.readEscape
  else
    match s.mark? with
    | some (m, last) => (.ofKind (.mark m) s.place, last.readChar)
    | none =>
      if s.ch = '\'' || s.ch = '"' then s.readString
      else if startsWord s.ch then s.readIdent
      else if s.ch.isDigit then s.readNumber
      else (⟨.illegal, String.singleton s.ch, s.place⟩, s.readChar)

def nextToken (s : Scanner) : Token × Scanner :=
  if s.skip.atEnd then (.ofKind .eof s.skip.place, s.skip) else s.skip.readLexeme

/-- The token is that of the piece, and the scanner stands behind it. -/
def Gives (s : Scanner) (r : Token × Scanner) (piece : Piece × List Char) : Prop :=
  ∃ kind text, piece = (lexeme kind text, r.2.rest) ∧ r.1 = ⟨kind, literal kind text, s.place⟩ ∧
    s.Reads text r.2

section

variable {s s' : Scanner} {c : Char} {cs : List Char}

theorem Reads.gives {kind : Kind} {text rest : List Char} {word : String} (h : s.Reads text s')
    (hrest : s'.rest = rest) (hword : word = literal kind text) :
    s.Gives (⟨kind, word, s.place⟩, s') (lexeme kind text, rest) :=
  ⟨kind, text, by rw [hrest], by rw [hword], h⟩

theorem readEscape_gives {rest : List Char} (h : s.rest = '[' :: c :: ']' :: rest) :
    s.Gives s.readEscape (lexeme .escape ['[', c, ']'], rest) := by
  have hc := rest_readChar h
  have hclose := rest_readChar hc
  rw [readEscape, ch_of_rest hc]
  exact (Reads.cons h (.cons hc (.readChar hclose))).gives (rest_readChar hclose) rfl

theorem readIdent_gives (h : s.rest = c :: cs) (hc : startsWord c) :
    s.Gives s.readIdent (word (c :: cs.takeWhile inWord), cs.dropWhile inWord) := by
  have hin := inWord_of_startsWord hc
  have hread := advanceWhile_reads inWord s
  have hrest := rest_advanceWhile inWord s
  rw [h, List.takeWhile_cons_of_pos hin] at hread
  rw [h, List.dropWhile_cons_of_pos hin] at hrest
  simp only [readIdent, word, hread.slice_eq]
  cases Keyword.ofText? (String.ofList (c :: cs.takeWhile inWord)) with
  | some k => exact hread.gives hrest rfl
  | none => exact hread.gives hrest rfl

theorem exists_digit (hpoint : s.ch = '.') (hdigit : (s.peek 0).isDigit) :
    ∃ e rest, s.rest = '.' :: e :: rest := by
  have hrest : s.rest = s.ch :: s.readChar.rest := rest_of_ch (by rw [hpoint]; decide)
  rw [peek_of_rest hrest] at hdigit
  cases htail : s.readChar.rest with
  | nil =>
    rw [htail] at hdigit
    exact absurd hdigit (by decide)
  | cons e rest => exact ⟨e, rest, by rw [hrest, hpoint, htail]⟩

theorem readNumber_gives (h : s.rest = c :: cs) (hc : c.isDigit) :
    s.Gives s.readNumber (number c cs) := by
  have hwhole := advanceWhile_reads Char.isDigit s
  have hrest := rest_advanceWhile Char.isDigit s
  rw [h, List.takeWhile_cons_of_pos hc] at hwhole
  rw [h, List.dropWhile_cons_of_pos hc] at hrest
  unfold readNumber number
  split
  · rename_i e rest heq
    rw [heq] at hrest
    have htail := rest_readChar hrest
    dsimp only
    rw [ch_of_rest hrest, peek_of_rest hrest, List.getElem?_cons_zero, Option.getD_some]
    by_cases he : e.isDigit
    · have hfraction := advanceWhile_reads Char.isDigit (s.advanceWhile Char.isDigit).readChar
      rw [htail, List.takeWhile_cons_of_pos he] at hfraction
      have hread := hwhole.trans (.cons hrest hfraction)
      rw [if_pos he, if_pos ⟨rfl, he⟩]
      refine hread.gives ?_ hread.slice_eq
      rw [rest_advanceWhile, htail, List.dropWhile_cons_of_pos he]
    · rw [if_neg he, if_neg fun hp => he hp.2]
      exact hwhole.gives hrest hwhole.slice_eq
  · rename_i hne
    dsimp only
    rw [if_neg]
    · exact hwhole.gives hrest hwhole.slice_eq
    · rintro ⟨hpoint, hdigit⟩
      obtain ⟨e, rest, hpair⟩ := exists_digit hpoint hdigit
      exact hne e rest (hrest.symm.trans hpair)

theorem readString_gives (h : s.rest = c :: cs) : s.Gives s.readString (quoted c cs) := by
  have hread := advanceWhile_reads (· ≠ c) s.readChar
  have hrest := rest_advanceWhile (· ≠ c) s.readChar
  rw [rest_readChar h] at hread hrest
  have hopen := Reads.cons h hread
  simp only [readString, ch_of_rest h, hread.slice_eq]
  unfold quoted
  cases hcases : cs.dropWhile (· ≠ c) with
  | nil =>
    rw [hcases] at hrest
    have hall := List.takeWhile_append_dropWhile (p := fun d => decide (d ≠ c)) (l := cs)
    rw [hcases, List.append_nil] at hall
    rw [hall] at hopen ⊢
    rw [if_pos (atEnd_iff.2 hrest)]
    exact hopen.gives hrest (by simp [literal])
  | cons q rest =>
    rw [hcases] at hrest
    have hq : q = c := by
      have hhead := List.head?_dropWhile_not (fun d => decide (d ≠ c)) cs
      rw [hcases] at hhead
      simpa using hhead
    have hmore : ¬ (s.readChar.advanceWhile (· ≠ c)).atEnd = true := by
      rw [atEnd_iff, hrest]
      exact List.cons_ne_nil q rest
    rw [hq] at hrest
    rw [if_neg hmore]
    exact (hopen.trans (.readChar hrest)).gives (rest_readChar hrest) (by simp [literal])

/-- What a search for a mark has found is the longest mark in front. -/
def Finds (s : Scanner) : Option (Mark × Scanner) → Prop
  | none => markAt s.rest = none
  | some (m, last) => markAt s.rest = some m ∧ s.Reads m.text.toList last.readChar

theorem finds_single {m : Mark} (h : s.rest = c :: cs) (htext : m.text.toList = [c])
    (hm : markAt (c :: cs) = some m) : s.Finds (some (m, s)) := by
  refine ⟨by rw [h, hm], ?_⟩
  rw [htext]
  exact .readChar h

theorem finds_pair {m : Mark} {d : Char} (h : s.rest = c :: d :: cs)
    (htext : m.text.toList = [c, d]) (hm : markAt (c :: d :: cs) = some m) :
    s.Finds (some (m, s.readChar)) := by
  refine ⟨by rw [h, hm], ?_⟩
  rw [htext]
  exact .cons h (.readChar (rest_readChar h))

theorem exists_of_peek {d : Char} (h : s.rest = c :: cs) (hd : s.peek 0 = d) (hzero : d ≠ '\x00') :
    ∃ ds, cs = d :: ds := by
  rw [peek_of_rest h] at hd
  cases cs with
  | nil => exact absurd hd.symm hzero
  | cons e ds =>
    rw [List.getElem?_cons_zero, Option.getD_some] at hd
    exact ⟨ds, by rw [hd]⟩

theorem head?_of_peek {d : Char} (h : s.rest = c :: cs) (hd : s.peek 0 ≠ d) :
    cs.head? ≠ some d := by
  intro hhead
  rw [peek_of_rest h, ← List.head?_eq_getElem?, hhead] at hd
  exact hd rfl

theorem either_finds {d : Char} {matched single : Mark} (h : s.rest = c :: cs) (hzero : d ≠ '\x00')
    (hmatched : matched.text.toList = [c, d]) (hsingle : single.text.toList = [c])
    (hpair : ∀ ds, markAt (c :: d :: ds) = some matched)
    (hother : cs.head? ≠ some d → markAt (c :: cs) = some single) :
    s.Finds (some (s.either d matched single)) := by
  unfold either
  split
  · rename_i hd
    obtain ⟨ds, rfl⟩ := exists_of_peek h hd hzero
    exact finds_pair h hmatched (hpair ds)
  · rename_i hd
    exact finds_single h hsingle (hother (head?_of_peek h hd))

/-- The marks that one more character can extend, with the first and the second character. -/
def openMarks : List (Mark × Char × Char) :=
  [(.assign, '=', '='), (.greater, '>', '='), (.plus, '+', '+'), (.minus, '-', '-')]

theorem markAt_open {m : Mark} {d : Char} (hm : (m, c, d) ∈ openMarks) (h : cs.head? ≠ some d) :
    markAt (c :: cs) = some m := by
  simp only [openMarks, List.mem_cons, List.not_mem_nil, or_false, Prod.mk.injEq] at hm
  cases cs with
  | nil => rcases hm with ⟨rfl, rfl, -⟩ | ⟨rfl, rfl, -⟩ | ⟨rfl, rfl, -⟩ | ⟨rfl, rfl, -⟩ <;> rfl
  | cons e es =>
    have he : e ≠ d := by simpa using h
    rcases hm with ⟨rfl, rfl, rfl⟩ | ⟨rfl, rfl, rfl⟩ | ⟨rfl, rfl, rfl⟩ | ⟨rfl, rfl, rfl⟩ <;>
      simp [markAt, Mark.all, List.find?, List.isPrefixOf, Mark.text, beq_false_of_ne he.symm]

theorem markAt_less (hequals : cs.head? ≠ some '=') (hgreater : cs.head? ≠ some '>') :
    markAt ('<' :: cs) = some .less := by
  cases cs with
  | nil => rfl
  | cons e es =>
    have he : '=' ≠ e := by simpa using Ne.symm hequals
    have hg : '>' ≠ e := by simpa using Ne.symm hgreater
    simp [markAt, Mark.all, List.find?, List.isPrefixOf, Mark.text, beq_false_of_ne he,
      beq_false_of_ne hg]

theorem head?_of_markAt {m : Mark} (h : markAt (c :: cs) = some m) :
    m.text.toList.head? = some c := by
  have hne : m.text.toList ≠ [] := by cases m <;> decide
  have hhead := congrArg List.head? (markAt_text h)
  rwa [List.head?_append_of_ne_nil _ hne, List.head?_cons] at hhead

theorem mark?_finds (h : s.rest = c :: cs) : s.Finds s.mark? := by
  unfold mark?
  rw [ch_of_rest h]
  split
  · exact either_finds h (by decide) rfl rfl (fun _ => rfl) (markAt_open (by decide))
  · split
    · rename_i hd
      obtain ⟨ds, rfl⟩ := exists_of_peek h hd (by decide)
      exact finds_pair h rfl rfl
    · rename_i hequals
      split
      · rename_i hd
        obtain ⟨ds, rfl⟩ := exists_of_peek h hd (by decide)
        exact finds_pair h rfl rfl
      · rename_i hgreater
        exact finds_single h rfl (markAt_less (head?_of_peek h hequals) (head?_of_peek h hgreater))
  · exact either_finds h (by decide) rfl rfl (fun _ => rfl) (markAt_open (by decide))
  · exact either_finds h (by decide) rfl rfl (fun _ => rfl) (markAt_open (by decide))
  · exact either_finds h (by decide) rfl rfl (fun _ => rfl) (markAt_open (by decide))
  all_goals try exact finds_single h rfl rfl
  -- no mark begins with another character
  change markAt s.rest = none
  rw [h]
  by_contra hsome
  obtain ⟨m, hm⟩ := Option.ne_none_iff_exists'.1 hsome
  have hc := head?_of_markAt hm
  cases m <;> exact absurd (Option.some.inj hc).symm (by assumption)

theorem symbol_gives (h : s.rest = c :: cs) {m : Mark} {last : Scanner}
    (hm : s.mark? = some (m, last)) :
    s.Gives (.ofKind (.mark m) s.place, last.readChar) (symbol c cs) := by
  have hfinds := mark?_finds h
  rw [hm] at hfinds
  obtain ⟨hmark, hread⟩ := hfinds
  rw [h] at hmark
  have htext := markAt_text hmark
  rw [symbol, hmark]
  exact hread.gives (hread.rest_eq (h.trans htext.symm)) String.ofList_toList.symm

theorem illegal_gives (h : s.rest = c :: cs) (hm : s.mark? = none) :
    s.Gives (⟨.illegal, String.singleton c, s.place⟩, s.readChar) (symbol c cs) := by
  have hmark : markAt s.rest = none := by
    have hfinds := mark?_finds h
    rwa [hm] at hfinds
  rw [h] at hmark
  rw [symbol, hmark]
  exact (Reads.readChar h).gives (rest_readChar h) rfl

/-- A character with which a mark begins does not begin anything else. -/
theorem of_markAt {m : Mark} (h : markAt (c :: cs) = some m) :
    (c = '\'' || c = '"') = false ∧ startsWord c = false ∧ c.isDigit = false := by
  have hc := head?_of_markAt h
  cases m <;> (rw [← Option.some.inj hc]; decide)

theorem first_symbol {w : Bool} (hblank : isBlank c = false)
    (hcomment : opensComment w (c :: cs) = false) (hquote : (c = '\'' || c = '"') = false)
    (hword : startsWord c = false) (hdigit : c.isDigit = false)
    (hescape : ¬ (c = '[' ∧ cs[1]?.getD '\x00' = ']')) : first w c cs = symbol c cs := by
  unfold first
  simp only [hblank, hcomment, hquote, hword, hdigit, Bool.false_eq_true, if_false]
  split
  · exact absurd ⟨rfl, rfl⟩ hescape
  · rfl

theorem exists_escape (h : cs[1]?.getD '\x00' = ']') : ∃ x rest, cs = x :: ']' :: rest := by
  have hzero : '\x00' ≠ ']' := by decide
  cases cs with
  | nil => exact absurd h hzero
  | cons x ds =>
    cases ds with
    | nil => exact absurd h hzero
    | cons y rest =>
      rw [List.getElem?_cons_succ, List.getElem?_cons_zero, Option.getD_some] at h
      exact ⟨x, rest, by rw [h]⟩

theorem readLexeme_gives (h : s.rest = c :: cs) (hblank : isBlank c = false)
    (hcomment : opensComment s.followsWord (c :: cs) = false) :
    s.Gives s.readLexeme (first s.followsWord c cs) := by
  unfold readLexeme
  rw [ch_of_rest h, peek_of_rest h]
  by_cases hescape : c = '[' ∧ cs[1]?.getD '\x00' = ']'
  · rw [if_pos hescape]
    obtain ⟨rfl, hclose⟩ := hescape
    obtain ⟨x, rest, rfl⟩ := exists_escape hclose
    exact readEscape_gives h
  rw [if_neg hescape]
  -- marks come first here but last in `first`, which is the same since no word begins like one
  have hfinds := mark?_finds h
  cases hm : s.mark? with
  | some found =>
    rw [hm, Finds, h] at hfinds
    obtain ⟨hquote, hword, hdigit⟩ := of_markAt hfinds.1
    rw [first_symbol hblank hcomment hquote hword hdigit hescape]
    exact symbol_gives h hm
  | none =>
    dsimp only
    by_cases hquote : (c = '\'' || c = '"') = true
    · rw [if_pos hquote]
      unfold first
      rw [hblank, hcomment, if_pos hquote]
      exact readString_gives h
    by_cases hword : startsWord c = true
    · rw [if_neg hquote, if_pos hword]
      unfold first
      rw [hblank, hcomment, if_neg hquote, if_pos hword]
      exact readIdent_gives h hword
    by_cases hdigit : c.isDigit = true
    · rw [if_neg hquote, if_neg hword, if_pos hdigit, first_digit hdigit]
      exact readNumber_gives h hdigit
    rw [if_neg hquote, if_neg hword, if_neg hdigit, first_symbol hblank hcomment
      (Bool.eq_false_iff.2 hquote) (Bool.eq_false_iff.2 hword) (Bool.eq_false_iff.2 hdigit) hescape]
    exact illegal_gives h hm

end

/-- One token further: it is the end mark, or the first of those pending and less is left. -/
theorem nextToken_cases (s : Scanner) :
    (s.nextToken.1.kind = .eof ∧ s.pending = [s.nextToken.1]) ∨
      (s.nextToken.1.kind ≠ .eof ∧ s.pending = s.nextToken.1 :: s.nextToken.2.pending ∧
        s.nextToken.2.rest.length < s.rest.length) := by
  rw [pending_skip s]
  unfold nextToken
  by_cases hend : s.skip.atEnd = true
  · rw [if_pos hend, pending, atEnd_iff.1 hend, cut]
    exact .inl ⟨rfl, rfl⟩
  rw [if_neg hend]
  have hrest := rest_of_not_atEnd hend
  obtain ⟨hblank, hcomment⟩ := skip_settled s hrest
  obtain ⟨kind, text, hfirst, htoken, hread⟩ := readLexeme_gives hrest hblank hcomment
  have hpiece : s.skip.Reads (lexeme kind text).text s.skip.readLexeme.2 := hread
  have hcut := hpiece.cut_eq hrest hfirst
  refine .inr ⟨?_, ?_, ?_⟩
  · have hmem : lexeme kind text ∈ cut s.skip.followsWord s.skip.rest := by
      rw [hcut]
      exact List.mem_cons_self
    rw [htoken]
    exact kind_ne_eof hmem
  · rw [pending, hcut, tokens, htoken, pending, hread.place]
  · obtain ⟨front, hfront⟩ := exists_reads_skip s
    have hshort := length_first s.skip.followsWord s.skip.ch s.skip.readChar.rest
    rw [hfirst, ← hrest] at hshort
    have hlength := congrArg List.length hfront.rest
    rw [List.length_append] at hlength
    change s.skip.readLexeme.2.rest.length < _ at hshort
    omega

def scan (s : Scanner) : List Token :=
  if s.nextToken.1.kind = .eof then [s.nextToken.1] else s.nextToken.1 :: s.nextToken.2.scan
termination_by s.rest.length
decreasing_by
  rename_i h
  exact ((nextToken_cases s).resolve_left fun hend => h hend.1).2.2

theorem scan_eq_pending (s : Scanner) : s.scan = s.pending := by
  fun_induction scan s with
  | case1 s h =>
    rcases nextToken_cases s with ⟨-, hpending⟩ | ⟨hne, -⟩
    · exact hpending.symm
    · exact absurd h hne
  | case2 s h ih =>
    rcases nextToken_cases s with ⟨heof, -⟩ | ⟨-, hpending, -⟩
    · exact absurd heof h
    · rw [hpending, ih]

end Scanner

/-- Reading character by character finds the tokens of the text, each at its place. -/
theorem scan_start (source : String) : (Scanner.start source.toList).scan = tokenize source := by
  rw [Scanner.scan_eq_pending]
  rfl

end Bisaya
