import Bisaya.Proofs.Token.Cut

namespace Bisaya

open Number Piece Text

/-- The characters from number `start` up to number `stop`, which is left out. -/
structure Span where
  start : Nat
  stop : Nat
  deriving DecidableEq, Repr

def Span.text (source : List Char) (s : Span) : List Char :=
  (source.drop s.start).take (s.stop - s.start)

/-- Where the character number `k` stands: lines and columns are counted from the text before it. -/
def Position.ofOffset (source : List Char) (k : Nat) : Position :=
  ⟨1 + (source.take k).count '\n', 1 + ((source.take k).reverse.takeWhile (· ≠ '\n')).length⟩

/-- `text` has the form, and no longer text at its place has it. -/
def Longest (form : List Char → Prop) (text rest : List Char) : Prop :=
  form text ∧ ∀ more, more <+: rest → form (text ++ more) → more = []

def IsNumber (cs : List Char) : Prop := IsDigits cs ∨ IsFraction cs

def IsMark (cs : List Char) : Prop := ∃ m : Mark, cs = m.text.toList

def IsQuote (c : Char) : Prop := c = '\'' ∨ c = '"'

/-- A character that begins no piece of a program. -/
structure IsUnknown (c : Char) : Prop where
  blank : isBlank c = false
  word : startsWord c = false
  digit : c.isDigit = false
  quote : ¬ IsQuote c
  mark : ∀ m : Mark, m.text.toList.head? ≠ some c

/-- How the token of this kind and literal is written as `text` in front of `rest`. -/
def Kind.Writes (literal text rest : List Char) : Kind → Prop
  | .eof => False
  | .illegal => literal = text ∧
      ((∃ c, text = [c] ∧ IsUnknown c) ∨ ∃ q cs, text = q :: cs ∧ IsQuote q ∧ q ∉ cs ∧ rest = [])
  | .ident | .keyword _ => literal = text ∧ Longest IsWord text rest
  | .int | .float => literal = text ∧ Longest IsNumber text rest
  | .string => ∃ q, IsQuote q ∧ q ∉ literal ∧ text = q :: literal ++ [q]
  | .escape => ∃ c, literal = [c] ∧ text = ['[', c, ']']
  | .mark _ => literal = text ∧ Longest IsMark text rest

structure Token.Occupies (source : List Char) (t : Token) (s : Span) : Prop where
  nonempty : s.start < s.stop
  within : s.stop ≤ source.length
  position : t.position = .ofOffset source s.start
  spelled : t.Spelled
  writes : t.kind.Writes t.literal.toList (s.text source) (source.drop s.stop)

/-- Only blanks and comments stand before `rest`; a comment goes up to the end of its line. -/
inductive Skipped (rest : List Char) : List Char → Prop where
  | nil : Skipped rest rest
  | blank {c : Char} {cs : List Char} (hc : isBlank c) (h : Skipped rest cs) :
      Skipped rest (c :: cs)
  | comment {body cs : List Char} (hbody : '\n' ∉ body) (hend : ∀ c, cs.head? = some c → c = '\n')
      (h : Skipped rest cs) : Skipped rest ('-' :: '-' :: body ++ cs)

/-- From the character number `k` on, the spans follow each other with nothing lost in between. -/
def Spaced (source : List Char) : Nat → List Span → Prop
  | k, [] => Skipped [] (source.drop k)
  | k, s :: spans => k ≤ s.start ∧ Skipped (source.drop s.start) (source.drop k) ∧
      Spaced source s.stop spans

theorem Position.start_after (cs : List Char) :
    Position.start.after cs =
      ⟨1 + cs.count '\n', 1 + (cs.reverse.takeWhile (· ≠ '\n')).length⟩ := by
  -- a line feed ends the count of columns, so the text grows at its end
  induction cs using List.reverseRecOn with
  | nil => rfl
  | append_singleton cs c ih =>
    rw [after_append, ih]
    by_cases hc : c = '\n'
    · simp [after, next, hc, Nat.add_assoc]
    · simp [after, next, hc, Nat.add_comm]

theorem Position.ofOffset_append (before rest : List Char) :
    Position.ofOffset (before ++ rest) before.length = Position.start.after before := by
  rw [ofOffset, List.take_left, start_after]

theorem Skipped.trans {a b c : List Char} (h : Skipped b a) (h' : Skipped c b) : Skipped c a := by
  induction h with
  | nil => exact h'
  | blank hc _ ih => exact .blank hc ih
  | comment hbody hend _ ih => exact .comment hbody hend ih

theorem Spaced.of_skipped {source : List Char} {k k' : Nat} {spans : List Span} (hk : k ≤ k')
    (hskip : Skipped (source.drop k') (source.drop k)) (h : Spaced source k' spans) :
    Spaced source k spans := by
  cases spans with
  | nil => exact hskip.trans h
  | cons s spans => exact ⟨hk.trans h.1, hskip.trans h.2.1, h.2.2⟩

theorem Spaced.pairwise {source : List Char} {k : Nat} {ts : List Token} {spans : List Span}
    (h : Spaced source k spans) (hspans : List.Forall₂ (Token.Occupies source) ts spans) :
    (∀ s ∈ spans, k ≤ s.start) ∧ spans.Pairwise fun s t => s.stop ≤ t.start := by
  induction hspans generalizing k with
  | nil => simp
  | @cons t s ts spans hs _ ih =>
    obtain ⟨hk, -, hrest⟩ := h
    obtain ⟨hafter, hpairwise⟩ := ih hrest
    have hlt := hs.nonempty
    refine ⟨fun r hr => ?_, List.pairwise_cons.2 ⟨hafter, hpairwise⟩⟩
    rcases List.mem_cons.1 hr with rfl | hr
    · exact hk
    · have := hafter r hr
      omega

theorem Token.Occupies.kind_ne_eof {source : List Char} {t : Token} {s : Span}
    (h : t.Occupies source s) : t.kind ≠ .eof := by
  intro heof
  have hwrites := h.writes
  rw [heof] at hwrites
  exact hwrites

namespace Piece

theorem stopsAt_dropWhile (inClass : Char → Bool) (cs : List Char) :
    StopsAt inClass (cs.dropWhile inClass) := by
  intro c hc
  have h := List.head?_dropWhile_not inClass cs
  rw [hc] at h
  simpa using h

theorem StopsAt.of_prefix {inClass : Char → Bool} {rest more : List Char} (h : StopsAt inClass rest)
    (hbegins : more <+: rest) : StopsAt inClass more := by
  obtain ⟨tail, rfl⟩ := hbegins
  intro c hc
  exact h c (by rw [List.head?_append, hc]; rfl)

/-- A text that a character outside the class follows does not go on in the class. -/
theorem StopsAt.eq_nil {inClass : Char → Bool} {rest more : List Char} (h : StopsAt inClass rest)
    (hbegins : more <+: rest) (hmore : ∀ c ∈ more, inClass c) : more = [] := by
  cases more with
  | nil => rfl
  | cons c more =>
    obtain ⟨tail, rfl⟩ := hbegins
    have hc := h c rfl
    rw [hmore c (List.mem_cons_self ..)] at hc
    cases hc

theorem longest_word {c : Char} (hc : startsWord c) (cs : List Char) :
    Longest IsWord (c :: cs.takeWhile inWord) (cs.dropWhile inWord) := by
  refine ⟨⟨c, _, rfl, hc, fun x hx => List.mem_takeWhile_imp hx⟩, ?_⟩
  rintro more hbegins ⟨c', rest, heq, -, hrest⟩
  obtain ⟨-, rfl⟩ := List.cons.inj heq
  exact (stopsAt_dropWhile inWord cs).eq_nil hbegins fun x hx =>
    hrest x (List.mem_append_right _ hx)

theorem takeWhile_isDigit_point {whole : List Char} (h : IsDigits whole) (rest : List Char) :
    (whole ++ '.' :: rest).takeWhile Char.isDigit = whole :=
  takeWhile_append h.2 (stopsAt_cons rfl rest)

/-- A number goes on behind its digits only with a point and a further digit. -/
theorem longest_int {whole rest : List Char} (h : IsDigits whole)
    (hstop : StopsAt Char.isDigit rest)
    (hpoint : ∀ e more, rest = '.' :: e :: more → e.isDigit = false) :
    Longest IsNumber whole rest := by
  refine ⟨Or.inl h, fun more hbegins hform => ?_⟩
  rcases hform with hdigits | ⟨whole', fraction, hwhole', hfraction, heq⟩
  · exact hstop.eq_nil hbegins fun c hc => hdigits.2 c (List.mem_append_right _ hc)
  · exfalso
    have hsame := congrArg (List.takeWhile Char.isDigit) heq
    rw [takeWhile_append h.2 (hstop.of_prefix hbegins), takeWhile_isDigit_point hwhole'] at hsame
    subst hsame
    obtain rfl := List.append_cancel_left heq
    obtain ⟨e, es, rfl, he, -⟩ := hfraction.cons
    obtain ⟨tail, htail⟩ := hbegins
    have hnot := hpoint e _ htail.symm
    rw [he] at hnot
    cases hnot

theorem longest_float {whole fraction rest : List Char} (hw : IsDigits whole)
    (hf : IsDigits fraction) (hstop : StopsAt Char.isDigit rest) :
    Longest IsNumber (whole ++ '.' :: fraction) rest := by
  refine ⟨Or.inr ⟨whole, fraction, hw, hf, rfl⟩, fun more hbegins hform => ?_⟩
  rw [List.append_assoc, List.cons_append] at hform
  rcases hform with hdigits | ⟨whole', fraction', hwhole', hfraction', heq⟩
  · exact absurd (hdigits.2 '.' (by simp)) (by decide)
  · have hsame := congrArg (List.takeWhile Char.isDigit) heq
    rw [takeWhile_isDigit_point hw, takeWhile_isDigit_point hwhole'] at hsame
    subst hsame
    have htail := List.append_cancel_left heq
    obtain ⟨-, rfl⟩ := List.cons.inj htail
    exact hstop.eq_nil hbegins fun c hc => hfraction'.2 c (List.mem_append_right _ hc)

theorem find?_pairwise {α : Type} {R : α → α → Prop} {p : α → Bool} {l : List α} {a b : α}
    (hl : l.Pairwise R) (ha : l.find? p = some a) (hb : b ∈ l) (hp : p b) : a = b ∨ R a b := by
  obtain ⟨-, before, after, rfl, hbefore⟩ := List.find?_eq_some_iff_append.1 ha
  rcases List.mem_append.1 hb with hb | hb
  · have hnot := hbefore b hb
    simp [hp] at hnot
  · rcases List.mem_cons.1 hb with rfl | hb
    · exact Or.inl rfl
    · exact Or.inr ((List.pairwise_cons.1 (List.pairwise_append.1 hl).2.1).1 b hb)

theorem longest_mark {cs : List Char} {m : Mark} (h : markAt cs = some m) :
    Longest IsMark m.text.toList (cs.drop m.text.toList.length) := by
  refine ⟨⟨m, rfl⟩, ?_⟩
  rintro more ⟨tail, htail⟩ ⟨m', hm'⟩
  have hsorted : Mark.all.Pairwise fun a b => b.text.toList.length ≤ a.text.toList.length := by
    decide
  have hbegins : m'.text.toList.isPrefixOf cs := by
    rw [List.isPrefixOf_iff_prefix, ← hm']
    exact ⟨tail, by rw [List.append_assoc, htail, markAt_text h]⟩
  have hlength := congrArg List.length hm'
  rw [List.length_append] at hlength
  apply List.eq_nil_of_length_eq_zero
  rcases find?_pairwise hsorted h m'.mem_all hbegins with rfl | hle <;> omega

theorem symbol_writes {c : Char} (hblank : isBlank c = false) (hword : startsWord c = false)
    (hdigit : c.isDigit = false) (hquote : ¬ IsQuote c) (cs : List Char) :
    ∃ kind text, (symbol c cs).1 = lexeme kind text ∧
      kind.Writes (literal kind text).toList text (symbol c cs).2 := by
  unfold symbol
  split
  · rename_i m hm
    exact ⟨.mark m, _, rfl, by simp [literal], longest_mark hm⟩
  · rename_i hnone
    refine ⟨.illegal, [c], rfl, by simp [literal], Or.inl ⟨c, rfl, ?_⟩⟩
    refine ⟨hblank, hword, hdigit, hquote, fun m hhead => ?_⟩
    -- the first character of a mark is a mark itself
    have hsingle : ∀ m : Mark, ∃ m' ∈ Mark.all, m'.text.toList = m.text.toList.take 1 := by
      intro m
      cases m <;> decide
    obtain ⟨m', hmem, hm'⟩ := hsingle m
    rw [List.take_one, hhead] at hm'
    have hno := List.find?_eq_none.1 hnone m' hmem
    simp [hm', List.isPrefixOf] at hno

theorem word_writes {c : Char} (hc : startsWord c) (cs : List Char) :
    ∃ kind text, word (c :: cs.takeWhile inWord) = lexeme kind text ∧
      kind.Writes (literal kind text).toList text (cs.dropWhile inWord) := by
  have hlongest := longest_word hc cs
  unfold word
  split
  · exact ⟨_, _, rfl, by simp [literal], hlongest⟩
  · exact ⟨_, _, rfl, by simp [literal], hlongest⟩

theorem number_writes {d : Char} (hd : d.isDigit) (cs : List Char) :
    ∃ kind text, (number d cs).1 = lexeme kind text ∧
      kind.Writes (literal kind text).toList text (number d cs).2 := by
  have hwhole := isDigits_takeWhile hd cs
  have hstop := stopsAt_dropWhile Char.isDigit cs
  unfold number
  dsimp only
  split
  · rename_i e rest hrest
    rw [hrest] at hstop
    split
    · rename_i he
      have hfraction := isDigits_takeWhile he rest
      exact ⟨.float, _, rfl, by simp [literal],
        longest_float hwhole hfraction (stopsAt_dropWhile Char.isDigit rest)⟩
    · rename_i he
      refine ⟨.int, _, rfl, by simp [literal], longest_int hwhole hstop ?_⟩
      intro e' more heq
      obtain ⟨rfl, -⟩ := List.cons.inj (List.cons.inj heq).2
      simpa using he
  · rename_i hrest
    refine ⟨.int, _, rfl, by simp [literal], longest_int hwhole hstop ?_⟩
    intro e more heq
    exact absurd heq (hrest e more)

theorem quoted_writes {q : Char} (hq : IsQuote q) (cs : List Char) :
    ∃ kind text, (quoted q cs).1 = lexeme kind text ∧
      kind.Writes (literal kind text).toList text (quoted q cs).2 := by
  unfold quoted
  split
  · rename_i hnone
    refine ⟨.illegal, _, rfl, by simp [literal], Or.inr ⟨q, cs, rfl, hq, fun hmem => ?_, rfl⟩⟩
    simpa using List.dropWhile_eq_nil_iff.1 hnone q hmem
  · refine ⟨.string, _, rfl, q, hq, fun hmem => ?_, by simp [literal]⟩
    have hmem' : q ∈ cs.takeWhile (· ≠ q) := by simpa [literal] using hmem
    simpa using List.mem_takeWhile_imp hmem'

/-- What the first piece of a text is, given what stands behind it. -/
def IsFirst (rest : List Char) : Piece → Prop
  | blank c => isBlank c
  | comment text => ∃ body, text = '-' :: '-' :: body ∧ '\n' ∉ body ∧
      ∀ c, rest.head? = some c → c = '\n'
  | lexeme kind text => kind.Writes (literal kind text).toList text rest

theorem comment_isFirst {w : Bool} {c : Char} {cs : List Char}
    (h : opensComment w (c :: cs) = true) :
    IsFirst (cs.dropWhile (· ≠ '\n')) (comment (c :: cs.takeWhile (· ≠ '\n'))) := by
  unfold opensComment at h
  split at h
  · rename_i rest heq
    obtain ⟨rfl, rfl⟩ := List.cons.inj heq
    refine ⟨rest.takeWhile (· ≠ '\n'), rfl, fun hmem => ?_, fun c hc => ?_⟩
    · simpa using List.mem_takeWhile_imp hmem
    · simpa using stopsAt_dropWhile (· ≠ '\n') _ c hc
  · cases h

theorem first_isFirst (w : Bool) (c : Char) (cs : List Char) :
    (first w c cs).1.IsFirst (first w c cs).2 := by
  have hlexeme {x : Piece × List Char}
      (h : ∃ kind text, x.1 = lexeme kind text ∧
        kind.Writes (literal kind text).toList text x.2) : x.1.IsFirst x.2 := by
    obtain ⟨kind, text, hpiece, hwrites⟩ := h
    rw [hpiece]
    exact hwrites
  unfold first
  split
  · assumption
  rename_i hblank
  split
  · rename_i hcomment
    exact comment_isFirst hcomment
  split
  · rename_i hq
    exact hlexeme (quoted_writes (by simpa [IsQuote] using hq) cs)
  rename_i hquote
  split
  · rename_i hc
    exact hlexeme (word_writes hc cs)
  rename_i hword
  split
  · rename_i hd
    exact hlexeme (number_writes hd cs)
  rename_i hdigit
  split
  · exact ⟨_, by simp [literal], rfl⟩
  · exact hlexeme (symbol_writes (by simpa using hblank) (by simpa using hword)
      (by simpa using hdigit) (by simpa [IsQuote] using hquote) _)

/-- The spans of the pieces behind `before`. -/
theorem tokens_cut_spans (w : Bool) (before cs : List Char) : ∃ ts spans,
    tokens (Position.start.after before) (cut w cs) =
      ts ++ [.ofKind .eof (.ofOffset (before ++ cs) (before ++ cs).length)] ∧
    List.Forall₂ (Token.Occupies (before ++ cs)) ts spans ∧
    Spaced (before ++ cs) before.length spans := by
  fun_induction cut w cs generalizing before with
  | case1 w =>
    have hend := Position.ofOffset_append before []
    refine ⟨[], [], ?_, .nil, ?_⟩
    · rw [List.append_nil] at hend ⊢
      rw [hend]
      rfl
    · rw [Spaced, List.append_nil, List.drop_length]
      exact .nil
  | case2 w c cs piece ih =>
    have hfirst : piece.IsFirst (first w c cs).2 := first_isFirst w c cs
    have hspelled : piece.Spelled := first_spelled w c cs
    have hne : piece.text ≠ [] := first_text_ne_nil w c cs
    have htext : piece.text ++ (first w c cs).2 = c :: cs := first_text w c cs
    clear_value piece
    generalize (first w c cs).2 = rest at hfirst htext ih
    obtain ⟨ts, spans, htokens, hspans, hspaced⟩ := ih (before ++ piece.text)
    have hsource : before ++ piece.text ++ rest = before ++ c :: cs := by
      rw [List.append_assoc, htext]
    rw [hsource, Position.after_append] at htokens
    rw [hsource] at hspans hspaced
    have hdrop : (before ++ c :: cs).drop before.length = piece.text ++ rest := by
      rw [List.drop_left, htext]
    have hdrop' : (before ++ c :: cs).drop (before ++ piece.text).length = rest := by
      rw [← hsource, List.drop_left]
    -- a piece that is no lexeme only moves on
    have hmoves (hskip : Skipped rest (piece.text ++ rest)) :
        Spaced (before ++ c :: cs) before.length spans :=
      hspaced.of_skipped (by simp) (by rwa [hdrop, hdrop'])
    cases piece with
    | blank x => exact ⟨ts, spans, htokens, hspans, hmoves (.blank hfirst .nil)⟩
    | comment text =>
      obtain ⟨body, rfl, hbody, hend⟩ := hfirst
      exact ⟨ts, spans, htokens, hspans, hmoves (.comment hbody hend .nil)⟩
    | lexeme kind text =>
      have hlt : 0 < text.length := List.length_pos_iff.2 hne
      have hspan : Span.text (before ++ c :: cs) ⟨before.length, (before ++ text).length⟩ =
          text := by simp [Span.text, hdrop, Piece.text]
      have hoccupies : Token.Occupies (before ++ c :: cs)
          ⟨kind, literal kind text, Position.start.after before⟩
          ⟨before.length, (before ++ text).length⟩ := by
        refine ⟨by simpa using hlt, ?_, (Position.ofOffset_append ..).symm, hspelled, ?_⟩
        · rw [← hsource]
          exact (List.prefix_append _ rest).length_le
        · rw [hspan]
          exact hdrop'.symm ▸ hfirst
      exact ⟨_ :: ts, _ :: spans, congrArg _ htokens, .cons hoccupies hspans, le_rfl, .nil, hspaced⟩

end Piece

/-- The tokens of a text stand on spans of it that are not empty and follow each other. Each span
holds the token as it is written, at the place that the token names, and reaches as far as it can;
what is between the spans and behind the last is blanks and comments, and then comes the end
mark. -/
theorem tokenize_spans (source : String) : ∃ ts spans,
    tokenize source =
      ts ++ [.ofKind .eof (.ofOffset source.toList source.toList.length)] ∧
    (∀ t ∈ ts, t.kind ≠ .eof) ∧
    List.Forall₂ (Token.Occupies source.toList) ts spans ∧
    (spans.Pairwise fun s t => s.stop ≤ t.start) ∧
    Spaced source.toList 0 spans := by
  obtain ⟨ts, spans, htokens, hspans, hspaced⟩ := tokens_cut_spans false [] source.toList
  have hkinds : List.Forall₂ (fun t s => t.kind ≠ .eof ∧ t.Occupies source.toList s) ts spans :=
    hspans.imp fun t s h => ⟨h.kind_ne_eof, h⟩
  exact ⟨ts, spans, htokens, ((List.forall₂_and_left ts spans).1 hkinds).1, hspans,
    (hspaced.pairwise hspans).2, hspaced⟩

end Bisaya
