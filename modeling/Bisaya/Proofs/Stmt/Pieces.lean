import Bisaya.Parse.Stmt
import Bisaya.Proofs.Stmt.WellFormed
import Bisaya.Proofs.Token.Cut
import Bisaya.Stmt.Printer

namespace Bisaya

open Number Piece

namespace Value

def signPieces (negative : Bool) : List Piece := if negative then [ofMark .minus] else []

def quoteOf (s : String) : Char := if '"' ∈ s.toList then '\'' else '"'

def pieces : Value → List Piece
  | null => [ofName "null"]
  | numero n => signPieces (n.toInt < 0) ++ [lexeme .int (digits n.toInt.natAbs)]
  | tipik x => signPieces (isNegative x) ++ [lexeme .float (Tipik.magnitudeText (magnitudeBits x))]
  | letra s => [lexeme .string (quoteOf s :: s.toList ++ [quoteOf s])]
  | tinuod b => [lexeme .string ('"' :: (boolText b).toList ++ ['"'])]

/-- A value that a program text can hold. -/
def Printable : Value → Prop
  | null => False
  | numero _ => True
  | tipik x => isFinite x
  | letra s => OneQuote s
  | tinuod _ => True

theorem IsLiteral.printable {v : Value} (h : v.IsLiteral) (hf : FiniteAll [v]) : v.Printable := by
  cases v with
  | null => exact h
  | numero n => trivial
  | tipik x => exact hf x (by simp)
  | letra s => exact h.1
  | tinuod b => trivial

theorem IsInitial.printable {v : Value} {ty : DataType} (h : v.IsInitial ty) (hf : FiniteAll [v]) :
    v.Printable := by
  cases v with
  | null => exact absurd h.1 (by simp [type?])
  | numero n => trivial
  | tipik x => exact hf x (by simp)
  | letra s => exact h.2 s rfl
  | tinuod b => trivial

theorem quoteFor_toList (s : String) : (quoteFor s).toList = [quoteOf s] := by
  unfold quoteFor quoteOf
  split <;> rfl

theorem quoteOf_eq (s : String) : quoteOf s = '"' ∨ quoteOf s = '\'' := by
  unfold quoteOf
  split
  · exact Or.inr rfl
  · exact Or.inl rfl

theorem quoteOf_not_mem {s : String} (h : OneQuote s) : quoteOf s ∉ s.toList := by
  unfold quoteOf
  split
  · rename_i hmem
    exact h.resolve_left (not_not.2 hmem)
  · rename_i hmem
    exact hmem

theorem cut_signed {negative : Bool} {cs rest : List Char} (w : Bool)
    (hcs : ∃ d ds, cs = d :: ds ∧ d.isDigit) {ps : List Piece}
    (h : ∀ w, cut w (cs ++ rest) = ps ++ cut false rest) :
    cut w (Tipik.signed negative cs ++ rest) = signPieces negative ++ ps ++ cut false rest := by
  cases negative with
  | false => exact h w
  | true =>
    obtain ⟨d, ds, rfl, hd⟩ := hcs
    have hdash : d ≠ '-' := by rintro rfl; exact absurd hd (by decide)
    have hminus := cut_minus hdash w (ds ++ rest)
    simp only [Tipik.signed, if_true, List.cons_append, signPieces, List.nil_append] at h ⊢
    rw [hminus, h]

theorem cut_source {v : Value} (h : v.Printable) {rest : List Char} (hrest : Delimited rest)
    (w : Bool) : cut w (v.source.toList ++ rest) = v.pieces ++ cut false rest := by
  cases v with
  | null => exact h.elim
  | numero n =>
    have hd := isDigits_digits n.toInt.natAbs
    obtain ⟨d, ds, hcons, hdigit, -⟩ := hd.cons
    simp only [source, String.toList_ofList, Numero.text_eq, pieces]
    exact cut_signed w ⟨d, ds, hcons, hdigit⟩ fun w => cut_int hd hrest w
  | tipik x =>
    have hx : magnitudeBits x < infinityBits := by simpa [Printable, isFinite] using h
    obtain ⟨whole, fraction, hw, hf, htext, -⟩ := Tipik.magnitudeText_eq hx
    obtain ⟨d, ds, hcons, hdigit, -⟩ := hw.cons
    simp only [source, String.toList_ofList, Tipik.source_eq h, pieces]
    apply cut_signed w
    · exact ⟨d, ds ++ '.' :: fraction, by rw [htext, hcons]; rfl, hdigit⟩
    · intro w
      rw [htext]
      exact cut_float hw hf hrest w
  | letra s =>
    have hcut := cut_string (quoteOf_eq s) (quoteOf_not_mem h) rest w
    simpa [source, quoteFor_toList, pieces] using hcut
  | tinuod b =>
    have hmem : '"' ∉ (boolText b).toList := by cases b <;> decide
    have hcut := cut_string (Or.inl rfl) hmem rest w
    simpa [source, pieces] using hcut

/-- A literal begins with no sign, so that a sign before it stands alone. -/
theorem source_head {v : Value} (h : v.IsLiteral) (hf : FiniteAll [v]) :
    ∃ c cs, v.source.toList = c :: cs ∧ c ≠ '+' ∧ c ≠ '-' := by
  have hdigits {cs : List Char} (hcs : IsDigits cs) (rest : List Char) :
      ∃ c cs', cs ++ rest = c :: cs' ∧ c ≠ '+' ∧ c ≠ '-' := by
    have hsign : ∀ k : Fin 10, digitChar k ≠ '+' ∧ digitChar k ≠ '-' := by decide
    obtain ⟨d, ds, rfl, hd, -⟩ := hcs.cons
    obtain ⟨k, rfl⟩ := eq_digitChar hd
    exact ⟨_, _, rfl, hsign k⟩
  cases v with
  | null => exact h.elim
  | numero n =>
    have hn : ¬ n.toInt < 0 := not_lt.2 h
    obtain ⟨c, cs, hcs, hc⟩ := hdigits (isDigits_digits n.toInt.natAbs) []
    refine ⟨c, cs, ?_, hc⟩
    simpa [source, Numero.text_eq, hn, Tipik.signed] using hcs
  | tipik x =>
    have hx := hf x (by simp)
    have hlt : magnitudeBits x < infinityBits := by simpa [isFinite] using hx
    obtain ⟨whole, fraction, hw, -, htext, -⟩ := Tipik.magnitudeText_eq hlt
    obtain ⟨c, cs, hcs, hc⟩ := hdigits hw ('.' :: fraction)
    refine ⟨c, cs, ?_, hc⟩
    have hn : isNegative x = false := h
    simpa [source, Tipik.source_eq hx, hn, Tipik.signed, htext] using hcs
  | letra s =>
    refine ⟨quoteOf s, s.toList ++ [quoteOf s], by simp [source, quoteFor_toList], ?_⟩
    rcases quoteOf_eq s with hq | hq <;> rw [hq] <;> decide
  | tinuod b => exact ⟨'"', (boolText b).toList ++ ['"'], by simp [source], by decide, by decide⟩

end Value

abbrev BinOp.piece (op : BinOp) : Piece := lexeme op.kind op.text.toList

theorem BinOp.cut_text (op : BinOp) (w : Bool) (rest : List Char) :
    cut w (op.text.toList ++ ' ' :: rest) = op.piece :: cut false (' ' :: rest) := by
  rcases op with op | op | op <;> cases op
  all_goals first
    | exact cut_spaced (by decide) w rest
    | exact cut_keyword_cons _ rfl (by decide) w rest

namespace Expr

def pieces : Expr → List Piece
  | lit v => v.pieces
  | var name => [ofName name]
  | unary .dili e => [ofMark .lparen, ofKeyword .dili, blank ' '] ++ e.pieces ++ [ofMark .rparen]
  | unary .plus e => [ofMark .lparen, ofMark .plus] ++ e.pieces ++ [ofMark .rparen]
  | unary .minus e => [ofMark .lparen, ofMark .minus] ++ e.pieces ++ [ofMark .rparen]
  | binary op l r =>
    ofMark .lparen :: l.pieces ++ [blank ' ', op.piece, blank ' '] ++ r.pieces ++ [ofMark .rparen]

theorem toList_dili (e : Expr) : (unary .dili e).text.toList = Mark.lparen.text.toList ++
    (Keyword.dili.text.toList ++ ' ' :: (e.text.toList ++ Mark.rparen.text.toList)) := by
  simp only [text, String.toList_append, List.append_assoc]
  rfl

theorem toList_plus (e : Expr) : (unary .plus e).text.toList = Mark.lparen.text.toList ++
    '+' :: (e.text.toList ++ Mark.rparen.text.toList) := by
  simp only [text, String.toList_append, List.append_assoc]
  rfl

theorem toList_minus (e : Expr) : (unary .minus e).text.toList = Mark.lparen.text.toList ++
    '-' :: (e.text.toList ++ Mark.rparen.text.toList) := by
  simp only [text, String.toList_append, List.append_assoc]
  rfl

theorem toList_binary (op : BinOp) (l r : Expr) : (binary op l r).text.toList =
    Mark.lparen.text.toList ++ (l.text.toList ++ ' ' :: (op.text.toList ++
      ' ' :: (r.text.toList ++ Mark.rparen.text.toList))) := by
  simp only [text, String.toList_append, List.append_assoc]
  rfl

theorem text_head {e : Expr} (h : e.WellFormed) (hf : FiniteAll e.literals) :
    ∃ c cs, e.text.toList = c :: cs ∧ c ≠ '+' ∧ c ≠ '-' := by
  have hparen : '(' ≠ '+' ∧ '(' ≠ '-' := by decide
  cases e with
  | lit v => exact Value.source_head h hf
  | var name =>
    obtain ⟨c, cs, hcs, hc, -⟩ := h.word
    refine ⟨c, cs, hcs, ?_, ?_⟩ <;> rintro rfl <;> exact absurd hc (by decide)
  | unary op e =>
    cases op with
    | plus => exact ⟨'(', _, toList_plus e, hparen⟩
    | minus => exact ⟨'(', _, toList_minus e, hparen⟩
    | dili => exact ⟨'(', _, toList_dili e, hparen⟩
  | binary op l r => exact ⟨'(', _, toList_binary op l r, hparen⟩

theorem cut_text {e : Expr} (h : e.WellFormed) (hf : FiniteAll e.literals) {rest : List Char}
    (hrest : Delimited rest) (w : Bool) :
    cut w (e.text.toList ++ rest) = e.pieces ++ cut false rest := by
  induction e generalizing rest w with
  | lit v => exact Value.cut_source (h.printable hf) hrest w
  | var name =>
    rw [text, cut_name h (hrest.stopsAt rfl), hrest.cut_eq]
    rfl
  | unary op e ih =>
    have he := ih h hf (delimited_rparen rest)
    -- a sign is cut off alone because none follows it
    obtain ⟨c, cs, hcs, hplus, hminus⟩ := @text_head e h hf
    cases op with
    | dili =>
      simp only [toList_dili, List.append_assoc, List.cons_append]
      rw [cut_closed (by decide), cut_keyword_cons _ rfl (by decide), cut_space, he,
        cut_closed (by decide)]
      simp [pieces]
    | plus =>
      simp only [toList_plus, List.append_assoc, List.cons_append]
      rw [cut_closed (by decide), hcs, List.cons_append, cut_plus hplus, ← List.cons_append, ← hcs,
        he, cut_closed (by decide)]
      simp [pieces]
    | minus =>
      simp only [toList_minus, List.append_assoc, List.cons_append]
      rw [cut_closed (by decide), hcs, List.cons_append, cut_minus hminus, ← List.cons_append,
        ← hcs, he, cut_closed (by decide)]
      simp [pieces]
  | binary op l r ihl ihr =>
    obtain ⟨hfl, hfr⟩ := finiteAll_append.1 hf
    simp only [toList_binary, List.append_assoc, List.cons_append]
    rw [cut_closed (by decide), ihl h.1 hfl (delimited_space _), cut_space, BinOp.cut_text,
      cut_space, ihr h.2 hfr (delimited_rparen _), cut_closed (by decide)]
    simp [pieces]

end Expr

/-- A list cut piece by piece: the separator ends what stands before it. -/
theorem cut_intercalate {α : Type} {text : α → String} {pieces : α → List Piece} {sep : String}
    {between : List Piece} (hends : ∀ cs, Delimited (sep.toList ++ cs))
    (hsep : ∀ cs, cut false (sep.toList ++ cs) = between ++ cut false cs) {xs : List α}
    (hne : xs ≠ [])
    (hxs : ∀ x ∈ xs, ∀ rest, Delimited rest →
      cut false ((text x).toList ++ rest) = pieces x ++ cut false rest)
    {rest : List Char} (hrest : Delimited rest) :
    cut false ((sep.intercalate (xs.map text)).toList ++ rest) =
      between.intercalate (xs.map pieces) ++ cut false rest := by
  induction xs with
  | nil => exact absurd rfl hne
  | cons x xs ih =>
    have hx := hxs x (List.mem_cons_self ..)
    cases xs with
    | nil => simpa [List.intercalate] using hx rest hrest
    | cons y ys =>
      have ih := ih (List.cons_ne_nil y ys) fun z hz => hxs z (List.mem_cons_of_mem x hz)
      simp only [String.toList_intercalate, List.map_cons, List.intercalate_cons_cons] at ih ⊢
      rw [List.append_assoc, List.append_assoc, hx _ (hends _), hsep, ih]
      simp only [List.append_assoc]

def targetPieces (name : String) : List Piece :=
  [ofName name, blank ' ', ofMark .assign, blank ' ']

theorem cut_target {name : String} (h : IsName name) (w : Bool) (rest : List Char) :
    cut w ((name ++ " = ").toList ++ rest) = targetPieces name ++ cut false rest := by
  have htext : (name ++ " = ").toList ++ rest =
      name.toList ++ ' ' :: (Mark.assign.text.toList ++ ' ' :: rest) := by
    rw [String.toList_append, List.append_assoc]
    rfl
  rw [htext, cut_name h (stopsAt_cons rfl _), cut_space, cut_spaced (by decide), cut_space]
  rfl

def Item.pieces (i : Item) : List Piece :=
  match i.initial with
  | some v => targetPieces i.name ++ v.pieces
  | none => [ofName i.name]

theorem Item.cut_text {i : Item} {ty : DataType} (h : i.WellFormed ty)
    (hf : FiniteAll i.initial.toList) {rest : List Char} (hrest : Delimited rest) (w : Bool) :
    cut w (i.text.toList ++ rest) = i.pieces ++ cut false rest := by
  obtain ⟨name, initial⟩ := i
  cases initial with
  | none =>
    rw [text, pieces, cut_name h.1 (hrest.stopsAt rfl), hrest.cut_eq]
    rfl
  | some v =>
    have hv : v.Printable := (h.2 v rfl).printable hf
    rw [text, pieces, String.toList_append, List.append_assoc, cut_target h.1,
      Value.cut_source hv hrest, List.append_assoc]

def Assignment.pieces (a : Assignment) : List Piece :=
  a.targets.flatMap targetPieces ++ a.value.pieces

theorem cut_targets {names : List String} (h : ∀ name ∈ names, IsName name) (rest : List Char) :
    cut false ((String.join (names.map (· ++ " = "))).toList ++ rest) =
      names.flatMap targetPieces ++ cut false rest := by
  induction names with
  | nil => rfl
  | cons t ts ih =>
    have iht := ih fun name hname => h name (List.mem_cons_of_mem t hname)
    rw [List.map_cons, String.join_cons, String.toList_append, List.append_assoc,
      cut_target (h t (List.mem_cons_self ..)), iht, List.flatMap_cons, List.append_assoc]

theorem Assignment.cut_text {a : Assignment} (h : a.WellFormed) (hf : FiniteAll a.value.literals)
    {rest : List Char} (hrest : Delimited rest) :
    cut false (a.text.toList ++ rest) = a.pieces ++ cut false rest := by
  rw [text, pieces, String.toList_append, List.append_assoc, cut_targets h.names,
    Expr.cut_text h.value hf hrest, List.append_assoc]

def Step.pieces (s : Step) : List Piece :=
  match s.direction with
  | .up => [ofName s.name, ofMark .increment]
  | .down => [ofName s.name, ofMark .decrement]

def Closed (rest : List Char) : Prop := ∃ c cs, rest = c :: cs ∧ c ∈ [')', '\n']

theorem Closed.delimited {rest : List Char} (h : Closed rest) : Delimited rest := by
  obtain ⟨c, cs, rfl, hc⟩ := h
  exact ⟨c, cs, rfl, (by decide : [')', '\n'] ⊆ [' ', ')', ',', '\n']) hc⟩

theorem Closed.endsDecrement {rest : List Char} (h : Closed rest) : endsDecrement rest = true := by
  obtain ⟨c, cs, rfl, hc⟩ := h
  rcases List.mem_pair.1 hc with rfl | rfl <;> rfl

theorem Step.cut_text {s : Step} (h : IsName s.name) {rest : List Char} (hrest : Closed rest) :
    cut false (s.text.toList ++ rest) = s.pieces ++ cut false rest := by
  obtain ⟨name, direction⟩ := s
  cases direction with
  | up =>
    rw [text, pieces, String.toList_append, List.append_assoc]
    change cut false (name.toList ++ '+' :: '+' :: rest) = _
    rw [cut_name h (stopsAt_cons rfl _), cut_increment]
    rfl
  | down =>
    rw [text, pieces, String.toList_append, List.append_assoc]
    change cut false (name.toList ++ '-' :: '-' :: rest) = _
    rw [cut_name h (stopsAt_cons rfl _), cut_decrement hrest.endsDecrement]
    rfl

def Update.pieces : Update → List Piece
  | assign a => a.pieces
  | step s => s.pieces

theorem Update.cut_text {u : Update} (h : u.WellFormed) (hf : FiniteAll u.literals)
    {rest : List Char} (hrest : Closed rest) :
    cut false (u.text.toList ++ rest) = u.pieces ++ cut false rest := by
  cases u with
  | assign a => exact Assignment.cut_text h hf hrest.delimited
  | step s => exact Step.cut_text h hrest

def Segment.pieces : Segment → List Piece
  | newline => [ofMark .dollar]
  | escape c => [lexeme .escape ['[', c, ']']]
  | expr e => e.pieces

theorem Segment.cut_text {s : Segment} (h : s.WellFormed) (hf : FiniteAll s.literals)
    {rest : List Char} (hrest : Delimited rest) (w : Bool) :
    cut w (s.text.toList ++ rest) = s.pieces ++ cut false rest := by
  cases s with
  | newline => exact @cut_closed .dollar (by decide) w rest
  | escape c =>
    have htext : (escape c).text.toList = ['[', c, ']'] := by simp [text]
    rw [htext]
    exact cut_escape w c rest
  | expr e => exact Expr.cut_text h hf hrest w

def DataType.keyword : DataType → Keyword
  | numero => .numero
  | tipik => .tipik
  | letra => .letra
  | tinuod => .tinuod

theorem DataType.keyword_text (ty : DataType) : ty.keyword.text = ty.name := by cases ty <;> rfl

def commaPieces : List Piece := [ofMark .comma, blank ' ']

def blockPieces (lines : List Piece) : List Piece :=
  [ofKeyword .pundok, ofMark .lbrace, blank '\n'] ++ lines ++ [ofMark .rbrace]

mutual

def Stmt.pieces : Stmt → List Piece
  | .declare ty items =>
    [ofKeyword .mugna, blank ' ', ofKeyword ty.keyword, blank ' '] ++
      commaPieces.intercalate (items.map Item.pieces)
  | .assign a => a.pieces
  | .step s => s.pieces
  | .print segments =>
    [ofKeyword .ipakita, ofMark .colon, blank ' '] ++
      [blank ' ', ofMark .ampersand, blank ' '].intercalate (segments.map Segment.pieces)
  | .read names =>
    [ofKeyword .dawat, ofMark .colon, blank ' '] ++
      commaPieces.intercalate (names.map fun name => [ofName name])
  | .choose test body rest =>
    [ofKeyword .kung, blank ' ', ofMark .lparen] ++ test.pieces ++ [ofMark .rparen, blank ' '] ++
      blockPieces (bodyPieces body) ++ rest.pieces
  | .loop init test update body =>
    [ofKeyword .alang, blank ' ', ofKeyword .sa, blank ' ', ofMark .lparen] ++ init.pieces ++
      commaPieces ++ test.pieces ++ commaPieces ++ update.pieces ++ [ofMark .rparen, blank ' '] ++
        blockPieces (bodyPieces body)

def Chain.pieces : Chain → List Piece
  | .done => []
  | .wala body =>
    [blank '\n', ofKeyword .kung, blank ' ', ofKeyword .wala, blank ' '] ++
      blockPieces (bodyPieces body)
  | .dili test body rest =>
    [blank '\n', ofKeyword .kung, blank ' ', ofKeyword .dili, blank ' ', ofMark .lparen] ++
      test.pieces ++ [ofMark .rparen, blank ' '] ++ blockPieces (bodyPieces body) ++ rest.pieces

def bodyPieces : List Stmt → List Piece
  | [] => []
  | s :: rest => s.pieces ++ blank '\n' :: bodyPieces rest

end

def Program.pieces (p : Program) : List Piece :=
  [ofKeyword .sugod, blank '\n'] ++ bodyPieces p ++ [ofKeyword .katapusan, blank '\n']

theorem cut_comma (cs : List Char) :
    cut false (", ".toList ++ cs) = commaPieces ++ cut false cs := by
  have htext : ", ".toList ++ cs = Mark.comma.text.toList ++ ' ' :: cs := rfl
  rw [htext, cut_closed (by decide), cut_space]
  rfl

theorem delimited_comma (cs : List Char) : Delimited (", ".toList ++ cs) :=
  ⟨',', ' ' :: cs, rfl, by decide⟩

theorem cut_colon (cs : List Char) : cut false (':' :: cs) = ofMark .colon :: cut false cs :=
  @cut_closed .colon (by decide) false cs

theorem delimited_ampersand (cs : List Char) : Delimited (" & ".toList ++ cs) :=
  ⟨' ', '&' :: ' ' :: cs, rfl, by decide⟩

theorem cut_ampersand (cs : List Char) : cut false (" & ".toList ++ cs) =
    [blank ' ', ofMark .ampersand, blank ' '] ++ cut false cs := by
  have htext : " & ".toList ++ cs = ' ' :: (Mark.ampersand.text.toList ++ ' ' :: cs) := rfl
  rw [htext, cut_space, cut_closed (by decide), cut_space]
  rfl

theorem cut_block {lines : String} {ps : List Piece}
    (h : ∀ rest, cut false (lines.toList ++ rest) = ps ++ cut false rest) (w : Bool)
    (rest : List Char) :
    cut w ((blockText lines).toList ++ rest) = blockPieces ps ++ cut false rest := by
  have htext : (blockText lines).toList ++ rest = Keyword.pundok.text.toList ++ '\x7b' ::
      '\n' :: (lines.toList ++ (Mark.rbrace.text.toList ++ rest)) := by
    simp only [blockText, String.toList_append, List.append_assoc]
    rfl
  have hopen (cs : List Char) : cut false ('\x7b' :: cs) = ofMark .lbrace :: cut false cs :=
    @cut_closed .lbrace (by decide) false cs
  rw [htext, cut_keyword_cons _ rfl (by decide), hopen, cut_newline, h, cut_closed (by decide)]
  simp only [blockPieces, List.append_assoc, List.cons_append, List.nil_append]

theorem cut_test {test : Expr} (h : test.WellFormed) (hf : FiniteAll test.literals) (w : Bool)
    (rest : List Char) :
    cut w (("(" ++ test.text ++ ") ").toList ++ rest) =
      ofMark .lparen :: test.pieces ++ [ofMark .rparen, blank ' '] ++ cut false rest := by
  have htext : ("(" ++ test.text ++ ") ").toList ++ rest = Mark.lparen.text.toList ++
      (test.text.toList ++ (Mark.rparen.text.toList ++ ' ' :: rest)) := by
    simp only [String.toList_append, List.append_assoc]
    rfl
  rw [htext, cut_closed (by decide), Expr.cut_text h hf (delimited_rparen _),
    cut_closed (by decide), cut_space]
  simp

/-- The text is cut into the pieces if its line ends behind it. -/
def CutsLine (text : String) (ps : List Piece) : Prop :=
  ∀ rest, cut false (text.toList ++ '\n' :: rest) = ps ++ cut false ('\n' :: rest)

/-- The text is cut into the pieces, whatever stands behind it. -/
def CutsText (text : String) (ps : List Piece) : Prop :=
  ∀ rest, cut false (text.toList ++ rest) = ps ++ cut false rest

theorem closed_newline (rest : List Char) : Closed ('\n' :: rest) := ⟨'\n', rest, rfl, by decide⟩

theorem declare_cut {ty : DataType} {items : List Item} (h : (Stmt.declare ty items).WellFormed)
    (hf : FiniteAll (Stmt.declare ty items).literals) :
    CutsLine (Stmt.declare ty items).text (Stmt.declare ty items).pieces := by
  intro rest
  have hitems := cut_intercalate delimited_comma cut_comma h.1
    (fun i hi _ hrest => Item.cut_text (h.2 i hi) (hf.of_initial hi) hrest false)
    (closed_newline rest).delimited
  have htext : (Stmt.declare ty items).text.toList = Keyword.mugna.text.toList ++ ' ' ::
      (ty.keyword.text.toList ++ ' ' :: (", ".intercalate (items.map Item.text)).toList) := by
    rw [ty.keyword_text]
    -- opened by `change`, here and below: the equations of the mutual printer are slow to build
    change ("MUGNA " ++ ty.name ++ " " ++ ", ".intercalate (items.map Item.text)).toList = _
    simp only [String.toList_append, List.append_assoc]
    rfl
  simp only [htext, List.append_assoc, List.cons_append]
  rw [cut_keyword_cons _ rfl (by decide), cut_space, cut_keyword_cons _ rfl (by decide), cut_space,
    hitems]
  rfl

theorem print_cut {segments : List Segment} (h : (Stmt.print segments).WellFormed)
    (hf : FiniteAll (Stmt.print segments).literals) :
    CutsLine (Stmt.print segments).text (Stmt.print segments).pieces := by
  intro rest
  have hsegments := cut_intercalate delimited_ampersand cut_ampersand h.1
    (fun s hs _ hrest => Segment.cut_text (h.2 s hs) (hf.of_mem hs) hrest false)
    (closed_newline rest).delimited
  have htext : (Stmt.print segments).text.toList = Keyword.ipakita.text.toList ++ ':' ::
      ' ' :: (" & ".intercalate (segments.map Segment.text)).toList := by
    change ("IPAKITA: " ++ " & ".intercalate (segments.map Segment.text)).toList = _
    simp only [String.toList_append]
    rfl
  simp only [htext, List.append_assoc, List.cons_append]
  rw [cut_keyword_cons _ rfl (by decide), cut_colon, cut_space, hsegments]
  rfl

theorem read_cut {names : List String} (h : (Stmt.read names).WellFormed) :
    CutsLine (Stmt.read names).text (Stmt.read names).pieces := by
  intro rest
  have hnames := cut_intercalate delimited_comma cut_comma h.1
    (fun name hname _ hrest => cut_name_delimited (h.2 name hname) hrest)
    (closed_newline rest).delimited
  rw [List.map_id'] at hnames
  have htext : (Stmt.read names).text.toList = Keyword.dawat.text.toList ++ ':' ::
      ' ' :: (", ".intercalate names).toList := by
    change ("DAWAT: " ++ ", ".intercalate names).toList = _
    simp only [String.toList_append]
    rfl
  simp only [htext, List.append_assoc, List.cons_append]
  rw [cut_keyword_cons _ rfl (by decide), cut_colon, cut_space, hnames]
  rfl

section Body

variable {test : Expr} {body : List Stmt} {chain : Chain}

theorem choose_cut (htest : test.WellFormed) (hf : FiniteAll test.literals)
    (hbody : CutsText (linesText body) (bodyPieces body))
    (hchain : CutsLine chain.text chain.pieces) :
    CutsLine (Stmt.choose test body chain).text (Stmt.choose test body chain).pieces := by
  intro rest
  have htext : (Stmt.choose test body chain).text.toList = Keyword.kung.text.toList ++ ' ' ::
      (("(" ++ test.text ++ ") ").toList ++
        ((blockText (linesText body)).toList ++ chain.text.toList)) := by
    change ("KUNG (" ++ test.text ++ ") " ++ blockText (linesText body) ++ chain.text).toList = _
    simp only [String.toList_append, List.append_assoc]
    rfl
  simp only [htext, List.append_assoc, List.cons_append]
  rw [cut_keyword_cons _ rfl (by decide), cut_space, cut_test htest hf, cut_block hbody,
    hchain rest]
  simp only [Stmt.pieces, List.append_assoc, List.cons_append, List.nil_append]

theorem loop_cut {init : Assignment} {update : Update} (hinit : init.WellFormed)
    (hfinit : FiniteAll init.value.literals) (htest : test.WellFormed)
    (hftest : FiniteAll test.literals) (hupdate : update.WellFormed)
    (hfupdate : FiniteAll update.literals) (hbody : CutsText (linesText body) (bodyPieces body)) :
    CutsLine (Stmt.loop init test update body).text (Stmt.loop init test update body).pieces := by
  intro rest
  have htext : (Stmt.loop init test update body).text.toList = Keyword.alang.text.toList ++ ' ' ::
      (Keyword.sa.text.toList ++ ' ' :: (Mark.lparen.text.toList ++ (init.text.toList ++
        (", ".toList ++ (test.text.toList ++ (", ".toList ++ (update.text.toList ++
          (Mark.rparen.text.toList ++ ' ' :: (blockText (linesText body)).toList)))))))) := by
    change ("ALANG SA (" ++ init.text ++ ", " ++ test.text ++ ", " ++ update.text ++ ") " ++
      blockText (linesText body)).toList = _
    simp only [String.toList_append, List.append_assoc]
    rfl
  have hclose (cs : List Char) : Closed (Mark.rparen.text.toList ++ cs) :=
    ⟨')', cs, rfl, by decide⟩
  simp only [htext, List.append_assoc, List.cons_append]
  rw [cut_keyword_cons _ rfl (by decide), cut_space, cut_keyword_cons _ rfl (by decide), cut_space,
    cut_closed (by decide), Assignment.cut_text hinit hfinit (delimited_comma _), cut_comma,
    Expr.cut_text htest hftest (delimited_comma _), cut_comma,
    Update.cut_text hupdate hfupdate (hclose _), cut_closed (by decide), cut_space, cut_block hbody]
  simp only [Stmt.pieces, List.append_assoc, List.cons_append, List.nil_append]

theorem wala_cut (hbody : CutsText (linesText body) (bodyPieces body)) :
    CutsLine (Chain.wala body).text (Chain.wala body).pieces := by
  intro rest
  have htext : (Chain.wala body).text.toList = '\n' :: (Keyword.kung.text.toList ++ ' ' ::
      (Keyword.wala.text.toList ++ ' ' :: (blockText (linesText body)).toList)) := by
    change ("\nKUNG WALA " ++ blockText (linesText body)).toList = _
    simp only [String.toList_append]
    rfl
  simp only [htext, List.append_assoc, List.cons_append]
  rw [cut_newline, cut_keyword_cons _ rfl (by decide), cut_space,
    cut_keyword_cons _ rfl (by decide), cut_space, cut_block hbody]
  simp only [Chain.pieces, List.cons_append, List.nil_append]

theorem dili_cut (htest : test.WellFormed) (hf : FiniteAll test.literals)
    (hbody : CutsText (linesText body) (bodyPieces body))
    (hchain : CutsLine chain.text chain.pieces) :
    CutsLine (Chain.dili test body chain).text (Chain.dili test body chain).pieces := by
  intro rest
  have htext : (Chain.dili test body chain).text.toList = '\n' :: (Keyword.kung.text.toList ++
      ' ' :: (Keyword.dili.text.toList ++ ' ' :: (("(" ++ test.text ++ ") ").toList ++
        ((blockText (linesText body)).toList ++ chain.text.toList)))) := by
    change ("\nKUNG DILI (" ++ test.text ++ ") " ++ blockText (linesText body) ++
      chain.text).toList = _
    simp only [String.toList_append, List.append_assoc]
    rfl
  simp only [htext, List.append_assoc, List.cons_append]
  rw [cut_newline, cut_keyword_cons _ rfl (by decide), cut_space,
    cut_keyword_cons _ rfl (by decide), cut_space, cut_test htest hf, cut_block hbody, hchain rest]
  simp only [Chain.pieces, List.append_assoc, List.cons_append, List.nil_append]

end Body

mutual

theorem Stmt.cut_text (s : Stmt) (h : s.WellFormed) (hf : FiniteAll s.literals) :
    CutsLine s.text s.pieces := by
  cases s with
  | declare ty items => exact declare_cut h hf
  | assign a => exact fun rest => Assignment.cut_text h hf (closed_newline rest).delimited
  | step s => exact fun rest => Step.cut_text h (closed_newline rest)
  | print segments => exact print_cut h hf
  | read names => exact read_cut h
  | choose test body chain =>
    obtain ⟨htest, hbody, hchain⟩ := h
    obtain ⟨hf, hfchain⟩ := finiteAll_append.1 hf
    obtain ⟨hftest, hfbody⟩ := finiteAll_append.1 hf
    exact choose_cut htest hftest (linesText_cut body hbody hfbody)
      (Chain.cut_text chain hchain hfchain)
  | loop init test update body =>
    obtain ⟨hinit, htest, hupdate, hbody⟩ := h
    obtain ⟨hf, hfbody⟩ := finiteAll_append.1 hf
    obtain ⟨hf, hfupdate⟩ := finiteAll_append.1 hf
    obtain ⟨hfinit, hftest⟩ := finiteAll_append.1 hf
    exact loop_cut hinit hfinit htest hftest hupdate hfupdate (linesText_cut body hbody hfbody)

theorem Chain.cut_text (c : Chain) (h : c.WellFormed) (hf : FiniteAll c.literals) :
    CutsLine c.text c.pieces := by
  cases c with
  | done => exact fun rest => rfl
  | wala body => exact wala_cut (linesText_cut body h hf)
  | dili test body chain =>
    obtain ⟨htest, hbody, hchain⟩ := h
    obtain ⟨hf, hfchain⟩ := finiteAll_append.1 hf
    obtain ⟨hftest, hfbody⟩ := finiteAll_append.1 hf
    exact dili_cut htest hftest (linesText_cut body hbody hfbody)
      (Chain.cut_text chain hchain hfchain)

theorem linesText_cut (ss : List Stmt) (h : bodyWellFormed ss)
    (hf : FiniteAll (bodyLiterals ss)) : CutsText (linesText ss) (bodyPieces ss) := by
  cases ss with
  | nil => exact fun rest => rfl
  | cons s ss =>
    intro rest
    obtain ⟨hs, hss⟩ := h
    obtain ⟨hfs, hfss⟩ := finiteAll_append.1 hf
    have htext : (linesText (s :: ss)).toList = s.text.toList ++ '\n' :: (linesText ss).toList := by
      change (s.text ++ "\n" ++ linesText ss).toList = _
      simp only [String.toList_append, List.append_assoc]
      rfl
    rw [htext, List.append_assoc, List.cons_append, Stmt.cut_text s hs hfs _, cut_newline,
      linesText_cut ss hss hfss rest]
    simp only [bodyPieces, List.append_assoc, List.cons_append]

end

theorem Program.cut_text {p : Program} (h : p.WellFormed) (hf : FiniteAll p.literals) :
    cut false p.text.toList = p.pieces := by
  have htext : p.text.toList = Keyword.sugod.text.toList ++ '\n' ::
      ((linesText p).toList ++ (Keyword.katapusan.text.toList ++ ['\n'])) := by
    simp only [Program.text, String.toList_append, List.append_assoc]
    rfl
  rw [htext, cut_keyword_cons _ rfl (by decide), cut_newline, linesText_cut p h hf _,
    cut_keyword_cons _ rfl (by decide), cut_newline]
  simp [Program.pieces, cut]

end Bisaya
