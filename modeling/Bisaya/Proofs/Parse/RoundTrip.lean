import Bisaya.Proofs.Parse.PrintedExpr
import Bisaya.Proofs.Parse.WellFormed

namespace Bisaya

namespace Parse

open Piece

theorem literal_magnitude (name : String) {x : Tipik} (h : Number.isFinite x) {t : Token}
    (hkind : t.kind = .float)
    (ht : t.literal.toList = Tipik.magnitudeText (Number.magnitudeBits x)) :
    literal name .tipik (Number.isNegative x) t = .ok (.tipik x) := by
  have hlt : Number.magnitudeBits x < Number.infinityBits := by simpa [Number.isFinite] using h
  have hself := Number.ofBits_magnitudeBits hlt.le
  simp only [literal, hkind, ht, Tipik.read?_magnitudeText hlt]
  cases hx : Number.isNegative x with
  | false =>
    rw [hx] at hself
    simp [hself]
  | true =>
    rw [hx] at hself
    simp [Number.neg_ofBits_false hlt.le, hself]

theorem initial_of_literal {name : String} {ty : DataType} {v : Value} {negative : Bool}
    {kind : Kind} {text : List Char} (hnum : negative → isNumeric ty)
    (hkind : kind ≠ .mark .minus ∧ kind ≠ .mark .plus)
    (h : ∀ p, literal name ty negative ⟨kind, Piece.literal kind text, p⟩ = .ok v)
    (ps : List Piece) :
    Yields (initial name ty) (Value.signPieces negative ++ lexeme kind text :: ps) v ps := by
  intro p
  cases negative with
  | true =>
    refine ⟨(p.after Mark.minus.text.toList).after text, ?_⟩
    simp [Value.signPieces, tokens_lexeme, initial, hnum rfl, h]
  | false =>
    refine ⟨p.after text, ?_⟩
    simp [Value.signPieces, tokens_lexeme, initial, hkind.1, hkind.2, h]

theorem initial_yields (name : String) {ty : DataType} {v : Value} (h : v.IsInitial ty)
    (hf : FiniteAll [v]) (ps : List Piece) : Yields (initial name ty) (v.pieces ++ ps) v ps := by
  obtain ⟨hty, -⟩ := h
  cases v with
  | null => simp [Value.type?] at hty
  | numero n =>
    obtain rfl : DataType.numero = ty := by simpa [Value.type?] using hty
    rw [Value.pieces, List.append_assoc]
    refine initial_of_literal (fun _ => rfl) (by decide) (fun p => ?_) ps
    simp only [literal, Piece.literal, String.toList_ofList, Numero.read?_signed]
  | tipik x =>
    obtain rfl : DataType.tipik = ty := by simpa [Value.type?] using hty
    rw [Value.pieces, List.append_assoc]
    refine initial_of_literal (fun _ => rfl) (by decide) (fun p => ?_) ps
    exact literal_magnitude name (hf x (by simp)) rfl String.toList_ofList
  | letra s =>
    obtain rfl : DataType.letra = ty := by simpa [Value.type?] using hty
    refine @initial_of_literal name _ _ false _ _ (by simp) (by decide) (fun p => ?_) ps
    simp [literal, Piece.literal]
  | tinuod b =>
    obtain rfl : DataType.tinuod = ty := by simpa [Value.type?] using hty
    refine @initial_of_literal name _ _ false _ _ (by simp) (by decide) (fun p => ?_) ps
    have hlit : Piece.literal .string ('"' :: (Value.boolText b).toList ++ ['"']) =
        Value.boolText b := by
      simp [Piece.literal]
    simp only [literal, hlit]
    cases b <;> rfl

theorem item_yields {ty : DataType} {i : Item} (h : i.WellFormed ty)
    (hf : FiniteAll i.initial.toList) {ps : List Piece} (hnext : nextKind ps ≠ .mark .assign) :
    Yields (item ty) (i.pieces ++ ps) i ps := by
  obtain ⟨s, initial⟩ := i
  cases initial with
  | none =>
    exact (name_yields s ps).bind (Yields.ite_neg hnext (Yields.pure _ ps))
  | some v =>
    have hv := initial_yields s (h.2 v rfl) hf ps
    have hread : Yields (fun ts => initial s ty ts >>= fun x => .ok (Item.mk s (some x.1), x.2))
        (v.pieces ++ ps) (Item.mk s (some v)) ps := hv.bind (Yields.pure (Item.mk s (some v)) ps)
    have hrest : Yields _ (blank ' ' :: ofMark .assign :: blank ' ' :: (v.pieces ++ ps)) _ _ :=
      .blank ' ' (.tail (.blank ' ' hread))
    exact (name_yields s _).bind (Yields.ite_pos rfl hrest)

/-- What may stand behind a printed statement: the next one, or the end of the block. -/
def lineKinds : List Kind :=
  [.ident, .keyword .mugna, .keyword .ipakita, .keyword .dawat, .keyword .kung, .keyword .alang,
    .mark .rbrace, .keyword .katapusan]

theorem any_nextIs {kinds : List Kind} {ps : List Piece} (h : nextKind ps ∉ kinds) (p : Position) :
    kinds.any (nextIs · (tokens p ps)) = false := by
  simp only [List.any_eq_false, nextIs_tokens, decide_eq_true_eq]
  rintro kind hkind rfl
  exact h hkind

/-- The targets after the first ones and the value. A value that is a lone name is told from one
more target by what follows it. -/
theorem assignment_yields {commas : Bool} {names : List String} {value : Expr}
    (hvalue : value.WellFormed) (hf : FiniteAll value.literals) {ps : List Piece}
    (hop : BinOp.ofKind? (nextKind ps) = none) (hnext : nextKind ps ∉ separators commas)
    (targets : List String) :
    Yields (assignment commas targets)
      (blank ' ' :: ofMark .assign :: blank ' ' ::
        (names.flatMap targetPieces ++ (value.pieces ++ ps)))
      ⟨targets ++ names, value⟩ ps := by
  have hassign : Kind.mark .assign ∈ separators commas := by cases commas <;> decide
  induction names generalizing targets with
  | nil =>
    obtain ⟨kind, text, more, hpieces, -, hname⟩ := pieces_head hvalue hf
    have hread : Yields (fun ts => expr ts >>= fun x => .ok (Assignment.mk targets x.1, x.2))
        (value.pieces ++ ps) (Assignment.mk targets value) ps :=
      (expr_yields hvalue hf hop).bind (Yields.pure (Assignment.mk targets value) ps)
    intro p
    obtain ⟨q, hq⟩ := hread (((p.after [' ']).after Mark.assign.text.toList).after [' '])
    refine ⟨q, ?_⟩
    -- only a lone name can be taken for a target, and nothing separates it from a value here
    have hvalue (p : Position) :
        ¬ (kind = .ident ∧ (separators commas).any (nextIs · (tokens p (more ++ ps)))) := by
      rintro ⟨hkind, hany⟩
      rw [hname hkind, List.nil_append, any_nextIs hnext] at hany
      exact absurd hany (by decide)
    rw [hpieces] at hq ⊢
    simp only [List.flatMap_nil, List.nil_append, List.append_nil, List.cons_append, tokens_blank,
      tokens_lexeme] at hq ⊢
    rw [assignment, if_pos hassign, if_neg (by simpa using hvalue _), if_neg (by simp)]
    exact hq
  | cons name names ih =>
    have ih := ih (targets ++ [name])
    rw [List.append_assoc, List.singleton_append] at ih
    intro p
    have hlit : Piece.literal .ident name.toList = name := String.ofList_toList
    obtain ⟨q, hq⟩ := ih ((((p.after [' ']).after Mark.assign.text.toList).after [' ']).after
      name.toList)
    refine ⟨q, ?_⟩
    have hsep (p : Position) (qs : List Piece) :
        (separators commas).any (nextIs · (tokens p (blank ' ' :: ofMark .assign :: qs))) :=
      List.any_eq_true.2 ⟨_, hassign, by rw [nextIs_tokens]; rfl⟩
    simp only [List.flatMap_cons, targetPieces, List.cons_append, List.nil_append] at hq ⊢
    rw [tokens_blank, tokens_lexeme, tokens_blank, tokens_lexeme, hlit, assignment, if_pos hassign,
      if_pos ⟨rfl, Or.inr (hsep _ _)⟩]
    exact hq

theorem assignment_pieces {a : Assignment} (h : a.targets ≠ []) : ∃ first others,
    a = ⟨first :: others, a.value⟩ ∧ a.pieces = ofName first :: blank ' ' :: ofMark .assign ::
      blank ' ' :: (others.flatMap targetPieces ++ a.value.pieces) := by
  obtain ⟨targets, value⟩ := a
  obtain ⟨first, others, rfl⟩ := List.exists_cons_of_ne_nil h
  exact ⟨first, others, rfl, rfl⟩

/-- An assignment after its first name, which also decides that it is no increment. -/
theorem assignment_first {commas : Bool} {a : Assignment} (h : a.WellFormed)
    (hf : FiniteAll a.value.literals) {ps : List Piece}
    (hop : BinOp.ofKind? (nextKind ps) = none) (hnext : nextKind ps ∉ separators commas) :
    ∃ first more, a.pieces = ofName first :: more ∧
      Yields (assignment commas [first]) (more ++ ps) a ps ∧
      ∀ p, step? first (tokens p (more ++ ps)) = none := by
  obtain ⟨first, others, ha, hpieces⟩ := assignment_pieces h.ne_nil
  refine ⟨first, _, hpieces, ?_, fun p => rfl⟩
  have hread := @assignment_yields _ others _ h.value hf _ hop hnext [first]
  rw [List.singleton_append, ← ha] at hread
  simpa only [List.cons_append, List.append_assoc] using hread

theorem update_first {commas : Bool} {u : Update} (h : u.WellFormed) (hf : FiniteAll u.literals)
    {ps : List Piece} (hop : BinOp.ofKind? (nextKind ps) = none)
    (hnext : nextKind ps ∉ separators commas) :
    ∃ first more, u.pieces = ofName first :: more ∧
      Yields (update commas first) (more ++ ps) u ps := by
  cases u with
  | assign a =>
    obtain ⟨first, more, hpieces, hread, hstep⟩ := assignment_first h hf hop hnext
    refine ⟨first, more, hpieces, fun p => ?_⟩
    obtain ⟨q, hq⟩ := hread p
    exact ⟨q, by rw [update, hstep, hq]; rfl⟩
  | step s =>
    obtain ⟨name, direction⟩ := s
    cases direction with
    | up => exact ⟨name, [ofMark .increment], rfl, fun p => ⟨_, rfl⟩⟩
    | down => exact ⟨name, [ofMark .decrement], rfl, fun p => ⟨_, rfl⟩⟩

theorem segment_operand {t : Token} (h : startsOperand t.kind) (rest : List Token) :
    segment (t :: rest) = expr (t :: rest) >>= fun x => .ok (.expr x.1, x.2) := by
  obtain ⟨kind, spelling, p⟩ := t
  cases kind with
  | escape => exact absurd h Bool.false_ne_true
  | mark m =>
    cases m with
    | dollar => exact absurd h Bool.false_ne_true
    | _ => rfl
  | _ => rfl

theorem segment_yields {s : Segment} (h : s.WellFormed) (hf : FiniteAll s.literals)
    {ps : List Piece} (hop : BinOp.ofKind? (nextKind ps) = none) :
    Yields segment (s.pieces ++ ps) s ps := by
  cases s with
  | newline => exact fun p => ⟨_, rfl⟩
  | escape c =>
    refine fun p => ⟨p.after ['[', c, ']'], ?_⟩
    have hlit : Piece.literal .escape ['[', c, ']'] = String.ofList [c] := rfl
    simp only [Segment.pieces, List.cons_append, List.nil_append, tokens_lexeme, hlit, segment,
      String.toList_ofList]
  | expr e =>
    obtain ⟨kind, text, more, hpieces, hstarts, -⟩ := pieces_head h hf
    have hread : Yields (fun ts => expr ts >>= fun x => .ok (Segment.expr x.1, x.2))
        (e.pieces ++ ps) (Segment.expr e) ps :=
      (expr_yields h hf hop).bind (Yields.pure (Segment.expr e) ps)
    intro p
    obtain ⟨q, hq⟩ := hread p
    refine ⟨q, ?_⟩
    rw [Segment.pieces]
    rw [hpieces, List.cons_append, tokens_lexeme] at hq ⊢
    rw [segment_operand hstarts]
    exact hq

theorem test_yields {e : Expr} (h : e.WellFormed) (hf : FiniteAll e.literals) {ps : List Piece}
    (hnext : BinOp.ofKind? (nextKind ps) = none) :
    Yields expr (ofMark .lparen :: (e.pieces ++ ofMark .rparen :: ps)) e ps := by
  intro p
  have hpos := count_pieces_pos h hf
  obtain ⟨n, hn⟩ : ∃ n, count (ofMark .lparen :: (e.pieces ++ ofMark .rparen :: ps)) = n + 3 :=
    ⟨count (e.pieces ++ ofMark .rparen :: ps) - 2, by simp; omega⟩
  have hinner : Yields (exprAbove (n + 3) 0) (e.pieces ++ ofMark .rparen :: ps) e
      (ofMark .rparen :: ps) :=
    exprAbove_yields (operand_yields h hf (by simp at hn ⊢; omega)) rfl
  rw [expr, length_tokens, hn]
  exact exprAbove_yields (bracketed_yields hinner) hnext p

/-- The statements of a block are read up to its closing brace. -/
def BlockYields (inner : Inner) (lines : List Piece) (body : List Stmt) (ps : List Piece) : Prop :=
  ∀ opened, Yields (inner (.block opened)) (lines ++ ofMark .rbrace :: ps) body ps

theorem block_yields {inner : Inner} {lines ps : List Piece} {body : List Stmt}
    (h : BlockYields inner lines body ps) :
    Yields (block inner) (blockPieces lines ++ ps) body ps := by
  have hopen : Yields (fun ts => expect [.mark .lbrace] ts >>= fun x =>
      inner (.block x.1.position) x.2)
      (ofMark .lbrace :: blank '\n' :: (lines ++ ofMark .rbrace :: ps)) body ps :=
    Yields.expect fun t => (h t.position).blank '\n'
  intro p
  obtain ⟨q, hq⟩ := hopen (p.after Keyword.pundok.text.toList)
  refine ⟨q, ?_⟩
  rw [block, blockPieces]
  simp only [List.append_assoc, List.cons_append, List.nil_append, nextIs_tokens]
  exact hq

theorem branch_yields {inner : Inner} {test : Expr} (htest : test.WellFormed)
    (hf : FiniteAll test.literals) {lines ps : List Piece} {body : List Stmt}
    (h : BlockYields inner lines body ps) :
    Yields (branch inner) (ofMark .lparen :: (test.pieces ++ ofMark .rparen :: blank ' ' ::
      (blockPieces lines ++ ps))) (test, body) ps := by
  have hblock : Yields (fun ts => block inner ts >>= fun y => .ok ((test, y.1), y.2))
      (blockPieces lines ++ ps) (test, body) ps :=
    (block_yields h).bind (Yields.pure (test, body) ps)
  have hread : Yields (fun ts => expr ts >>= fun x => block inner x.2 >>= fun y =>
      .ok ((x.1, y.1), y.2)) (ofMark .lparen :: (test.pieces ++ ofMark .rparen :: blank ' ' ::
      (blockPieces lines ++ ps))) (test, body) ps :=
    (test_yields htest hf rfl).bind (hblock.blank ' ')
  intro p
  obtain ⟨q, hq⟩ := hread p
  refine ⟨q, ?_⟩
  rw [tokens_lexeme] at hq ⊢
  rw [branch, if_pos rfl]
  exact hq

theorem line_kinds : ∀ kind ∈ lineKinds, BinOp.ofKind? kind = none ∧ kind ≠ .mark .comma ∧
    kind ≠ .mark .assign ∧ kind ≠ .mark .ampersand := by decide

theorem declaration_yields {ty : DataType} {items : List Item} (hne : items ≠ [])
    (h : ∀ i ∈ items, i.WellFormed ty) (hf : FiniteAll (items.filterMap Item.initial))
    {ps : List Piece} (hps : nextKind ps ∈ lineKinds) :
    Yields declaration (ofKeyword ty.keyword :: blank ' ' ::
      (commaPieces.intercalate (items.map Item.pieces) ++ ps)) (.declare ty items) ps := by
  obtain ⟨-, hcomma, hassign, -⟩ := line_kinds _ hps
  have htype : Yields dataType (ofKeyword ty.keyword :: blank ' ' ::
      (commaPieces.intercalate (items.map Item.pieces) ++ ps)) ty
      (blank ' ' :: (commaPieces.intercalate (items.map Item.pieces) ++ ps)) :=
    fun p => ⟨p.after ty.keyword.text.toList, by cases ty <;> rfl⟩
  have hitems : Yields (fun ts => separated (.mark .comma) (item ty) ts.length ts)
      (commaPieces.intercalate (items.map Item.pieces) ++ ps) items ps :=
    @list_yields _ _ _ _ _ isSeparator_comma (· ≠ .mark .assign) (by decide) _ hne
      (fun i hi _ hnext => item_yields (h i hi) (hf.of_initial hi) hnext) _ hassign hcomma
  have hread : Yields (fun ts => separated (.mark .comma) (item ty) ts.length ts >>= fun x =>
      .ok (Stmt.declare ty x.1, x.2)) _ (Stmt.declare ty items) ps :=
    hitems.bind (Yields.pure (Stmt.declare ty items) ps)
  exact htype.bind (hread.blank ' ')

theorem print_yields {segments : List Segment} (hne : segments ≠ [])
    (h : ∀ s ∈ segments, s.WellFormed) (hf : FiniteAll (segments.flatMap Segment.literals))
    {ps : List Piece} (hps : nextKind ps ∈ lineKinds) :
    Yields print (ofMark .colon :: blank ' ' ::
      ([blank ' ', ofMark .ampersand, blank ' '].intercalate (segments.map Segment.pieces) ++ ps))
      (.print segments) ps := by
  obtain ⟨hop, -, -, hampersand⟩ := line_kinds _ hps
  have hsegments : Yields (fun ts => separated (.mark .ampersand) segment ts.length ts)
      ([blank ' ', ofMark .ampersand, blank ' '].intercalate (segments.map Segment.pieces) ++ ps)
      segments ps :=
    @list_yields _ _ _ _ _ isSeparator_ampersand (BinOp.ofKind? · = none) rfl _ hne
      (fun s hs _ hnext => segment_yields (h s hs) (hf.of_mem hs) hnext) _ hop hampersand
  have hread : Yields (fun ts => separated (.mark .ampersand) segment ts.length ts >>= fun x =>
      .ok (Stmt.print x.1, x.2)) _ (Stmt.print segments) ps :=
    hsegments.bind (Yields.pure (Stmt.print segments) ps)
  exact Yields.expect fun _ => hread.blank ' '

theorem read_yields {names : List String} (hne : names ≠ []) {ps : List Piece}
    (hps : nextKind ps ∈ lineKinds) :
    Yields read (ofMark .colon :: blank ' ' ::
      (commaPieces.intercalate (names.map fun name => [ofName name]) ++ ps)) (.read names) ps := by
  obtain ⟨-, hcomma, -, -⟩ := line_kinds _ hps
  have hnames : Yields (fun ts => separated (.mark .comma) name ts.length ts)
      (commaPieces.intercalate (names.map fun name => [ofName name]) ++ ps) names ps :=
    @list_yields _ _ _ _ _ isSeparator_comma (fun _ => True) trivial _ hne
      (fun s _ ps _ => name_yields s ps) _ trivial hcomma
  have hread : Yields (fun ts => separated (.mark .comma) name ts.length ts >>= fun x =>
      .ok (Stmt.read x.1, x.2)) _ (Stmt.read names) ps :=
    hnames.bind (Yields.pure (Stmt.read names) ps)
  exact Yields.expect fun _ => hread.blank ' '

/-- What follows a statement: the next line, which continues no conditional. -/
structure Ends (ps : List Piece) : Prop where
  kind : nextKind ps ∈ lineKinds
  fresh : ∀ p k t rest, tokens p ps = k :: t :: rest → k.kind = .keyword .kung →
    t.kind = .mark .lparen

theorem chain_done_yields {inner : Inner} {ps : List Piece} (h : Ends ps) (n : Nat) :
    Yields (chain inner n) ps .done ps := by
  intro p
  refine ⟨p, ?_⟩
  obtain ⟨-, hfresh⟩ := h
  have hp := hfresh p
  -- a new conditional has its bracket behind `KUNG`, where a chain has a word
  generalize tokens p ps = ts at hp
  fun_cases chain inner n ts with
  | case1 n k t rest hk =>
    have := hp k t rest rfl hk.1
    simp [hk.2] at this
  | case2 n k t rest _ hk =>
    have := hp k t rest rfl hk.1
    simp [hk.2] at this
  | case3 => rfl
  | case4 => rfl

theorem clauseName_yields (clause : Clause) (s : String) (ps : List Piece) :
    Yields (clauseName clause) (ofName s :: ps) s ps := by
  have hlit : Piece.literal .ident s.toList = s := String.ofList_toList
  intro p
  refine ⟨p.after s.toList, ?_⟩
  rw [tokens_lexeme, hlit, clauseName, if_pos rfl]

theorem loop_yields {inner : Inner} {init : Assignment} {test : Expr} {update : Update}
    (hinit : init.WellFormed) (htest : test.WellFormed) (hupdate : update.WellFormed)
    (hfinit : FiniteAll init.value.literals) (hftest : FiniteAll test.literals)
    (hfupdate : FiniteAll update.literals) {lines ps : List Piece} {body : List Stmt}
    (h : BlockYields inner lines body ps) :
    Yields (loop inner) (ofKeyword .sa :: blank ' ' :: ofMark .lparen :: (init.pieces ++
      ofMark .comma :: blank ' ' :: (test.pieces ++ ofMark .comma :: blank ' ' ::
        (update.pieces ++ ofMark .rparen :: blank ' ' :: (blockPieces lines ++ ps)))))
      (.loop init test update body) ps := by
  have hcomma (qs : List Piece) : BinOp.ofKind? (nextKind (ofMark .comma :: qs)) = none := rfl
  have hclose (qs : List Piece) : BinOp.ofKind? (nextKind (ofMark .rparen :: qs)) = none := rfl
  have hsep : Kind.mark .comma ∉ separators false ∧ Kind.mark .rparen ∉ separators false := by
    decide
  obtain ⟨name, more', hname, hchange⟩ := update_first hupdate hfupdate (hclose _) hsep.2
  obtain ⟨first, more, hfirst, hassign, -⟩ := assignment_first hinit hfinit (hcomma _) hsep.1
  rw [hfirst, hname, List.cons_append, List.cons_append]
  -- the readers of the header one after another, each with what it leaves to the next
  refine Yields.expect fun _ => Yields.blank ' ' ?_
  dsimp only
  refine Yields.expect fun _ => ?_
  dsimp only
  refine (clauseName_yields .init first _).bind ?_
  dsimp only
  refine hassign.bind ?_
  dsimp only
  refine Yields.expect fun _ => Yields.blank ' ' ?_
  dsimp only
  refine (expr_yields htest hftest (hcomma _)).bind ?_
  dsimp only
  refine Yields.expect fun _ => Yields.blank ' ' ?_
  dsimp only
  refine (clauseName_yields .update name _).bind ?_
  dsimp only
  refine hchange.bind ?_
  dsimp only
  refine Yields.expect fun _ => Yields.blank ' ' ?_
  dsimp only
  exact (block_yields h).bind (Yields.pure (Stmt.loop init test update body) ps)

theorem conditional_yields {inner : Inner} {test : Expr} (htest : test.WellFormed)
    (hf : FiniteAll test.literals) {lines ps ps' : List Piece} {body : List Stmt} {rest : Chain}
    (hbody : BlockYields inner lines body ps)
    (hrest : Yields (fun ts => chain inner ts.length ts) ps rest ps') :
    Yields (conditional inner) (blank ' ' :: ofMark .lparen :: (test.pieces ++ ofMark .rparen ::
      blank ' ' :: (blockPieces lines ++ ps))) (.choose test body rest) ps' := by
  have hchain : Yields (fun ts => chain inner ts.length ts >>= fun x =>
      .ok (Stmt.choose test body x.1, x.2)) ps (Stmt.choose test body rest) ps' :=
    hrest.bind (Yields.pure (Stmt.choose test body rest) ps')
  have hread : Yields (fun ts => branch inner ts >>= fun x =>
      chain inner x.2.length x.2 >>= fun y => .ok (Stmt.choose x.1.1 x.1.2 y.1, y.2))
      (ofMark .lparen :: (test.pieces ++ ofMark .rparen :: blank ' ' :: (blockPieces lines ++ ps)))
      (Stmt.choose test body rest) ps' :=
    (branch_yields htest hf hbody).bind hchain
  intro p
  obtain ⟨q, hq⟩ := hread (p.after [' '])
  refine ⟨q, ?_⟩
  rw [tokens_blank]
  rw [tokens_lexeme] at hq ⊢
  rw [conditional, if_neg (by simp)]
  exact hq

theorem chain_wala_yields {inner : Inner} {lines ps : List Piece} {body : List Stmt}
    (hbody : BlockYields inner lines body ps) (n : Nat) :
    Yields (chain inner (n + 1)) (blank '\n' :: ofKeyword .kung :: blank ' ' :: ofKeyword .wala ::
      blank ' ' :: (blockPieces lines ++ ps)) (.wala body) ps := by
  have hread : Yields (fun ts => block inner ts >>= fun x => .ok (Chain.wala x.1, x.2))
      (blank ' ' :: (blockPieces lines ++ ps)) (Chain.wala body) ps :=
    ((block_yields hbody).bind (Yields.pure (Chain.wala body) ps)).blank ' '
  intro p
  obtain ⟨q, hq⟩ := hread ((((p.after ['\n']).after Keyword.kung.text.toList).after [' ']).after
    Keyword.wala.text.toList)
  refine ⟨q, ?_⟩
  rw [tokens_blank, tokens_lexeme, tokens_blank, tokens_lexeme, chain, if_neg (by simp),
    if_pos ⟨rfl, rfl⟩]
  exact hq

theorem chain_dili_yields {inner : Inner} {test : Expr} (htest : test.WellFormed)
    (hf : FiniteAll test.literals) {lines ps ps' : List Piece} {body : List Stmt} {rest : Chain}
    {n : Nat} (hbody : BlockYields inner lines body ps)
    (hrest : Yields (chain inner n) ps rest ps') :
    Yields (chain inner (n + 1)) (blank '\n' :: ofKeyword .kung :: blank ' ' :: ofKeyword .dili ::
      blank ' ' :: ofMark .lparen :: (test.pieces ++ ofMark .rparen :: blank ' ' ::
        (blockPieces lines ++ ps))) (.dili test body rest) ps' := by
  have hchain : Yields (fun ts => chain inner n ts >>= fun x =>
      .ok (Chain.dili test body x.1, x.2)) ps (Chain.dili test body rest) ps' :=
    hrest.bind (Yields.pure (Chain.dili test body rest) ps')
  have hread : Yields (fun ts => branch inner ts >>= fun x => chain inner n x.2 >>= fun y =>
      .ok (Chain.dili x.1.1 x.1.2 y.1, y.2)) (blank ' ' :: ofMark .lparen :: (test.pieces ++
      ofMark .rparen :: blank ' ' :: (blockPieces lines ++ ps))) (Chain.dili test body rest) ps' :=
    .blank ' ' ((branch_yields htest hf hbody).bind hchain)
  intro p
  obtain ⟨q, hq⟩ := hread ((((p.after ['\n']).after Keyword.kung.text.toList).after [' ']).after
    Keyword.dili.text.toList)
  refine ⟨q, ?_⟩
  rw [tokens_blank, tokens_lexeme, tokens_blank, tokens_lexeme, chain, if_pos ⟨rfl, rfl⟩]
  exact hq

/-- The first token of a statement, and the one after `KUNG`. -/
theorem stmt_head {s : Stmt} (h : s.WellFormed) (hf : FiniteAll s.literals) :
    ∃ kind text more, s.pieces = lexeme kind text :: more ∧
      kind ∈ lineKinds ∧ kind ≠ .mark .rbrace ∧ kind ≠ .keyword .katapusan ∧
      (kind = .keyword .kung → ∀ ps, nextKind (more ++ ps) = .mark .lparen) := by
  cases s with
  | declare ty items => exact ⟨_, _, _, rfl, by decide, by decide, by decide, by simp⟩
  | assign a =>
    obtain ⟨first, others, -, hpieces⟩ := assignment_pieces h.ne_nil
    exact ⟨_, _, _, hpieces, by decide, by decide, by decide, by simp⟩
  | step s =>
    obtain ⟨name, direction⟩ := s
    cases direction <;> exact ⟨_, _, _, rfl, by decide, by decide, by decide, by simp⟩
  | print segments => exact ⟨_, _, _, rfl, by decide, by decide, by decide, by simp⟩
  | read names => exact ⟨_, _, _, rfl, by decide, by decide, by decide, by simp⟩
  | choose test body rest =>
    exact ⟨_, _, _, rfl, by decide, by decide, by decide, fun _ _ => rfl⟩
  | loop init test update body =>
    exact ⟨_, _, _, rfl, by decide, by decide, by decide, by simp⟩

theorem Ends.of_lexeme {kind : Kind} {text : List Char} {ps : List Piece} (hkind : kind ∈ lineKinds)
    (hfresh : kind = .keyword .kung → nextKind ps = .mark .lparen) :
    Ends (lexeme kind text :: ps) := by
  refine ⟨hkind, fun p k t rest hts hk => ?_⟩
  rw [tokens_lexeme] at hts
  obtain ⟨rfl, hrest⟩ := List.cons.inj hts
  obtain ⟨u, us, hus, hu⟩ := tokens_cons (p.after text) ps
  rw [← (List.cons.inj (hus.symm.trans hrest)).1, hu]
  exact hfresh hk

theorem ends_body {ss : List Stmt} (h : bodyWellFormed ss) (hf : FiniteAll (bodyLiterals ss))
    (frame : Frame) (text : List Char) (ps : List Piece) :
    Ends (bodyPieces ss ++ lexeme frame.close text :: ps) := by
  cases ss with
  | nil =>
    cases frame with
    | program => exact Ends.of_lexeme (by decide) (by simp [Frame.close])
    | block opened =>
      exact Ends.of_lexeme (by decide : Kind.mark .rbrace ∈ lineKinds) (by simp [Frame.close])
  | cons s ss =>
    obtain ⟨kind, text, more, hpieces, hkind, -, -, hfresh⟩ :=
      stmt_head h.1 (finiteAll_append.1 hf).1
    rw [bodyPieces, hpieces, List.append_assoc, List.cons_append]
    exact Ends.of_lexeme hkind fun hkung => hfresh hkung _

theorem Ends.blank {ps : List Piece} (h : Ends ps) (c : Char) : Ends (.blank c :: ps) :=
  ⟨h.kind, fun p => h.fresh (p.after [c])⟩

def stmtAt (inner : Inner) : List Token → Read (Stmt × List Token)
  | [] => .error .endOfTokens
  | t :: rest => stmt inner t rest

def ofUpdate : Update → Stmt
  | .assign a => .assign a
  | .step s => .step s

theorem ofUpdate_yields (inner : Inner) {u : Update} (h : u.WellFormed) (hf : FiniteAll u.literals)
    {ps : List Piece} (hps : nextKind ps ∈ lineKinds) :
    Yields (stmtAt inner) (u.pieces ++ ps) (ofUpdate u) ps := by
  obtain ⟨hop, hcomma, hassign, -⟩ := line_kinds _ hps
  have hsep : nextKind ps ∉ separators true := by simp [separators, hcomma, hassign]
  obtain ⟨first, more, hpieces, hread⟩ := update_first h hf hop hsep
  have hlit : Piece.literal .ident first.toList = first := String.ofList_toList
  intro p
  obtain ⟨q, hq⟩ := hread (p.after first.toList)
  refine ⟨q, ?_⟩
  rw [hpieces, List.cons_append, tokens_lexeme, hlit, stmtAt]
  simp only [stmt, hq]
  cases u <;> rfl

theorem stmts_cons_yields {n : Nat} {frame : Frame} {s : Stmt} {ss : List Stmt}
    {ps rest rest' : List Piece} (hkind : nextKind ps ∈ lineKinds)
    (hbrace : nextKind ps ≠ .mark .rbrace) (hend : nextKind ps ≠ .keyword .katapusan)
    (hs : Yields (stmtAt (stmts n)) ps s rest) (hss : Yields (stmts n frame) rest ss rest') :
    Yields (stmts (n + 1) frame) ps (s :: ss) rest' := by
  intro p
  obtain ⟨t, ts, hts, ht⟩ := tokens_cons p ps
  obtain ⟨q, hq⟩ := hs p
  obtain ⟨r, hr⟩ := hss q
  rw [← ht] at hkind hbrace hend
  -- the first token neither closes the block nor ends the text
  have heof : t.kind ≠ .eof := by
    rintro h
    rw [h] at hkind
    exact absurd hkind (by decide)
  have hclose : t.kind ≠ frame.close := by cases frame <;> assumption
  have hopen : frame.unclosed? t = none := by cases frame <;> simp [Frame.unclosed?, heof, hend]
  refine ⟨r, ?_⟩
  rw [hts] at hq ⊢
  rw [stmts, if_neg hclose, hopen]
  rw [stmtAt] at hq
  simp only [hq]
  change stmts n frame (tokens q rest) >>= _ = _
  rw [hr]
  rfl

mutual

theorem stmt_yields (s : Stmt) (h : s.WellFormed) (hf : FiniteAll s.literals) {n : Nat}
    {ps : List Piece} (hn : count (s.pieces ++ ps) ≤ n + 1) (hps : Ends ps) :
    Yields (stmtAt (stmts n)) (s.pieces ++ ps) s ps := by
  cases s with
  | declare ty items =>
    intro p
    exact (declaration_yields h.1 h.2 hf hps.kind).blank ' ' (p.after Keyword.mugna.text.toList)
  | assign a => exact @ofUpdate_yields _ (.assign a) h hf _ hps.kind
  | step s => exact @ofUpdate_yields _ (.step s) h hf _ hps.kind
  | print segments =>
    intro p
    exact print_yields h.1 h.2 hf hps.kind (p.after Keyword.ipakita.text.toList)
  | read names =>
    intro p
    exact read_yields h.1 hps.kind (p.after Keyword.dawat.text.toList)
  | choose test body rest =>
    obtain ⟨htest, hbody, hrest⟩ := h
    obtain ⟨hf, hfrest⟩ := finiteAll_append.1 hf
    obtain ⟨hftest, hfbody⟩ := finiteAll_append.1 hf
    simp only [Stmt.pieces, blockPieces, count_append, count_lexeme, count_blank, count_nil] at hn
    have hblock : BlockYields (stmts n) (bodyPieces body) body (rest.pieces ++ ps) :=
      fun opened => body_yields body hbody hfbody (by simp [Frame.close]; omega)
    have hchain : Yields (fun ts => chain (stmts n) ts.length ts) (rest.pieces ++ ps) rest ps := by
      intro p
      dsimp only
      rw [length_tokens]
      exact chain_yields rest hrest hfrest (by simp; omega) (Nat.le_succ _) hps p
    have hread := conditional_yields htest hftest hblock hchain
    intro p
    simp only [Stmt.pieces, List.append_assoc, List.cons_append, List.nil_append]
    exact hread (p.after Keyword.kung.text.toList)
  | loop init test update body =>
    obtain ⟨hinit, htest, hupdate, hbody⟩ := h
    obtain ⟨hf, hfbody⟩ := finiteAll_append.1 hf
    obtain ⟨hf, hfupdate⟩ := finiteAll_append.1 hf
    obtain ⟨hfinit, hftest⟩ := finiteAll_append.1 hf
    simp only [Stmt.pieces, blockPieces, count_append, count_lexeme, count_blank, count_nil] at hn
    have hblock : BlockYields (stmts n) (bodyPieces body) body ps :=
      fun opened => body_yields body hbody hfbody (by simp [Frame.close]; omega)
    have hread := loop_yields hinit htest hupdate hfinit hftest hfupdate hblock
    intro p
    simp only [Stmt.pieces, commaPieces, List.append_assoc, List.cons_append, List.nil_append]
    exact hread.blank ' ' (p.after Keyword.alang.text.toList)

theorem chain_yields (c : Chain) (h : c.WellFormed) (hf : FiniteAll c.literals) {n k : Nat}
    {ps : List Piece} (hn : count (c.pieces ++ ps) ≤ n) (hk : count (c.pieces ++ ps) ≤ k)
    (hps : Ends ps) : Yields (chain (stmts n) k) (c.pieces ++ ps) c ps := by
  cases c with
  -- `n` bounds the statements of the blocks, `k` the branches
  | done => exact chain_done_yields hps k
  | wala body =>
    simp only [Chain.pieces, blockPieces, count_append, count_lexeme, count_blank, count_nil]
      at hn hk
    obtain ⟨k, rfl⟩ : ∃ m, k = m + 1 := ⟨k - 1, by omega⟩
    have hblock : BlockYields (stmts n) (bodyPieces body) body ps :=
      fun opened => body_yields body h hf (by simp [Frame.close]; omega)
    simp only [Chain.pieces, List.cons_append, List.nil_append]
    exact chain_wala_yields hblock k
  | dili test body rest =>
    obtain ⟨htest, hbody, hrest⟩ := h
    obtain ⟨hf, hfrest⟩ := finiteAll_append.1 hf
    obtain ⟨hftest, hfbody⟩ := finiteAll_append.1 hf
    simp only [Chain.pieces, blockPieces, count_append, count_lexeme, count_blank, count_nil]
      at hn hk
    obtain ⟨k, rfl⟩ : ∃ m, k = m + 1 := ⟨k - 1, by omega⟩
    have hblock : BlockYields (stmts n) (bodyPieces body) body (rest.pieces ++ ps) :=
      fun opened => body_yields body hbody hfbody (by simp [Frame.close]; omega)
    have hchain : Yields (chain (stmts n) k) (rest.pieces ++ ps) rest ps :=
      chain_yields rest hrest hfrest (by simp; omega) (by simp; omega) hps
    simp only [Chain.pieces, List.append_assoc, List.cons_append, List.nil_append]
    exact chain_dili_yields htest hftest hblock hchain

theorem body_yields (ss : List Stmt) (h : bodyWellFormed ss) (hf : FiniteAll (bodyLiterals ss))
    {n : Nat} {frame : Frame} {text : List Char} {ps : List Piece}
    (hn : count (bodyPieces ss ++ lexeme frame.close text :: ps) ≤ n) :
    Yields (stmts n frame) (bodyPieces ss ++ lexeme frame.close text :: ps) ss ps := by
  cases ss with
  | nil =>
    obtain ⟨n, rfl⟩ : ∃ m, n = m + 1 := ⟨n - 1, by simp [bodyPieces] at hn; omega⟩
    intro p
    exact ⟨p.after text, by rw [bodyPieces, List.nil_append, tokens_lexeme, stmts, if_pos rfl]⟩
  | cons s ss =>
    obtain ⟨hs, hss⟩ := h
    obtain ⟨hfs, hfss⟩ := finiteAll_append.1 hf
    obtain ⟨kind, text', more, hpieces, hkind, hbrace, hend, -⟩ := stmt_head hs hfs
    have hsize : 0 < count s.pieces := by simp [hpieces]
    have hends := (ends_body hss hfss frame text ps).blank '\n'
    simp only [bodyPieces, List.append_assoc, List.cons_append, count_append, count_blank] at hn ⊢
    obtain ⟨n, rfl⟩ : ∃ m, n = m + 1 := ⟨n - 1, by omega⟩
    have hnext (qs : List Piece) : nextKind (s.pieces ++ qs) = kind := by rw [hpieces]; rfl
    have hread := stmt_yields s hs hfs (by simpa only [count_append, count_blank] using hn) hends
    have hmore : Yields (stmts n frame) (bodyPieces ss ++ lexeme frame.close text :: ps) ss ps :=
      body_yields ss hss hfss (by rw [count_append]; omega)
    exact stmts_cons_yields (by rwa [hnext]) (by rwa [hnext]) (by rwa [hnext]) hread
      (hmore.blank '\n')

end

theorem program_pieces {p : Program} (h : p.WellFormed) (hf : FiniteAll p.literals) :
    program (tokens .start p.pieces) = .ok p := by
  have hbody {n : Nat} (hn : count (bodyPieces p ++ [ofKeyword .katapusan, blank '\n']) ≤ n) :
      Yields (stmts n .program) (bodyPieces p ++ [ofKeyword .katapusan, blank '\n']) p
        [blank '\n'] := body_yields p h hf hn
  obtain ⟨q, hq⟩ :=
    (hbody (Nat.le_succ _)).blank '\n' (Position.start.after Keyword.sugod.text.toList)
  rw [Program.pieces]
  simp only [List.cons_append, List.nil_append]
  rw [tokens_lexeme, program, if_pos rfl, length_tokens, count_blank, hq]
  rfl

end Parse

/-- Printing a program that was read and reading it again gives the same program, as long as its
doubles are numbers: an infinite one is printed as a name. -/
theorem parse_text_of_parse {source : String} {p : Program} (h : parse source = .ok p)
    (hfinite : FiniteAll p.literals) : parse p.text = .ok p := by
  have hp := parse_wellFormed h
  rw [parse, tokenize, Program.cut_text hp hfinite]
  exact Parse.program_pieces hp hfinite

def nestedSource : String :=
  "SUGOD MUGNA TIPIK x=-0.0,y -- zero\n KUNG (DILI x>1)\x7bx=y=x- -1 y++\x7dKUNG WALA\x7b" ++
    "IPAKITA:'\"'&$&[#]\x7dKATAPUSAN"

def nestedProgram : Program :=
  [.declare .tipik [⟨"x", some (.tipik (Number.ofBits true 0))⟩, ⟨"y", none⟩],
    .choose (.binary (.rel .gt) (.unary .dili (.var "x")) (.lit (.numero 1)))
      [.assign ⟨["x", "y"], .binary (.arith .sub) (.var "x") (.unary .minus (.lit (.numero 1)))⟩,
        .step ⟨"y", .up⟩]
      (.wala [.print [.expr (.lit (.letra "\"")), .newline, .escape '#']])]

theorem parse_text_nestedProgram : parse nestedSource = .ok nestedProgram ∧
    FiniteAll nestedProgram.literals ∧ parse nestedProgram.text = .ok nestedProgram := by
  have hparse : parse nestedSource = .ok nestedProgram := by cbv
  have hfinite : FiniteAll nestedProgram.literals := by
    intro x hx
    have hliterals : nestedProgram.literals = [.tipik (Number.ofBits true 0), .numero 1, .numero 1,
      .letra "\""] := rfl
    simp only [hliterals, List.mem_cons, List.not_mem_nil, or_false, reduceCtorEq,
      Value.tipik.injEq] at hx
    rw [hx, Number.isFinite, Number.magnitudeBits_ofBits (Nat.zero_le _)]
    rfl
  exact ⟨hparse, hfinite, parse_text_of_parse hparse hfinite⟩

end Bisaya
