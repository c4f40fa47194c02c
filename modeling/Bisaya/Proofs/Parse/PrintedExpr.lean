import Bisaya.Proofs.Parse.Yields

namespace Bisaya.Parse

open Piece

/-- A literal inside an expression is spelled by one token. -/
theorem literal_token {v : Value} (h : v.IsLiteral) (hf : FiniteAll [v]) :
    ∃ kind text, v.pieces = [lexeme kind text] ∧ startsOperand kind ∧ kind ≠ .ident ∧
      ∀ inner p rest, operand inner (⟨kind, Piece.literal kind text, p⟩ :: rest) =
        .ok (.lit v, rest) := by
  cases v with
  | null => exact h.elim
  | numero n =>
    have hn : ¬ n.toInt < 0 := not_lt.2 h
    have hsigned := Numero.read?_signed n
    rw [decide_eq_false hn] at hsigned
    have hread : Numero.read? (Number.digits n.toInt.natAbs) = some n := hsigned
    refine ⟨.int, Number.digits n.toInt.natAbs, ?_, rfl, by decide, fun inner p rest => ?_⟩
    · simp [Value.pieces, Value.signPieces, hn]
    · simp only [operand, Piece.literal, String.toList_ofList, hread]
  | tipik x =>
    have hx : Number.isNegative x = false := h
    have hfin := hf x (by simp)
    have hlt : Number.magnitudeBits x < Number.infinityBits := by simpa [Number.isFinite] using hfin
    have hread := Tipik.read?_magnitudeText hlt
    have hself := Number.ofBits_magnitudeBits hlt.le
    rw [hx] at hself
    rw [hself] at hread
    refine ⟨.float, Tipik.magnitudeText (Number.magnitudeBits x), ?_, rfl, by decide, ?_⟩
    · simp [Value.pieces, Value.signPieces, hx]
    · intro inner p rest
      simp only [operand, Piece.literal, String.toList_ofList, hread]
  | letra s =>
    refine ⟨.string, Value.quoteOf s :: s.toList ++ [Value.quoteOf s], rfl, rfl, by decide, ?_⟩
    intro inner p rest
    have hlit : Piece.literal .string (Value.quoteOf s :: s.toList ++ [Value.quoteOf s]) = s := by
      simp [Piece.literal]
    simp only [operand, hlit, quotedValue, if_neg h.2.1, if_neg h.2.2]
  | tinuod b =>
    refine ⟨.string, '"' :: (Value.boolText b).toList ++ ['"'], rfl, rfl, by decide, ?_⟩
    intro inner p rest
    have hlit : Piece.literal .string ('"' :: (Value.boolText b).toList ++ ['"']) =
        Value.boolText b := by
      simp [Piece.literal]
    simp only [operand, hlit]
    cases b <;> rfl

/-- A printed expression begins with a token of an operand; only a lone name begins with a name. -/
theorem pieces_head {e : Expr} (h : e.WellFormed) (hf : FiniteAll e.literals) :
    ∃ kind text more, e.pieces = lexeme kind text :: more ∧ startsOperand kind ∧
      (kind = .ident → more = []) := by
  cases e with
  | lit v =>
    obtain ⟨kind, text, hpieces, hstarts, -⟩ := literal_token h hf
    exact ⟨kind, text, [], hpieces, hstarts, fun _ => rfl⟩
  | var name => exact ⟨_, _, _, rfl, rfl, by simp⟩
  | unary op e => cases op <;> exact ⟨_, _, _, rfl, rfl, by simp⟩
  | binary op l r => exact ⟨_, _, _, rfl, rfl, by simp⟩

theorem count_pieces_pos {e : Expr} (h : e.WellFormed) (hf : FiniteAll e.literals) :
    0 < count e.pieces := by
  obtain ⟨kind, text, more, hpieces, -⟩ := pieces_head h hf
  simp [hpieces]

theorem climb_yields {n level : Nat} (e : Expr) {ps : List Piece}
    (h : BinOp.ofKind? (nextKind ps) = none) : Yields (climb (n + 1) level e) ps e ps := by
  intro p
  obtain ⟨t, ts, hts, ht⟩ := tokens_cons p ps
  refine ⟨p, ?_⟩
  rw [hts, climb, ht, h]

theorem exprAbove_of_climb {n level : Nat} {l e : Expr} {ps rest rest' : List Piece}
    (hl : Yields (operand (exprAbove n)) ps l rest) (he : Yields (climb n level l) rest e rest') :
    Yields (exprAbove (n + 1) level) ps e rest' := by
  intro p
  obtain ⟨q, hq⟩ := hl p
  obtain ⟨r, hr⟩ := he q
  exact ⟨r, by rw [exprAbove, hq]; exact hr⟩

/-- An operand is a whole expression where no operator follows it. -/
theorem exprAbove_yields {n level : Nat} {e : Expr} {ps rest : List Piece}
    (h : Yields (operand (exprAbove (n + 1))) ps e rest)
    (hnext : BinOp.ofKind? (nextKind rest) = none) :
    Yields (exprAbove (n + 2) level) ps e rest := exprAbove_of_climb h (climb_yields e hnext)

theorem climb_binary_yields {n level : Nat} {op : BinOp} (hlevel : level < op.level)
    {l r e : Expr} {ps rest rest' : List Piece} (hr : Yields (exprAbove n op.level) ps r rest)
    (he : Yields (climb n level (.binary op l r)) rest e rest') :
    Yields (climb (n + 1) level l) (blank ' ' :: op.piece :: blank ' ' :: ps) e rest' := by
  intro p
  obtain ⟨q, hq⟩ := hr ((((p.after [' ']).after op.text.toList)).after [' '])
  obtain ⟨q', hq'⟩ := he q
  refine ⟨q', ?_⟩
  rw [tokens_blank, tokens_lexeme, tokens_blank, climb, BinOp.ofKind?_kind]
  simp only [hlevel, if_true, hq]
  exact hq'

theorem bracketed_yields {inner : Nat → List Token → Read (Expr × List Token)} {e : Expr}
    {ps rest : List Piece} (h : Yields (inner 0) ps e (ofMark .rparen :: rest)) :
    Yields (operand inner) (ofMark .lparen :: ps) e rest := by
  have hread : Yields (fun ts => inner 0 ts >>= fun x => expect [.mark .rparen] x.2 >>= fun y =>
      .ok (x.1, y.2)) ps e rest := by
    refine h.bind ?_
    dsimp only
    exact Yields.expect fun _ => Yields.pure e rest
  intro p
  obtain ⟨q, hq⟩ := hread (p.after Mark.lparen.text.toList)
  exact ⟨q, hq⟩

theorem signed_yields {inner : Nat → List Token → Read (Expr × List Token)} {e : Expr} {op : UnOp}
    (hop : op ≠ .dili) {text : List Char} {ps rest : List Piece}
    (h : Yields (inner UnOp.level) ps e rest) :
    Yields (operand inner) (lexeme op.kind text :: ps) (.unary op e) rest := by
  have hread : Yields (fun ts => inner UnOp.level ts >>= fun x => .ok (Expr.unary op x.1, x.2))
      ps (Expr.unary op e) rest := h.bind (Yields.pure (Expr.unary op e) rest)
  intro p
  obtain ⟨q, hq⟩ := hread (p.after text)
  refine ⟨q, ?_⟩
  cases op with
  | dili => exact absurd rfl hop
  | plus => exact hq
  | minus => exact hq

theorem isBare_eq_false {dili next : Token} {rest : List Token} (hstarts : startsOperand next.kind)
    (hline : next.position.line = dili.position.line)
    (hname : next.kind = .ident → startsStatement rest = false) :
    isBare dili next rest = false := by
  simp only [isBare, hstarts, hline, Bool.not_true, Bool.false_or, Nat.lt_irrefl, decide_false,
    Bool.and_eq_false_iff, decide_eq_false_iff_not]
  by_cases h : next.kind = .ident
  · exact Or.inr (hname h)
  · exact Or.inl h

/-- `DILI` before an operand that follows it on its line. -/
theorem dili_yields {inner : Nat → List Token → Read (Expr × List Token)} {e : Expr}
    (he : e.WellFormed) (hf : FiniteAll e.literals) {ps rest : List Piece}
    (hps : nextKind ps = .mark .rparen) (h : Yields (inner UnOp.level) (e.pieces ++ ps) e rest) :
    Yields (operand inner) (ofKeyword .dili :: blank ' ' :: (e.pieces ++ ps)) (.unary .dili e)
      rest := by
  have hread : Yields (fun ts => inner UnOp.level ts >>= fun x => .ok (Expr.unary .dili x.1, x.2))
      (e.pieces ++ ps) (Expr.unary .dili e) rest := h.bind (Yields.pure (Expr.unary .dili e) rest)
  obtain ⟨kind, text, more, hpieces, hstarts, hname⟩ := pieces_head he hf
  intro p
  obtain ⟨q, hq⟩ := hread ((p.after Keyword.dili.text.toList).after [' '])
  refine ⟨q, ?_⟩
  rw [hpieces] at hq ⊢
  simp only [tokens_lexeme, tokens_blank, List.cons_append, operand] at hq ⊢
  rw [isBare_eq_false]
  · exact hq
  · exact hstarts
  · rfl
  · intro hkind
    simp [startsStatement, nextIs_tokens, hname hkind, hps]

theorem operand_yields {e : Expr} (h : e.WellFormed) (hf : FiniteAll e.literals) {n : Nat}
    {ps : List Piece} (hn : count (e.pieces ++ ps) ≤ n) :
    Yields (operand (exprAbove n)) (e.pieces ++ ps) e ps := by
  have hparen (qs : List Piece) : BinOp.ofKind? (nextKind (ofMark .rparen :: qs)) = none := rfl
  induction e generalizing n ps with
  | lit v =>
    obtain ⟨kind, text, hpieces, -, -, hread⟩ := literal_token h hf
    intro p
    refine ⟨p.after text, ?_⟩
    rw [Expr.pieces, hpieces]
    exact hread _ p _
  | var name =>
    intro p
    refine ⟨p.after name.toList, ?_⟩
    have hlit : Piece.literal .ident name.toList = name := String.ofList_toList
    rw [Expr.pieces, List.singleton_append, tokens_lexeme, hlit]
    rfl
  | unary op e ih =>
    have he : e.WellFormed := h
    have hfe : FiniteAll e.literals := hf
    have hpos := count_pieces_pos he hfe
    have hsize : count (e.pieces ++ ofMark .rparen :: ps) + 2 ≤ n := by
      cases op <;> simp [Expr.pieces] at hn ⊢ <;> omega
    -- one step for the brackets, one for the operator and one for the operand at least
    obtain ⟨n, rfl⟩ : ∃ m, n = m + 3 := ⟨n - 3, by simp at hsize; omega⟩
    have hread : Yields (exprAbove (n + 2) UnOp.level) (e.pieces ++ ofMark .rparen :: ps) e
        (ofMark .rparen :: ps) := exprAbove_yields (ih he hfe (by omega)) (hparen ps)
    cases op with
    | dili =>
      have hop := dili_yields he hfe rfl hread
      simpa [Expr.pieces] using bracketed_yields (exprAbove_yields hop (hparen ps))
    | plus =>
      have hop : Yields _ (ofMark .plus :: _) _ _ :=
        @signed_yields _ _ .plus (by decide) _ _ _ hread
      simpa [Expr.pieces] using bracketed_yields (exprAbove_yields hop (hparen ps))
    | minus =>
      have hop : Yields _ (ofMark .minus :: _) _ _ :=
        @signed_yields _ _ .minus (by decide) _ _ _ hread
      simpa [Expr.pieces] using bracketed_yields (exprAbove_yields hop (hparen ps))
  | binary op l r ihl ihr =>
    obtain ⟨hl, hr⟩ := h
    obtain ⟨hfl, hfr⟩ := finiteAll_append.1 hf
    have hposl := count_pieces_pos hl hfl
    have hposr := count_pieces_pos hr hfr
    have hlevel : 0 < op.level := by rcases op with op | op | op <;> cases op <;> decide
    simp only [Expr.pieces, count_append, count_lexeme, count_blank, count_nil] at hn
    obtain ⟨n, rfl⟩ : ∃ m, n = m + 4 := ⟨n - 4, by omega⟩
    have hright : Yields (exprAbove (n + 2) op.level) (r.pieces ++ ofMark .rparen :: ps) r
        (ofMark .rparen :: ps) := exprAbove_yields (ihr hr hfr (by simp; omega)) (hparen ps)
    have hclimb := climb_binary_yields hlevel hright (climb_yields (.binary op l r) (hparen ps))
    have hinner := exprAbove_of_climb (ihl hl hfl (by simp; omega)) hclimb
    simpa [Expr.pieces] using bracketed_yields hinner

theorem expr_yields {e : Expr} (h : e.WellFormed) (hf : FiniteAll e.literals) {ps : List Piece}
    (hnext : BinOp.ofKind? (nextKind ps) = none) : Yields expr (e.pieces ++ ps) e ps := by
  intro p
  have hpos := count_pieces_pos h hf
  obtain ⟨n, hn⟩ : ∃ n, count (e.pieces ++ ps) = n + 1 :=
    ⟨count (e.pieces ++ ps) - 1, by rw [count_append]; omega⟩
  rw [expr, length_tokens, hn]
  exact exprAbove_yields (operand_yields h hf (le_of_eq hn)) hnext p

end Bisaya.Parse
