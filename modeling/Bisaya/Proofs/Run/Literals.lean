import Bisaya.Proofs.Parse.Composition
import Bisaya.Proofs.Run.Soundness
import Bisaya.Proofs.Stmt.Pieces

namespace Bisaya

open Number Parse Piece

/-- What may stand before the digits of a number. -/
inductive Sign where
  | none
  | plus
  | minus

namespace Sign

def text : Sign → String
  | none => ""
  | plus => "+"
  | minus => "-"

def pieces : Sign → List Piece
  | none => []
  | plus => [ofMark .plus]
  | minus => [ofMark .minus]

def isMinus : Sign → Bool
  | minus => true
  | _ => false

def value (s : Sign) (z : ℤ) : ℤ := if s.isMinus then -z else z

def expr (e : Expr) : Sign → Expr
  | none => e
  | plus => .unary .plus e
  | minus => .unary .minus e

theorem cut_text (s : Sign) {ds rest : List Char} (hds : IsDigits ds) (hrest : Delimited rest) :
    cut false (s.text.toList ++ (ds ++ rest)) = s.pieces ++ lexeme .int ds :: cut false rest := by
  have hdigits (w : Bool) := cut_int hds hrest w
  obtain ⟨d, ds, rfl, hd, -⟩ := hds.cons
  have hsigns : ∀ k : Fin 10, digitChar k ≠ '-' ∧ digitChar k ≠ '+' := by decide
  obtain ⟨k, rfl⟩ := eq_digitChar hd
  cases s with
  | none => exact hdigits false
  | plus =>
    change cut false ('+' :: digitChar k :: (ds ++ rest)) = _
    rw [cut_plus (hsigns k).2, ← List.cons_append, hdigits]
    rfl
  | minus =>
    change cut false ('-' :: digitChar k :: (ds ++ rest)) = _
    rw [cut_minus (hsigns k).1, ← List.cons_append, hdigits]
    rfl

/-- The tokens of the sign. -/
inductive Spells : Sign → List Token → Prop where
  | none : Spells .none []
  | plus {t : Token} (ht : t.kind = .mark .plus) : Spells .plus [t]
  | minus {t : Token} (ht : t.kind = .mark .minus) : Spells .minus [t]

theorem spells_lexemes (s : Sign) (p : Position) : s.Spells (lexemes p s.pieces) := by
  cases s with
  | none => exact .none
  | plus => exact .plus rfl
  | minus => exact .minus rfl

end Sign

/-- A program that declares one variable with an initial value. -/
def declaredText (ty : DataType) (name literal : String) : String :=
  "SUGOD\n" ++ ("MUGNA " ++ ty.name ++ " " ++ name ++ " = " ++ literal) ++ "\nKATAPUSAN"

/-- A program that declares one variable and assigns to it on the next line. -/
def assignedText (name literal : String) : String :=
  "SUGOD\n" ++ ("MUGNA NUMERO " ++ name ++ "\n" ++ name ++ " = " ++ literal) ++ "\nKATAPUSAN"

namespace Parse

variable {start m k x y a t close last : Token} {ss : List Token} {sign : Sign}

theorem initial_signed (name : String) {ty : DataType} (hty : isNumeric ty) (hss : sign.Spells ss)
    (ht : t.kind = .int) (rest : List Token) :
    initial name ty (ss ++ t :: rest) =
      literal name ty sign.isMinus t >>= fun v => .ok (v, rest) := by
  cases hss with
  | none =>
    rw [List.nil_append, initial_cons, hty, ht]
    rfl
  | plus hs | minus hs =>
    rw [List.cons_append, initial_cons, hty, hs]
    rfl

theorem operand_int (inner : ℕ → List Token → Read (Expr × List Token)) (name : String)
    (ht : t.kind = .int) (rest : List Token) :
    operand inner (t :: rest) = literal name .numero false t >>= fun v => .ok (.lit v, rest) := by
  have hread : Tipik.signed false t.literal.toList = t.literal.toList := rfl
  simp only [operand, literal, ht, hread]
  cases Numero.read? t.literal.toList <;> rfl

theorem climb_close (hclose : close.kind = .keyword .katapusan) {rest : List Token} {n : ℕ}
    (hn : (close :: rest).length ≤ n) (level : ℕ) (left : Expr) :
    climb n level left (close :: rest) = .ok (left, close :: rest) := by
  have hstops : Stops level (close :: rest) := ⟨close, rest, rfl, by simp [hclose, BinOp.ofKind?]⟩
  rw [climb_eq_extend hn, extend_stops hstops]

/-- In front of the end of a program, digits are an expression of any level. -/
theorem exprAbove_int (n level : ℕ) (name : String) (ht : t.kind = .int)
    (hclose : close.kind = .keyword .katapusan) {rest : List Token} (hn : rest.length < n) :
    exprAbove (n + 1) level (t :: close :: rest) =
      literal name .numero false t >>= fun v => .ok (.lit v, close :: rest) := by
  rw [exprAbove, operand_int _ name ht]
  cases literal name .numero false t with
  | error e => rfl
  | ok v => exact climb_close hclose hn level (.lit v)

theorem expr_signed (name : String) (hss : sign.Spells ss) (ht : t.kind = .int)
    (hclose : close.kind = .keyword .katapusan) (rest : List Token) :
    expr (ss ++ t :: close :: rest) =
      literal name .numero false t >>= fun v => .ok (sign.expr (.lit v), close :: rest) := by
  cases hss with
  | none => exact exprAbove_int _ 0 name ht hclose (Nat.lt_succ_self _)
  | @plus s hs | @minus s hs =>
    have hinner := exprAbove_int (rest.length + 1) UnOp.level name ht hclose (Nat.lt_succ_self _)
    change exprAbove (rest.length + 3) 0 (s :: t :: close :: rest) = _
    rw [exprAbove]
    simp only [operand, hs]
    rw [hinner]
    cases literal name .numero false t with
    | error e => rfl
    | ok v => exact climb_close hclose (Nat.le_succ _) 0 _

/-- A declaration of one variable with a number, in front of the end of a program. -/
theorem declaration_signed {ty : DataType} (hty : isNumeric ty) (hk : k.kind = typeKind ty)
    (hx : x.kind = .ident) (ha : a.kind = .mark .assign) (hss : sign.Spells ss) (ht : t.kind = .int)
    (hclose : close.kind = .keyword .katapusan) (rest : List Token) :
    declaration (k :: x :: a :: (ss ++ t :: close :: rest)) =
      literal x.literal ty sign.isMinus t >>= fun v =>
        .ok (.declare ty [⟨x.literal, some v⟩], close :: rest) := by
  have htype : DataType.all.find? (fun ty' => decide (k.kind = typeKind ty')) = some ty := by
    rw [hk]
    cases ty <;> rfl
  have hitem : item ty (x :: a :: (ss ++ t :: close :: rest)) =
      literal x.literal ty sign.isMinus t >>= fun v =>
        .ok (⟨x.literal, some v⟩, close :: rest) := by
    have hinitial := initial_signed x.literal hty hss ht (close :: rest)
    simp only [item, name, expect, hx, List.mem_singleton, if_true]
    change (if nextIs (.mark .assign) (a :: (ss ++ t :: close :: rest)) = true then _ else _) = _
    rw [if_pos (by simp [nextIs, ha]), List.tail_cons, hinitial]
    cases literal x.literal ty sign.isMinus t <;> rfl
  rw [declaration, dataType, htype]
  change separated (.mark .comma) (item ty) ((ss ++ t :: close :: rest).length + 2) _ >>= _ = _
  rw [separated, hitem]
  cases literal x.literal ty sign.isMinus t with
  | error e => rfl
  | ok v => simp [nextIs, hclose, bind, Except.bind, pure, Except.pure]

theorem update_signed (ha : a.kind = .mark .assign) (hss : sign.Spells ss) (ht : t.kind = .int)
    (hclose : close.kind = .keyword .katapusan) (name : String) (rest : List Token) :
    update true name (a :: (ss ++ t :: close :: rest)) =
      literal name .numero false t >>= fun v =>
        .ok (.assign ⟨[name], sign.expr (.lit v)⟩, close :: rest) := by
  have hassigned : assigned true [name] (.mark .assign) (ss ++ t :: close :: rest) =
      expr (ss ++ t :: close :: rest) >>= fun e => .ok (⟨[name], e.1⟩, e.2) := by
    cases hss with
    | none => rw [List.nil_append, assigned, if_neg (by simp [ht]), if_neg (by decide)]
    | plus hs | minus hs =>
      rw [List.cons_append, assigned, if_neg (by simp [hs]), if_neg (by decide)]
  have hstep : step? name (a :: (ss ++ t :: close :: rest)) = none := by simp [step?, ha]
  rw [update, hstep]
  change assignment true [name] _ >>= _ = _
  rw [assignment_cons, ha, if_pos (by decide), hassigned, expr_signed name hss ht hclose rest]
  cases literal name .numero false t <;> rfl

section

variable (hstart : start.kind = .keyword .sugod) (hm : m.kind = .keyword .mugna)
  (hx : x.kind = .ident) (ha : a.kind = .mark .assign) (hss : sign.Spells ss) (ht : t.kind = .int)
  (hclose : close.kind = .keyword .katapusan) (hlast : last.kind = .eof)

include hstart hm hx ha hss ht hclose hlast

theorem program_declared {ty : DataType} (hty : isNumeric ty) (hk : k.kind = typeKind ty) :
    program (start :: m :: k :: x :: a :: (ss ++ [t, close, last])) =
      literal x.literal ty sign.isMinus t >>= fun v => .ok [.declare ty [⟨x.literal, some v⟩]] := by
  have hread := declaration_signed hty hk hx ha hss ht hclose [last]
  cases hl : literal x.literal ty sign.isMinus t with
  | error e =>
    rw [hl] at hread
    simp [program, stmts, stmt, Frame.close, Frame.unclosed?, hstart, hm, hread, bind, Except.bind]
  | ok v =>
    rw [hl] at hread
    simp [program, stmts, stmt, Frame.close, Frame.unclosed?, hstart, hm, hread, hclose, hlast,
      bind, Except.bind, pure, Except.pure]

theorem program_assigned (hk : k.kind = .keyword .numero) (hy : y.kind = .ident) :
    program (start :: m :: k :: y :: x :: a :: (ss ++ [t, close, last])) =
      literal x.literal .numero false t >>= fun v =>
        .ok [.declare .numero [⟨y.literal, none⟩], .assign ⟨[x.literal], sign.expr (.lit v)⟩] := by
  have hfirst : declaration (k :: y :: x :: a :: (ss ++ [t, close, last])) =
      .ok (.declare .numero [⟨y.literal, none⟩], x :: a :: (ss ++ [t, close, last])) := by
    simp [declaration, dataType, DataType.all, typeKind, separated, item, name, expect, nextIs, hk,
      hy, hx, bind, Except.bind, pure, Except.pure]
  have hread := update_signed ha hss ht hclose x.literal [last]
  cases hl : literal x.literal .numero false t with
  | error e =>
    rw [hl] at hread
    simp [program, stmts, stmt, Frame.close, Frame.unclosed?, hstart, hm, hx, hfirst, hread, bind,
      Except.bind]
  | ok v =>
    rw [hl] at hread
    simp [program, stmts, stmt, Frame.close, Frame.unclosed?, hstart, hm, hx, hfirst, hread, hclose,
      hlast, bind, Except.bind, pure, Except.pure]

end

end Parse

section

variable {name digits : String} (hname : IsName name) (sign : Sign)
  (hdigits : IsDigits digits.toList)

include hname hdigits

theorem cut_assignment : cut false (name.toList ++ ' ' :: (Mark.assign.text.toList ++ ' ' ::
    (sign.text.toList ++ (digits.toList ++ '\n' :: Keyword.katapusan.text.toList)))) =
      ofName name :: blank ' ' :: ofMark .assign :: blank ' ' :: (sign.pieces ++
        [lexeme .int digits.toList, blank '\n', ofKeyword .katapusan]) := by
  rw [cut_name_delimited hname (delimited_space _), cut_space, cut_spaced (by decide), cut_space,
    sign.cut_text hdigits ⟨_, _, rfl, by decide⟩, cut_newline, cut_katapusan]
  rfl

theorem parse_declaredText (ty : DataType) (hty : isNumeric ty) :
    ∃ p, parse (declaredText ty name (sign.text ++ digits)) =
      literal name ty sign.isMinus ⟨.int, digits, p⟩ >>= fun v =>
        .ok [.declare ty [⟨name, some v⟩]] := by
  have hlines : ("MUGNA " ++ ty.name ++ " " ++ name ++ " = " ++ (sign.text ++ digits)).toList ++
      '\n' :: Keyword.katapusan.text.toList = Keyword.mugna.text.toList ++ ' ' ::
        (ty.keyword.text.toList ++ ' ' :: (name.toList ++ ' ' :: (Mark.assign.text.toList ++ ' ' ::
          (sign.text.toList ++ (digits.toList ++ '\n' :: Keyword.katapusan.text.toList))))) := by
    rw [DataType.keyword_text]
    simp [Keyword.text, Mark.text]
  have hkind : Kind.keyword ty.keyword = typeKind ty := by cases ty <;> rfl
  rw [declaredText, parse_enclosed, cut_enclosed, hlines,
    cut_keyword_cons .mugna (by decide) (by decide), cut_space,
    cut_keyword_cons ty.keyword (by decide) (by decide), cut_space,
    cut_assignment hname sign hdigits]
  simp only [tokens, tokens_append, Piece.literal, String.ofList_toList]
  exact ⟨_, program_declared rfl rfl rfl rfl (sign.spells_lexemes _) rfl rfl rfl hty hkind⟩

theorem parse_assignedText : ∃ p, parse (assignedText name (sign.text ++ digits)) =
    literal name .numero false ⟨.int, digits, p⟩ >>= fun v =>
      .ok [.declare .numero [⟨name, none⟩], .assign ⟨[name], sign.expr (.lit v)⟩] := by
  have hlines :
      ("MUGNA NUMERO " ++ name ++ "\n" ++ name ++ " = " ++ (sign.text ++ digits)).toList ++
      '\n' :: Keyword.katapusan.text.toList = Keyword.mugna.text.toList ++ ' ' ::
        (Keyword.numero.text.toList ++ ' ' :: (name.toList ++ '\n' :: (name.toList ++ ' ' ::
          (Mark.assign.text.toList ++ ' ' :: (sign.text.toList ++
            (digits.toList ++ '\n' :: Keyword.katapusan.text.toList)))))) := by
    simp [Keyword.text, Mark.text]
  rw [assignedText, parse_enclosed, cut_enclosed, hlines,
    cut_keyword_cons .mugna (by decide) (by decide), cut_space,
    cut_keyword_cons .numero (by decide) (by decide), cut_space,
    cut_name_delimited hname ⟨_, _, rfl, by decide⟩, cut_newline, cut_assignment hname sign hdigits]
  simp only [List.cons_append, List.nil_append, tokens, tokens_append, Piece.literal,
    String.ofList_toList]
  exact ⟨_, program_assigned rfl rfl rfl rfl (sign.spells_lexemes _) rfl rfl rfl rfl rfl⟩

end

/-- The program runs to its end and leaves the number in the variable. -/
def SetsTo (k : ℕ) (source name : String) (n : Numero) : Prop :=
  ∃ ending, interpret k source [] = .ok ending ∧ ending.outcome = .done ∧
    ending.machine.env.get? name = some ⟨.numero, .numero n⟩

theorem Env.exists_put (env : Env) (name : String) {x : Variable} (h : x.value.Fits x.ty) :
    ∃ env', env.put name x = .ok env' ∧ env'.get? name = some x := by
  have hput := put_of_fits env name h
  exact ⟨_, hput, (get?_of_put hput name).trans (if_pos rfl)⟩

theorem Env.exists_declare (name : String) {ty : DataType} {initial : Option Value}
    (h : (initial.getD .null).Fits ty) :
    ∃ env, Env.empty.declare name ty initial = .ok env ∧
      env.get? name = some ⟨ty, initial.getD .null⟩ := by
  rw [declare, get?_empty]
  exact exists_put _ name h

theorem setsTo_of_declared {source name : String} {n : Numero}
    (h : parse source = .ok [.declare .numero [⟨name, some (.numero n)⟩]]) (k : ℕ) {n' : Numero} :
    SetsTo k source name n' ↔ n' = n := by
  have hfits : ((some (Value.numero n)).getD .null).Fits .numero := .inr rfl
  obtain ⟨env, henv, hget⟩ := Env.exists_declare name hfits
  have hrun : interpret k source [] = .ok ⟨.done, ⟨env, #[]⟩, [], []⟩ := by
    rw [interpret, h]
    change Except.ok (Run.play (((Run.change .start (Env.empty.declare name .numero _)).andThen
      _).andThen _) []) = _
    rw [henv]
    rfl
  constructor
  · rintro ⟨ending, hending, -, hget'⟩
    cases hrun.symm.trans hending
    cases hget.symm.trans hget'
    rfl
  · rintro rfl
    exact ⟨_, hrun, rfl, hget⟩

theorem setsTo_of_assigned {source name : String} {e : Expr} {n : Numero}
    (h : parse source = .ok [.declare .numero [⟨name, none⟩], .assign ⟨[name], e⟩])
    (he : ∀ env, e.eval env = .ok (.numero n)) (k : ℕ) : SetsTo k source name n := by
  have hunset : ((none : Option Value).getD .null).Fits .numero := .inl rfl
  have hfits : (Value.numero n).Fits .numero := .inr rfl
  obtain ⟨env, henv, hget⟩ := Env.exists_declare name hunset
  obtain ⟨env', henv', hget'⟩ := @Env.exists_put env name ⟨.numero, .numero n⟩ hfits
  have hassign : Run.assign ⟨[name], e⟩ ⟨env, #[]⟩ = .done ⟨env', #[]⟩ := by
    rw [Run.assign, he]
    change (Run.change _ (env.assign name (.numero n))).andThen _ = _
    rw [Env.assign_of_get? hget, henv']
    rfl
  refine ⟨⟨.done, ⟨env', #[]⟩, [], []⟩, ?_, rfl, hget'⟩
  rw [interpret, h]
  change Except.ok (Run.play (((Run.change .start (Env.empty.declare name .numero _)).andThen
    _).andThen fun m => (Run.assign ⟨[name], e⟩ m).andThen _) []) = _
  rw [henv]
  change Except.ok (Run.play ((Run.assign ⟨[name], e⟩ ⟨env, #[]⟩).andThen _) []) = _
  rw [hassign]
  rfl

theorem Sign.eval_expr (sign : Sign) {d n : Numero} (h : n.toInt = sign.value d.toInt) (env : Env) :
    (sign.expr (.lit (.numero d))).eval env = .ok (.numero n) := by
  cases sign with
  | none | plus =>
    obtain rfl : n = d := Int64.toInt_inj.1 h
    rfl
  | minus =>
    have hneg : Numero.ofInt? (-d.toInt) = some n := Numero.ofInt?_eq_some_iff.2 h
    change UnOp.apply .minus (.numero d) = _
    simp only [UnOp.apply, Value.type?, hneg]

namespace Parse

theorem literal_of_read? {digits : String} {negative : Bool} {n : Numero}
    (hn : Numero.read? (Tipik.signed negative digits.toList) = some n) (name : String)
    (p : Position) : literal name .numero negative ⟨.int, digits, p⟩ = .ok (.numero n) := by
  simp only [literal, hn]

theorem literal_of_not_read? {digits : String} {negative : Bool}
    (hn : Numero.read? (Tipik.signed negative digits.toList) = none) (name : String)
    (p : Position) : literal name .numero negative ⟨.int, digits, p⟩ =
      .error (.invalidNumber ⟨.int, digits, p⟩) := by
  simp only [literal, hn]

end Parse

section

variable {name digits : String} (hname : IsName name) (sign : Sign)
  (hdigits : IsDigits digits.toList) (k : ℕ) (n : Numero)

include hname hdigits

/-- A declaration takes every number of 64 bits, with its sign. -/
theorem setsTo_declaredText : SetsTo k (declaredText .numero name (sign.text ++ digits)) name n ↔
    n.toInt = sign.value (Number.value digits.toList) := by
  obtain ⟨p, hparse⟩ := parse_declaredText hname sign hdigits .numero rfl
  have hread := Numero.read?_signed_digits sign.isMinus hdigits
  change _ = Numero.ofInt? (sign.value (Number.value digits.toList)) at hread
  cases hn : Numero.ofInt? (sign.value (Number.value digits.toList)) with
  | none =>
    rw [literal_of_not_read? (hread.trans hn)] at hparse
    have hrun : interpret k (declaredText .numero name (sign.text ++ digits)) [] =
        .error (.invalidNumber ⟨.int, digits, p⟩) := by
      rw [interpret, hparse]
      rfl
    constructor
    · rintro ⟨ending, hending, -⟩
      cases hrun.symm.trans hending
    · intro hvalue
      rw [Numero.ofInt?_eq_some_iff.2 hvalue] at hn
      cases hn
  | some n' =>
    rw [literal_of_read? (hread.trans hn)] at hparse
    rw [setsTo_of_declared hparse, ← Numero.ofInt?_eq_some_iff, hn, Option.some_inj, eq_comm]

/-- The digits of an assigned number are read without their sign. -/
theorem setsTo_assignedText {d : Numero} (hd : d.toInt = Number.value digits.toList)
    (h : n.toInt = sign.value (Number.value digits.toList)) :
    SetsTo k (assignedText name (sign.text ++ digits)) name n := by
  obtain ⟨p, hparse⟩ := parse_assignedText hname sign hdigits
  have hread : Numero.read? (Tipik.signed false digits.toList) = some d :=
    (Numero.read?_digits hdigits).trans (Numero.ofInt?_eq_some_iff.2 hd)
  rw [literal_of_read? hread] at hparse
  exact setsTo_of_assigned hparse (sign.eval_expr (hd ▸ h)) k

theorem interpret_assignedText (hrange : ¬ Numero.InRange (Number.value digits.toList)) :
    ∃ p, interpret k (assignedText name (sign.text ++ digits)) [] =
      .error (.invalidNumber ⟨.int, digits, p⟩) := by
  obtain ⟨p, hparse⟩ := parse_assignedText hname sign hdigits
  have hread : Numero.read? (Tipik.signed false digits.toList) = none :=
    (Numero.read?_digits hdigits).trans (Numero.ofInt?_eq_none_iff.2 hrange)
  rw [literal_of_not_read? hread] at hparse
  refine ⟨p, ?_⟩
  rw [interpret, hparse]
  rfl

end

/-- A number that a declaration gives to a variable can be assigned to it just as well, unless it is
the least one: of that the digits alone are out of range, and they are refused. -/
theorem setsTo_assigned_of_declared {name digits : String} (hname : IsName name) (sign : Sign)
    (hdigits : IsDigits digits.toList) {k : ℕ} {n : Numero}
    (h : SetsTo k (declaredText .numero name (sign.text ++ digits)) name n) (j : ℕ) :
    (n ≠ Int64.minValue → SetsTo j (assignedText name (sign.text ++ digits)) name n) ∧
    (n = Int64.minValue → ∃ p, interpret j (assignedText name (sign.text ++ digits)) [] =
      .error (.invalidNumber ⟨.int, digits, p⟩)) := by
  rw [setsTo_declaredText hname sign hdigits] at h
  have hrange := Numero.inRange_toInt n
  have hleast : n = Int64.minValue ↔ n.toInt = -0x8000000000000000 := by
    rw [← Int64.toInt_inj]
    rfl
  rw [Numero.InRange] at hrange
  rw [Ne, hleast]
  refine ⟨fun hn => ?_, fun hn => interpret_assignedText hname sign hdigits j ?_⟩
  · -- all but the least number keep to their range without the sign
    have hd : Numero.InRange (Number.value digits.toList) := by
      unfold Numero.InRange
      unfold Sign.value at h
      split at h <;> omega
    obtain ⟨d, hd⟩ : ∃ d : Numero, d.toInt = Number.value digits.toList :=
      ⟨_, Numero.ofInt?_eq_some_iff.1 (if_pos hd)⟩
    exact setsTo_assignedText hname sign hdigits j n hd h
  · unfold Numero.InRange
    unfold Sign.value at h
    split at h <;> omega

theorem isName_x : IsName "x" := ⟨⟨'x', [], rfl, by decide, by simp⟩, by decide⟩

/-- The number above the least one, with zeros in front of it. -/
theorem setsTo_assigned_zeros :
    SetsTo 0 (declaredText .numero "x" "-009223372036854775807") "x" (-9223372036854775807) ∧
      SetsTo 0 (assignedText "x" "-009223372036854775807") "x" (-9223372036854775807) := by
  have hdigits : IsDigits "009223372036854775807".toList :=
    ⟨by decide, List.all_eq_true.1 (by decide)⟩
  have hdeclared : SetsTo 0 (declaredText .numero "x" (Sign.minus.text ++ "009223372036854775807"))
      "x" (-9223372036854775807) :=
    (setsTo_declaredText isName_x .minus hdigits 0 _).2 (by decide)
  exact ⟨hdeclared, (setsTo_assigned_of_declared isName_x .minus hdigits hdeclared 0).1 (by decide)⟩

/-- The least number can be declared, and the program that assigns it is not even read. -/
theorem not_setsTo_assigned_least :
    SetsTo 0 (declaredText .numero "x" "-9223372036854775808") "x" (-9223372036854775808) ∧
      ¬ SetsTo 0 (assignedText "x" "-9223372036854775808") "x" (-9223372036854775808) := by
  have hdigits : IsDigits "9223372036854775808".toList :=
    ⟨by decide, List.all_eq_true.1 (by decide)⟩
  refine ⟨(setsTo_declaredText isName_x .minus hdigits 0 _).2 (by decide), ?_⟩
  rintro ⟨ending, hending, -⟩
  obtain ⟨p, herror⟩ := interpret_assignedText isName_x .minus hdigits 0 (by decide)
  cases herror.symm.trans hending

end Bisaya
