import Bisaya.Parse.Stmt
import Bisaya.Proofs.Stmt.Pieces

namespace Bisaya

namespace Piece

def nextKind : List Piece → Kind
  | [] => .eof
  | lexeme kind _ :: _ => kind
  | _ :: rest => nextKind rest

def isLexeme : Piece → Bool
  | lexeme .. => true
  | _ => false

def count (ps : List Piece) : Nat := ps.countP isLexeme

@[simp] theorem count_nil : count [] = 0 := rfl

@[simp] theorem count_lexeme (kind : Kind) (text : List Char) (ps : List Piece) :
    count (lexeme kind text :: ps) = count ps + 1 := List.countP_cons_of_pos rfl

@[simp] theorem count_blank (c : Char) (ps : List Piece) : count (blank c :: ps) = count ps :=
  List.countP_cons_of_neg (by simp [isLexeme])

@[simp] theorem count_append (ps qs : List Piece) : count (ps ++ qs) = count ps + count qs :=
  List.countP_append

theorem tokens_lexeme (p : Position) (kind : Kind) (text : List Char) (ps : List Piece) :
    tokens p (lexeme kind text :: ps) =
      ⟨kind, literal kind text, p⟩ :: tokens (p.after text) ps := rfl

theorem tokens_blank (p : Position) (c : Char) (ps : List Piece) :
    tokens p (blank c :: ps) = tokens (p.after [c]) ps := rfl

theorem length_tokens (p : Position) (ps : List Piece) :
    (tokens p ps).length = count ps + 1 := by
  fun_induction tokens p ps with
  | case1 => rfl
  | case2 p kind text rest ih => simp [ih]
  | case3 p piece rest hpiece ih =>
    have hneg : ¬ isLexeme piece := by
      cases piece with
      | lexeme kind text => exact absurd rfl (hpiece kind text)
      | _ => simp [isLexeme]
    rw [ih, count, count, List.countP_cons_of_neg hneg]

theorem tokens_cons (p : Position) (ps : List Piece) :
    ∃ t ts, tokens p ps = t :: ts ∧ t.kind = nextKind ps := by
  fun_induction tokens p ps with
  | case1 p => exact ⟨_, _, rfl, rfl⟩
  | case2 p kind text rest ih => exact ⟨_, _, rfl, rfl⟩
  | case3 p piece rest hpiece ih =>
    cases piece with
    | lexeme kind text => exact absurd rfl (hpiece kind text)
    | _ => exact ih

end Piece

namespace Parse

open Piece

theorem nextIs_tokens (kind : Kind) (p : Position) (ps : List Piece) :
    nextIs kind (tokens p ps) = decide (nextKind ps = kind) := by
  obtain ⟨t, ts, hts, ht⟩ := tokens_cons p ps
  rw [hts, nextIs, ht]

/-- At the pieces `ps`, wherever they start, the reader gives `a` and leaves the pieces `rest`. -/
def Yields {α : Type} (reader : List Token → Read (α × List Token)) (ps : List Piece) (a : α)
    (rest : List Piece) : Prop :=
  ∀ p, ∃ q, reader (tokens p ps) = .ok (a, tokens q rest)

namespace Yields

variable {α β : Type} {reader : List Token → Read (α × List Token)}
  {next : α × List Token → Read (β × List Token)} {ps rest rest' : List Piece} {a : α} {b : β}

theorem pure (a : α) (ps : List Piece) : Yields (fun ts => .ok (a, ts)) ps a ps :=
  fun p => ⟨p, rfl⟩

theorem blank (c : Char) (h : Yields reader ps a rest) : Yields reader (.blank c :: ps) a rest :=
  fun p => h (p.after [c])

theorem bind (h : Yields reader ps a rest) (hnext : Yields (fun ts => next (a, ts)) rest b rest') :
    Yields (fun ts => reader ts >>= next) ps b rest' := by
  intro p
  obtain ⟨q, hq⟩ := h p
  obtain ⟨r, hr⟩ := hnext q
  refine ⟨r, ?_⟩
  change reader (tokens p ps) >>= next = _
  rw [hq]
  exact hr

theorem expect {kind : Kind} {text : List Char}
    {next : Token × List Token → Read (β × List Token)}
    (h : ∀ t, Yields (fun ts => next (t, ts)) ps b rest) :
    Yields (fun ts => expect [kind] ts >>= next) (lexeme kind text :: ps) b rest := by
  intro p
  obtain ⟨q, hq⟩ := h ⟨kind, Piece.literal kind text, p⟩ (p.after text)
  refine ⟨q, ?_⟩
  have ht : Parse.expect [kind] (tokens p (lexeme kind text :: ps)) =
      .ok (⟨kind, Piece.literal kind text, p⟩, tokens (p.after text) ps) := if_pos (by simp)
  change Parse.expect [kind] (tokens p (lexeme kind text :: ps)) >>= next = _
  rw [ht]
  exact hq

theorem ite_pos {kind : Kind} {other : List Token → Read (α × List Token)}
    (hkind : nextKind ps = kind) (h : Yields reader ps a rest) :
    Yields (fun ts => if nextIs kind ts then reader ts else other ts) ps a rest := by
  intro p
  obtain ⟨q, hq⟩ := h p
  exact ⟨q, (if_pos (by simp [nextIs_tokens, hkind])).trans hq⟩

theorem ite_neg {kind : Kind} {other : List Token → Read (α × List Token)}
    (hkind : nextKind ps ≠ kind) (h : Yields reader ps a rest) :
    Yields (fun ts => if nextIs kind ts then other ts else reader ts) ps a rest := by
  intro p
  obtain ⟨q, hq⟩ := h p
  exact ⟨q, (if_neg (by simp [nextIs_tokens, hkind])).trans hq⟩

theorem tail {kind : Kind} {text : List Char} (h : Yields reader ps a rest) :
    Yields (fun ts => reader ts.tail) (lexeme kind text :: ps) a rest :=
  fun p => h (p.after text)

end Yields

theorem name_yields (s : String) (ps : List Piece) : Yields name (ofName s :: ps) s ps := by
  intro p
  have hlit : Piece.literal .ident s.toList = s := String.ofList_toList
  have ht : expect [.ident] (tokens p (ofName s :: ps)) =
      .ok (⟨.ident, s, p⟩, tokens (p.after s.toList) ps) := by
    rw [tokens_lexeme, hlit]
    simp [expect]
  exact ⟨p.after s.toList, by rw [name, ht]; rfl⟩

/-- One token of the kind `sep`, with blanks around it. -/
def IsSeparator (sep : Kind) (between : List Piece) : Prop :=
  ∀ p ps, ∃ t q, t.kind = sep ∧ tokens p (between ++ ps) = t :: tokens q ps

theorem IsSeparator.nextKind {sep : Kind} {between : List Piece} (h : IsSeparator sep between)
    (ps : List Piece) : nextKind (between ++ ps) = sep := by
  obtain ⟨t, q, ht, hts⟩ := h .start ps
  obtain ⟨u, us, hus, hu⟩ := tokens_cons .start (between ++ ps)
  rw [← hu, ← ht, (List.cons.inj (hts.symm.trans hus)).1]

theorem IsSeparator.tail {α : Type} {reader : List Token → Read (α × List Token)}
    {sep : Kind} {between ps rest : List Piece} {a : α} (h : IsSeparator sep between)
    (hr : Yields reader ps a rest) : Yields (fun ts => reader ts.tail) (between ++ ps) a rest := by
  intro p
  obtain ⟨t, q, -, hts⟩ := h p ps
  obtain ⟨r, hr⟩ := hr q
  exact ⟨r, by rw [hts]; exact hr⟩

theorem IsSeparator.count {sep : Kind} {between : List Piece} (h : IsSeparator sep between) :
    count between = 1 := by
  obtain ⟨t, q, -, hts⟩ := h .start []
  have hlength := congrArg List.length hts
  rw [List.length_cons, length_tokens, length_tokens] at hlength
  simpa using hlength

theorem isSeparator_comma : IsSeparator (.mark .comma) commaPieces :=
  fun _ _ => ⟨_, _, rfl, rfl⟩

theorem isSeparator_ampersand :
    IsSeparator (.mark .ampersand) [blank ' ', ofMark .ampersand, blank ' '] :=
  fun _ _ => ⟨_, _, rfl, rfl⟩

/-- A list of items, where `follows` says what may stand behind one of them. -/
theorem separated_yields {α : Type} {sep : Kind} {item : List Token → Read (α × List Token)}
    {pieces : α → List Piece} {between : List Piece} (hsep : IsSeparator sep between)
    {follows : Kind → Prop} (hsf : follows sep) {xs : List α} (hne : xs ≠ [])
    (hitem : ∀ x ∈ xs, ∀ ps, follows (nextKind ps) → Yields item (pieces x ++ ps) x ps)
    {ps : List Piece} (hps : follows (nextKind ps)) (hlast : nextKind ps ≠ sep) {n : Nat}
    (hn : xs.length ≤ n) :
    Yields (separated sep item n) (between.intercalate (xs.map pieces) ++ ps) xs ps := by
  induction xs generalizing n with
  | nil => exact absurd rfl hne
  | cons x xs ih =>
    have hx := hitem x (List.mem_cons_self ..)
    obtain ⟨n, rfl⟩ : ∃ m, n = m + 1 := ⟨n - 1, by simp at hn; omega⟩
    cases xs with
    | nil =>
      simp only [List.map_cons, List.map_nil, List.intercalate_singleton]
      exact (hx ps hps).bind (Yields.ite_neg hlast (Yields.pure [x] ps))
    | cons y ys =>
      have ih := ih (List.cons_ne_nil y ys) (fun z hz => hitem z (List.mem_cons_of_mem x hz))
        (Nat.le_of_succ_le_succ hn)
      simp only [List.map_cons, List.intercalate_cons_cons, List.append_assoc] at ih ⊢
      have hnext := hsep.nextKind (between.intercalate (pieces y :: ys.map pieces) ++ ps)
      refine (hx _ (by rw [hnext]; exact hsf)).bind (Yields.ite_pos hnext ?_)
      exact hsep.tail (ih.bind (Yields.pure (x :: y :: ys) ps))

theorem length_le_count_intercalate {α : Type} {sep : Kind} {between : List Piece}
    (hsep : IsSeparator sep between) (pieces : α → List Piece) (xs : List α) :
    xs.length ≤ count (between.intercalate (xs.map pieces)) + 1 := by
  induction xs with
  | nil => simp
  | cons x xs ih =>
    cases xs with
    | nil => simp
    | cons y ys =>
      simp only [List.map_cons, List.intercalate_cons_cons, count_append, hsep.count,
        List.length_cons] at ih ⊢
      omega

/-- A list that takes as many tokens as there are. -/
theorem list_yields {α : Type} {sep : Kind} {item : List Token → Read (α × List Token)}
    {pieces : α → List Piece} {between : List Piece} (hsep : IsSeparator sep between)
    {follows : Kind → Prop} (hsf : follows sep) {xs : List α} (hne : xs ≠ [])
    (hitem : ∀ x ∈ xs, ∀ ps, follows (nextKind ps) → Yields item (pieces x ++ ps) x ps)
    {ps : List Piece} (hps : follows (nextKind ps)) (hlast : nextKind ps ≠ sep) :
    Yields (fun ts => separated sep item ts.length ts)
      (between.intercalate (xs.map pieces) ++ ps) xs ps := by
  intro p
  have hlength := length_le_count_intercalate hsep pieces xs
  refine separated_yields hsep hsf hne hitem hps hlast ?_ p
  rw [length_tokens, count_append]
  omega

end Parse

end Bisaya
