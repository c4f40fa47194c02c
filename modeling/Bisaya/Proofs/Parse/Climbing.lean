import Bisaya.Proofs.Parse.Tracing

namespace Bisaya.Parse

variable {ts : List Token} {i n : ℕ}

/-- An expression whose operators bind more tightly than `level`, with as large a bound as the
tokens need. -/
def above (level : ℕ) (ts : List Token) : Read (Expr × List Token) := exprAbove ts.length level ts

def extend (level : ℕ) (x : Expr × List Token) : Read (Expr × List Token) :=
  climb x.2.length level x.1 x.2

theorem above_ends (level : ℕ) (hn : ts.length - i < n) :
    Ends ts Expr.tree ((Reader.exprAbove n level).walk ts i) (above level (ts.drop i)) :=
  (Reader.exprAbove_climb_ends n).1 _ level i hn (by simp)

theorem extend_ends (level : ℕ) (left : Expr) (hn : ts.length - i < n) :
    Ends ts Expr.tree ((Reader.climb n level left.tree).walk ts i)
      (extend level (left, ts.drop i)) :=
  (Reader.exprAbove_climb_ends n).2 _ level left i hn (by simp)

theorem operand_ends (hn : ts.length - i < n + 1) :
    Ends ts Expr.tree ((Reader.operand (Reader.exprAbove n)).walk ts i)
      (operand above (ts.drop i)) :=
  Reader.operand_ends fun _ level => above_ends level (by omega)

/-- The bound plays no part once it is large enough. -/
theorem climb_eq_extend (hn : ts.length ≤ n) (level : ℕ) (left : Expr) :
    climb n level left ts = extend level (left, ts) := by
  have hclimb : Ends ts Expr.tree ((Reader.climb (ts.length + 1) level left.tree).walk ts 0)
      (climb n level left ts) :=
    (Reader.exprAbove_climb_ends _).2 n level left 0 (by omega) hn
  have hextend : Ends ts Expr.tree ((Reader.climb (ts.length + 1) level left.tree).walk ts 0)
      (extend level (left, ts)) :=
    extend_ends level left (by omega)
  exact hclimb.unique hextend Expr.tree_injective

theorem above_eq (level : ℕ) (ts : List Token) :
    above level ts = operand above ts >>= extend level := by
  have habove : Ends ts Expr.tree ((Reader.exprAbove (ts.length + 2) level).walk ts 0)
      (above level ts) :=
    above_ends level (by omega)
  have hoperand : Ends ts Expr.tree
      ((Reader.operand (Reader.exprAbove (ts.length + 1))).walk ts 0) (operand above ts) :=
    operand_ends (by omega)
  refine habove.unique ?_ Expr.tree_injective
  rw [Reader.exprAbove]
  exact hoperand.bind fun left j _ _ _ => extend_ends level left (by omega)

theorem above_leaves (level : ℕ) (ts : List Token) :
    Ensures (above level ts) fun _ rest => Leaves rest ts := by
  have habove : Ends ts Expr.tree ((Reader.exprAbove (ts.length + 1) level).walk ts 0)
      (above level ts) :=
    above_ends level (by omega)
  exact habove.leaves (Reader.exprAbove_takes _ level)

theorem operand_leaves (ts : List Token) :
    Ensures (operand above ts) fun _ rest => Leaves rest ts := by
  have hoperand : Ends ts Expr.tree ((Reader.operand (Reader.exprAbove (ts.length + 1))).walk ts 0)
      (operand above ts) :=
    operand_ends (by omega)
  exact hoperand.leaves (Reader.operand_takes _)

theorem extend_nil (level : ℕ) (left : Expr) : extend level (left, []) = .error .endOfTokens :=
  climb_nil _ _ _

theorem extend_step {level : ℕ} {left : Expr} {t : Token} {rest : List Token} {op : BinOp}
    (hop : BinOp.ofKind? t.kind = some op) (hlevel : level < op.level) :
    extend level (left, t :: rest) =
      above op.level rest >>= fun x => extend level (.binary op left x.1, x.2) := by
  change climb (rest.length + 1) level left (t :: rest) = _
  rw [climb, hop]
  dsimp only
  rw [if_pos hlevel]
  refine (above_leaves op.level rest).bind_congr fun e rest' h => ?_
  exact climb_eq_extend h.shorter.le level _

/-- The next token is there, and is no operator above `level`. -/
def Stops (level : ℕ) (ts : List Token) : Prop :=
  ∃ t rest, ts = t :: rest ∧ ∀ op, BinOp.ofKind? t.kind = some op → op.level ≤ level

theorem stops_or_operator (level : ℕ) (t : Token) (rest : List Token) :
    Stops level (t :: rest) ∨ ∃ op, BinOp.ofKind? t.kind = some op ∧ level < op.level := by
  by_cases h : ∀ op, BinOp.ofKind? t.kind = some op → op.level ≤ level
  · exact .inl ⟨t, rest, rfl, h⟩
  · push Not at h
    exact .inr h

theorem Stops.level_le {level : ℕ} {t : Token} {rest : List Token} (h : Stops level (t :: rest))
    {op : BinOp} (hop : BinOp.ofKind? t.kind = some op) : op.level ≤ level := by
  obtain ⟨_, _, heq, hlevel⟩ := h
  obtain ⟨rfl, -⟩ := List.cons.inj heq
  exact hlevel op hop

theorem Stops.mono {k level : ℕ} {ts : List Token} (h : Stops k ts) (hk : k ≤ level) :
    Stops level ts := by
  obtain ⟨t, rest, rfl, hop⟩ := h
  exact ⟨t, rest, rfl, fun op h => (hop op h).trans hk⟩

theorem extend_stops {level : ℕ} {ts : List Token} (h : Stops level ts) (left : Expr) :
    extend level (left, ts) = .ok (left, ts) := by
  obtain ⟨t, rest, rfl, hop⟩ := h
  change climb (rest.length + 1) level left (t :: rest) = _
  rw [climb]
  cases hk : BinOp.ofKind? t.kind with
  | none => rfl
  | some op => exact if_neg (Nat.not_lt.2 (hop op hk))

theorem climb_stops (n level : ℕ) (left : Expr) (ts : List Token) :
    Ensures (climb n level left ts) fun _ rest => Stops level rest := by
  induction n generalizing left ts with
  | zero => exact climb_zero level left ts ▸ .error _
  | succ n ih =>
    cases ts with
    | nil => exact climb_nil _ level left ▸ .error _
    | cons t rest =>
      rw [climb]
      cases hk : BinOp.ofKind? t.kind with
      | none => exact .ok ⟨t, rest, rfl, by simp [hk]⟩
      | some op =>
        dsimp only
        by_cases hlevel : level < op.level
        · rw [if_pos hlevel]
          exact Ensures.bind (fun _ _ h => h) fun right rest' _ => ih _ rest'
        · rw [if_neg hlevel]
          exact .ok ⟨t, rest, rfl, by simpa [hk] using hlevel⟩

theorem above_stops (level : ℕ) (ts : List Token) :
    Ensures (above level ts) fun _ rest => Stops level rest := by
  rw [above_eq]
  exact Ensures.bind (fun _ _ h => h) fun left rest _ => climb_stops _ level left rest

end Bisaya.Parse
