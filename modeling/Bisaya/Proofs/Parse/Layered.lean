import Bisaya.Proofs.Parse.Outcome

namespace Bisaya.Parse

/-- The operators of each layer, from the loosest to the tightest. -/
def layers : List (List BinOp) :=
  [[.logic .o], [.logic .ug], [.rel .eq, .rel .ne], [.rel .lt, .rel .gt, .rel .le, .rel .ge],
    [.arith .add, .arith .sub], [.arith .mul, .arith .div, .arith .mod]]

/-- `(op next)*` behind `left`, grouped from the left; `n` bounds the number of tokens. -/
def repeated (next : List Token → Read (Expr × List Token)) (ops : List BinOp) :
    Nat → Expr → List Token → Read (Expr × List Token)
  | n + 1, left, t :: rest =>
    match BinOp.ofKind? t.kind with
    | none => .ok (left, t :: rest)
    | some op =>
      if op ∈ ops then do
        let (right, rest) ← next rest
        repeated next ops n (.binary op left right) rest
      else .ok (left, t :: rest)
  | _, _, _ => .error .endOfTokens

/-- Each layer is `next (op next)*`, where `next` is the layer below it. -/
def layered (lowest : List Token → Read (Expr × List Token)) (n : Nat) :
    List (List BinOp) → List Token → Read (Expr × List Token)
  | [], ts => lowest ts
  | ops :: tighter, ts => do
    let (left, rest) ← layered lowest n tighter ts
    repeated (layered lowest n tighter) ops n left rest

/-- The layer below the operators: signs and negations, each before another of this layer, then a
literal, a name, or the highest layer in brackets. -/
def signed : Nat → List Token → Read (Expr × List Token)
  | n + 1, t :: rest =>
    let under (op : UnOp) : Read (Expr × List Token) := do
      let (e, rest) ← signed n rest
      return (.unary op e, rest)
    match t.kind with
    | .mark .minus => under .minus
    | .mark .plus => under .plus
    | .keyword .dili =>
      match rest with
      | [] => .error .endOfTokens
      | next :: more => if isBare t next more then .ok (.lit (.tinuod false), rest) else under .dili
    -- no sign or negation comes here, so only brackets go on
    | _ => operand (fun _ => layered (signed n) n layers) (t :: rest)
  | _, _ => .error .endOfTokens

theorem mem_layer (op : BinOp) :
    ∀ k (hk : k < layers.length), op ∈ layers[k] ↔ op.level = k + 1 := by
  rcases op with op | op | op <;> cases op <;> decide

theorem level_le_six (op : BinOp) : op.level ≤ 6 := by
  rcases op with op | op | op <;> cases op <;> decide

/-- An operand is settled by its first tokens, or is one behind a sign or negation, or stands in
brackets. -/
theorem operand_cases (t : Token) (rest : List Token) :
    (∃ r, ∀ inner, operand inner (t :: rest) = r) ∨
      (∃ op, ∀ inner, operand inner (t :: rest) =
        inner UnOp.level rest >>= fun x => .ok (.unary op x.1, x.2)) ∨
      ∀ inner, operand inner (t :: rest) =
        inner 0 rest >>= fun x => expect [.mark .rparen] x.2 >>= fun y => .ok (x.1, y.2) := by
  obtain ⟨kind, literal, position⟩ := t
  cases kind with
  | mark m =>
    cases m with
    | minus => exact .inr (.inl ⟨.minus, fun _ => rfl⟩)
    | plus => exact .inr (.inl ⟨.plus, fun _ => rfl⟩)
    | lparen => exact .inr (.inr fun _ => rfl)
    | _ => exact .inl ⟨_, fun _ => rfl⟩
  | keyword k =>
    cases k with
    | dili =>
      cases rest with
      | nil => exact .inl ⟨_, fun _ => rfl⟩
      | cons next more =>
        by_cases hbare : isBare ⟨.keyword .dili, literal, position⟩ next more
        · exact .inl ⟨_, fun _ => if_pos hbare⟩
        · exact .inr (.inl ⟨.dili, fun _ => if_neg hbare⟩)
    | _ => exact .inl ⟨_, fun _ => rfl⟩
  | _ => exact .inl ⟨_, fun _ => rfl⟩

/-- The lowest layer reads as an operand does, with itself behind signs and negations and the
highest layer in brackets. -/
theorem signed_succ (n : ℕ) (t : Token) (rest : List Token) :
    signed (n + 1) (t :: rest) = operand (fun level =>
      if level = 0 then layered (signed n) n layers else signed n) (t :: rest) := by
  obtain ⟨kind, literal, position⟩ := t
  cases kind with
  | mark m => cases m <;> rfl
  | keyword k => cases k <;> rfl
  | _ => rfl

section Repeated

variable {next : List Token → Read (Expr × List Token)} {ops : List BinOp} {left : Expr} {t : Token}
  {rest : List Token} {n : ℕ}

theorem repeated_nil : repeated next ops n left [] = .error .endOfTokens := by cases n <;> rfl

theorem repeated_step {op : BinOp} (hop : BinOp.ofKind? t.kind = some op) (hmem : op ∈ ops) :
    repeated next ops (n + 1) left (t :: rest) =
      next rest >>= fun x => repeated next ops n (.binary op left x.1) x.2 := by
  rw [repeated, hop]
  exact if_pos hmem

theorem repeated_stop (h : ∀ op ∈ ops, BinOp.ofKind? t.kind ≠ some op) :
    repeated next ops (n + 1) left (t :: rest) = .ok (left, t :: rest) := by
  rw [repeated]
  cases hk : BinOp.ofKind? t.kind with
  | none => rfl
  | some op => exact if_neg fun hmem => h op hmem hk

end Repeated

/-- Climbing above a level is climbing above the next one, and then taking the operators between
the two levels one after another. -/
theorem extend_split {k : ℕ} {ops : List BinOp} (hops : ∀ op, op ∈ ops ↔ op.level = k + 1) (n : ℕ)
    (left : Expr) (ts : List Token) (hn : ts.length ≤ n) :
    extend k (left, ts) =
      extend (k + 1) (left, ts) >>= fun x => repeated (above (k + 1)) ops n x.1 x.2 := by
  -- on the number of tokens, as the tokens behind a right operand are no tail of these
  induction hlen : ts.length using Nat.strong_induction_on generalizing n left ts with
  | _ len ih =>
  subst hlen
  cases ts with
  | nil => rw [extend_nil, extend_nil]; rfl
  | cons t rest =>
    obtain ⟨n, rfl⟩ := Nat.exists_eq_add_one.2 (Nat.zero_lt_of_lt hn)
    have hrest : rest.length ≤ n := Nat.le_of_succ_le_succ hn
    rcases stops_or_operator k t rest with hstops | ⟨op, hop, hlevel⟩
    · have hnot : ∀ op ∈ ops, BinOp.ofKind? t.kind ≠ some op := by
        intro op hmem hop
        have := hstops.level_le hop
        have := (hops op).1 hmem
        omega
      rw [extend_stops hstops, extend_stops (hstops.mono k.le_succ)]
      exact (repeated_stop hnot).symm
    · rw [extend_step hop hlevel]
      obtain htight | hthis := Nat.lt_or_eq_of_le hlevel
      · -- both climbs take the operator
        rw [extend_step hop htight, bind_assoc]
        refine (above_leaves _ rest).bind_congr fun right rest' h => ?_
        have hshort := h.shorter
        exact ih _ (hshort.trans (by simp)) _ _ rest' (hshort.le.trans (hrest.trans n.le_succ)) rfl
      · -- the right operand stops at this level, where the loop goes on
        have hstops : Stops (k + 1) (t :: rest) := by
          refine ⟨t, rest, rfl, fun op' hop' => ?_⟩
          rw [hop] at hop'
          cases hop'
          exact hthis.ge
        rw [extend_stops hstops, ← hthis]
        refine Eq.trans ?_ (repeated_step hop ((hops op).2 hthis.symm)).symm
        refine Ensures.bind_congr (fun e rest' h =>
          And.intro (above_leaves _ rest e rest' h) (above_stops _ rest e rest' h)) ?_
        intro right rest' h
        have hshort := h.1.shorter
        dsimp only
        rw [ih _ (hshort.trans (by simp)) n _ rest' (by omega) rfl, extend_stops h.2]
        rfl

/-- Above the tightest operators, climbing only asks for a further token. -/
theorem extend_tightest {level : ℕ} (h : 6 ≤ level) (left : Expr) (t : Token) (rest : List Token) :
    extend level (left, t :: rest) = .ok (left, t :: rest) :=
  extend_stops ⟨t, rest, rfl, fun op _ => (level_le_six op).trans h⟩ left

theorem above_unary (ts : List Token) : above UnOp.level ts = above 6 ts := by
  rw [above_eq, above_eq]
  congr 1
  funext ⟨left, rest⟩
  cases rest with
  | nil => rw [extend_nil, extend_nil]
  | cons t rest => rw [extend_tightest (by decide), extend_tightest le_rfl]

/-- What fails at the end of the tokens anyway may ask for a further token first. -/
theorem bind_extend_bind {β : Type} (r : Read (Expr × List Token))
    {f : Expr × List Token → Read β} (hf : ∀ e, f (e, []) = .error .endOfTokens) :
    (r >>= extend 6) >>= f = r >>= f := by
  cases r with
  | error e => rfl
  | ok x =>
    obtain ⟨e, rest⟩ := x
    change extend 6 (e, rest) >>= f = f (e, rest)
    cases rest with
    | nil => rw [extend_nil, hf]; rfl
    | cons t rest => rw [extend_tightest le_rfl]; rfl

theorem above_bind_extend (level : ℕ) (ts : List Token) :
    above level ts >>= extend 6 = above level ts := by
  refine Eq.trans ?_ (bind_pure _)
  refine (above_stops level ts).bind_congr fun e rest h => ?_
  obtain ⟨t, rest, rfl, -⟩ := h
  exact extend_tightest le_rfl e t rest

section Layer

variable {next : List Token → Read (Expr × List Token)} {m k : ℕ}
  (hnext : ∀ ts, ts.length ≤ m → next ts >>= extend 6 = above (k + 1) ts)

include hnext

theorem bind_next {f : Expr × List Token → Read (Expr × List Token)}
    (hf : ∀ e, f (e, []) = .error .endOfTokens) {ts : List Token} (hts : ts.length ≤ m) :
    next ts >>= f = above (k + 1) ts >>= f := by
  rw [← hnext ts hts, bind_extend_bind _ hf]

theorem repeated_eq (ops : List BinOp) (n : ℕ) (left : Expr) (ts : List Token)
    (hts : ts.length ≤ m) :
    repeated next ops n left ts = repeated (above (k + 1)) ops n left ts := by
  induction n generalizing left ts with
  | zero => rfl
  | succ n ih =>
    cases ts with
    | nil => rfl
    | cons t rest =>
      have hrest : rest.length ≤ m := (Nat.le_succ _).trans hts
      by_cases hop : ∃ op ∈ ops, BinOp.ofKind? t.kind = some op
      · obtain ⟨op, hmem, hop⟩ := hop
        rw [repeated_step hop hmem, repeated_step hop hmem,
          bind_next hnext (fun _ => repeated_nil) hrest]
        refine (above_leaves _ rest).bind_congr fun right rest' h => ?_
        exact ih _ rest' (h.shorter.le.trans hrest)
      · push Not at hop
        rw [repeated_stop hop, repeated_stop hop]

/-- A layer over one that reads above the next level reads above this level. -/
theorem layer_eq {ops : List BinOp} (hops : ∀ op, op ∈ ops ↔ op.level = k + 1) (ts : List Token)
    (hts : ts.length ≤ m) :
    (next ts >>= fun x => repeated next ops m x.1 x.2) = above k ts := by
  calc (next ts >>= fun x => repeated next ops m x.1 x.2)
      = above (k + 1) ts >>= fun x => repeated next ops m x.1 x.2 :=
        bind_next hnext (fun _ => repeated_nil) hts
    _ = above (k + 1) ts >>= fun x => repeated (above (k + 1)) ops m x.1 x.2 :=
        (above_leaves _ ts).bind_congr fun e rest h =>
          repeated_eq hnext ops m e rest (h.shorter.le.trans hts)
    _ = operand above ts >>= extend k := by
        rw [above_eq, bind_assoc]
        refine (operand_leaves ts).bind_congr fun e rest h => ?_
        exact (extend_split hops m e rest (h.shorter.le.trans hts)).symm
    _ = above k ts := (above_eq k ts).symm

end Layer

section Layers

variable {lowest : List Token → Read (Expr × List Token)} {m : ℕ}
  (hlowest : ∀ ts, ts.length ≤ m → lowest ts >>= extend 6 = above 6 ts)

include hlowest

theorem layered_drop (k : ℕ) (hk : k ≤ 6) (ts : List Token) (hts : ts.length ≤ m) :
    layered lowest m (layers.drop k) ts >>= extend 6 = above k ts := by
  -- from the tightest layer to the loosest
  induction hk using Nat.decreasingInduction generalizing ts with
  | self => exact hlowest ts hts
  | of_succ k hk ih =>
    rw [List.drop_eq_getElem_cons hk, layered]
    rw [← above_bind_extend k ts, ← layer_eq ih (mem_layer · k hk) ts hts]

theorem layered_eq (ts : List Token) (hts : ts.length ≤ m) :
    layered lowest m layers ts = above 0 ts :=
  layer_eq (layered_drop hlowest 1 (by decide)) (mem_layer · 0 (by decide)) ts hts

end Layers

theorem signed_eq (m : ℕ) (ts : List Token) (hts : ts.length ≤ m) :
    signed m ts >>= extend 6 = above 6 ts := by
  induction m generalizing ts with
  | zero =>
    obtain rfl := List.length_eq_zero_iff.1 (Nat.le_zero.1 hts)
    rfl
  | succ m ih =>
    cases ts with
    | nil => rfl
    | cons t rest =>
      have hrest : rest.length ≤ m := Nat.le_of_succ_le_succ hts
      rw [signed_succ, above_eq]
      rcases operand_cases t rest with ⟨r, hr⟩ | ⟨op, hop⟩ | hbracket
      · rw [hr, hr]
      · -- the climb behind a sign asks for a further token once more
        rw [hop, hop, if_neg (by decide), above_unary, ← ih rest hrest, bind_assoc, bind_assoc]
        exact (bind_extend_bind _ fun e => extend_nil 6 (.unary op e)).symm
      · rw [hbracket, hbracket, if_pos rfl, layered_eq ih rest hrest]

theorem expr_position {ts rest : List Token} {start : ℕ} {e : Expr}
    (h : expr (ts.drop start) = .ok (e, rest)) :
    ∃ next, start < next ∧ next < ts.length ∧ rest = ts.drop next := by
  have hleaves : Leaves rest (ts.drop start) := above_leaves 0 _ e rest h
  obtain ⟨t, more, hmore, -⟩ := above_stops 0 _ e rest h
  have hpos : 0 < rest.length := by simp [hmore]
  have hshort := hleaves.shorter
  rw [List.length_drop] at hshort
  refine ⟨ts.length - rest.length, by omega, by omega, ?_⟩
  exact List.suffix_iff_eq_drop.1 (hleaves.suffix.trans (List.drop_suffix start ts))

theorem expr_ne_endOfTokens {ts : List Token} (h : Terminated ts) :
    expr ts ≠ .error .endOfTokens := by
  intro herror
  have houtcome := expr_outcome h
  rw [herror] at houtcome
  cases houtcome with
  | fails _ _ hblames =>
    cases hblames with
    | token _ htells => cases htells

/-- From each place of a text with an end, climbing by level reads what the layered grammar reads:
the same expression up to the same token, or the same failure, which is never for want of tokens. -/
theorem layered_eq_expr {ts : List Token} (hts : Terminated ts) (start n : ℕ)
    (hn : ts.length ≤ n) :
    layered (signed n) n layers (ts.drop start) = expr (ts.drop start) ∧
      (∀ e rest, expr (ts.drop start) = .ok (e, rest) →
        ∃ next, start < next ∧ next < ts.length ∧ rest = ts.drop next) ∧
      (start < ts.length → expr (ts.drop start) ≠ .error .endOfTokens) := by
  have hlen : (ts.drop start).length ≤ n := by
    rw [List.length_drop]
    omega
  refine ⟨layered_eq (signed_eq n) _ hlen, fun e rest h => expr_position h, fun hstart => ?_⟩
  exact expr_ne_endOfTokens (hts.suffix (List.drop_suffix start ts) (by simpa using hstart))

theorem layered_eq_expr_differences :
    Terminated (tokenize "x = a - -b * c - (d O e)") ∧
      layered (signed 15) 15 layers ((tokenize "x = a - -b * c - (d O e)").drop 2) =
        .ok (.binary (.arith .sub)
          (.binary (.arith .sub) (.var "a")
            (.binary (.arith .mul) (.unary .minus (.var "b")) (.var "c")))
          (.binary (.logic .o) (.var "d") (.var "e")), [⟨.eof, "EOF", ⟨1, 25⟩⟩]) := by
  have hts : Terminated (tokenize "x = a - -b * c - (d O e)") :=
    ⟨⟨.eof, "EOF", ⟨1, 25⟩⟩, by cbv, rfl⟩
  refine ⟨hts, (layered_eq_expr hts 2 15 (by cbv)).1.trans ?_⟩
  cbv

end Bisaya.Parse
