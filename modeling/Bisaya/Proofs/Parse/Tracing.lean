import Bisaya.Proofs.Parse.Walking

namespace Bisaya

namespace Reader

open Parse (Read nextIs)

variable {ts : List Token} {α β : Type} {i j k n : ℕ} {t : Token}

theorem expect_takes {kinds : List Kind} (h : .eof ∉ kinds) : (expect kinds).Takes := h

theorem name_takes : name.Takes := (expect_takes (by decide)).bind _

theorem name_ends : Ends ts id (name.walk ts i) (Parse.name (ts.drop i)) :=
  (expect_ends (by decide)).map Token.literal fun _ => rfl

/-- With a bound above the number of tokens left, the walk does not come to it. -/
theorem separated_ends {sep : Kind} (hsep : sep ≠ .eof) {item : Reader β} (htakes : item.Takes)
    {item' : List Token → Read (α × List Token)} {f : α → β}
    (hnil : item' [] = .error .endOfTokens)
    (hitem : ∀ j, i ≤ j → Ends ts f (item.walk ts j) (item' (ts.drop j))) {n m : ℕ}
    (hn : ts.length - i < n) (hm : ts.length - i ≤ m) :
    Ends ts (List.map f) ((separated sep item n).walk ts i)
      (Parse.separated sep item' m (ts.drop i)) := by
  induction n generalizing m i with
  | zero => omega
  | succ n ih =>
    -- the reading may have no bound left where there is no token
    have hm' : Parse.separated sep item' m (ts.drop i) =
        Parse.separated sep item' (m - 1 + 1) (ts.drop i) := by
      cases m with
      | zero =>
        have hdrop : ts.drop i = [] := List.drop_eq_nil_of_le (by omega)
        rw [hdrop, Parse.separated_nil hnil, Parse.separated_nil hnil]
      | succ m => rfl
    rw [hm', Parse.separated, separated]
    refine (hitem i le_rfl).bind fun a j _ hpass hlt => ?_
    have hbound := hpass.bound (hlt htakes)
    have hlt := hlt htakes
    rw [walk_next]
    dsimp only
    cases hnext : nextIs sep (ts.drop j) with
    | false => exact .pure [a]
    | true =>
      refine ends_known hsep hnext fun t _ hdrop => ?_
      rw [hdrop]
      have hrest : Ends ts (List.map f) ((separated sep item n).walk ts (j + 1))
          (Parse.separated sep item' (m - 1) (ts.drop (j + 1))) :=
        ih (fun j' hj => hitem j' (by omega)) (by omega) (by omega)
      exact hrest.map (a :: ·) fun _ => rfl

theorem signed_ends (op : UnOp) (hop : Tree.Op.ofKind? t.kind = some op.tree)
    {inner : ℕ → Reader Tree.Expr} {r : Read (Expr × List Token)}
    (hinner : Ends ts Expr.tree ((inner UnOp.level).walk ts j) r) :
    Ends ts Expr.tree ((signed inner (t.seen i)).walk ts j)
      (r >>= fun x => .ok (.unary op x.1, x.2)) := by
  have hoperator : operator (t.seen i) = done op.tree := by
    rw [operator, Token.seen, hop]
  rw [signed, hoperator]
  exact hinner.map (Expr.unary op) fun _ => rfl

theorem operand_takes (inner : ℕ → Reader Tree.Expr) : (operand inner).Takes := by
  intro t ht
  refine ⟨.unexpected, t.place, ?_⟩
  change Reader.bind (done t) _ = _
  simp only [Reader.bind, ht]

theorem dili_ends {inner : ℕ → Reader Tree.Expr}
    {inner' : ℕ → List Token → Read (Expr × List Token)} (hsome : ts[i]? = some t)
    (ht : t.kind = .keyword .dili)
    (hinner : Ends ts Expr.tree ((inner UnOp.level).walk ts (i + 1))
      (inner' UnOp.level (ts.drop (i + 1)))) :
    Ends ts Expr.tree ((token >>= fun _ => ask .bare >>= fun bare =>
        if bare then pure (.lit (.tinuod false)) else signed inner (t.seen i)).walk ts (i + 1))
      (Parse.operand inner' (t :: ts.drop (i + 1))) := by
  obtain ⟨hnone, hdrop⟩ | ⟨u, hsome', hdrop⟩ := drop_cases ts (i + 1)
  · rw [hdrop]
    simp only [Parse.operand, ht]
    exact ends_none hnone (.inr rfl)
  · have hunder := signed_ends (i := i) .dili (by rw [ht]; rfl) hinner
    rw [hdrop] at hunder ⊢
    simp only [Parse.operand, ht]
    rw [walk_token hsome', walk_ask, Look.bare_holds ht hsome, hdrop, Parse.standsAlone]
    split
    · rw [← hdrop]
      exact .pure (Expr.lit _)
    · exact hunder

theorem operand_ends {inner : ℕ → Reader Tree.Expr}
    {inner' : ℕ → List Token → Read (Expr × List Token)}
    (hinner : i < ts.length → ∀ level,
      Ends ts Expr.tree ((inner level).walk ts (i + 1)) (inner' level (ts.drop (i + 1)))) :
    Ends ts Expr.tree ((operand inner).walk ts i) (Parse.operand inner' (ts.drop i)) := by
  refine ends_take rfl (fun t rest ht => ?_) fun t hsome _ => ?_
  · exact ⟨.unexpected, by simp only [Parse.operand, ht, Complaint.error],
      fun i => by simp only [Token.seen, ht]⟩
  · replace hinner := hinner (List.getElem?_eq_some_iff.1 hsome).1
    obtain ⟨kind, literal, position⟩ := t
    cases kind with
    | int =>
      simp only [Parse.operand, Token.seen]
      cases Numero.read? literal.toList with
      | some n => exact .pure (Expr.lit _)
      | none => exact .fail hsome .number
    | float =>
      simp only [Parse.operand, Token.seen]
      cases Tipik.read? literal.toList with
      | some x => exact .pure (Expr.lit _)
      | none => exact .fail hsome .number
    | string => exact .pure (Expr.lit _)
    | ident => exact .pure (Expr.var _)
    | mark m =>
      cases m with
      | minus => exact signed_ends .minus rfl (hinner _)
      | plus => exact signed_ends .plus rfl (hinner _)
      | lparen =>
        refine (hinner 0).bind fun e j _ _ _ => ?_
        exact (expect_ends (by decide)).map (fun _ => e) fun _ => rfl
      | _ => exact .fail hsome .unexpected
    | keyword k =>
      cases k with
      | oo => exact .pure (Expr.lit _)
      | dili => exact dili_ends hsome rfl (hinner UnOp.level)
      | _ => exact .fail hsome .unexpected
    | _ => exact .fail hsome .unexpected

theorem exprAbove_takes (n level : ℕ) : (exprAbove n level).Takes := by
  cases n with
  | zero => trivial
  | succ n => exact (operand_takes _).bind _

theorem climb_ends {m level : ℕ} {left : Expr} (hm : ts.length - i ≤ m)
    (habove : i < ts.length → ∀ level, Ends ts Expr.tree ((exprAbove n level).walk ts (i + 1))
      (Parse.exprAbove (m - 1) level (ts.drop (i + 1))))
    (hclimb : ∀ j left, i < ts.length → i < j → Ends ts Expr.tree
      ((climb n level left.tree).walk ts j) (Parse.climb (m - 1) level left (ts.drop j))) :
    Ends ts Expr.tree ((climb (n + 1) level left.tree).walk ts i)
      (Parse.climb m level left (ts.drop i)) := by
  rw [climb]
  obtain ⟨hnone, hdrop⟩ | ⟨t, hsome, hdrop⟩ := drop_cases ts i
  · rw [hdrop, Parse.climb_nil]
    exact ends_none hnone (.inr rfl)
  have hi := (List.getElem?_eq_some_iff.1 hsome).1
  obtain ⟨m, rfl⟩ : ∃ m', m = m' + 1 := ⟨m - 1, by omega⟩
  rw [walk_token hsome, hdrop, Parse.climb, Token.seen]
  cases hop : BinOp.ofKind? t.kind with
  | none =>
    rw [Tree.precedence_of_none hop, if_neg (Nat.not_lt_zero level), ← hdrop]
    exact .pure left
  | some op =>
    have hne : t.kind ≠ .eof := by
      intro h
      rw [h] at hop
      cases hop
    obtain ⟨hlevel, hop⟩ := Tree.of_ofKind?_eq_some hop
    rw [hlevel]
    dsimp only
    split
    · refine ends_pass hsome hne ?_
      rw [operator, Token.seen, hop, hlevel]
      refine (habove hi op.level).bind fun right j _ hpass _ => ?_
      exact hclimb j (.binary op left right) hi hpass.le
    · rw [← hdrop]
      exact .pure left

theorem exprAbove_climb_ends (n : ℕ) :
    (∀ m level i, ts.length - i < n → ts.length - i ≤ m →
      Ends ts Expr.tree ((exprAbove n level).walk ts i) (Parse.exprAbove m level (ts.drop i))) ∧
    ∀ m level left i, ts.length - i < n → ts.length - i ≤ m →
      Ends ts Expr.tree ((climb n level left.tree).walk ts i)
        (Parse.climb m level left (ts.drop i)) := by
  -- both at once, as each calls the other with a smaller bound
  induction n with
  | zero => exact ⟨fun _ _ _ h => by omega, fun _ _ _ _ h => by omega⟩
  | succ n ih =>
    obtain ⟨ihAbove, ihClimb⟩ := ih
    constructor
    · intro m level i hn hm
      have hm' : Parse.exprAbove m level (ts.drop i) =
          Parse.exprAbove (m - 1 + 1) level (ts.drop i) := by
        cases m with
        | zero =>
          rw [List.drop_eq_nil_of_le (by omega : ts.length ≤ i)]
          rfl
        | succ m => rfl
      rw [hm', exprAbove, Parse.exprAbove]
      have hoperand : Ends ts Expr.tree ((operand (exprAbove n)).walk ts i)
          (Parse.operand (Parse.exprAbove (m - 1)) (ts.drop i)) :=
        operand_ends fun hi level => ihAbove (m - 1) level (i + 1) (by omega) (by omega)
      refine hoperand.bind fun left j _ hpass hlt => ?_
      have hbound := hpass.bound (hlt (operand_takes _))
      have hlt := hlt (operand_takes _)
      exact ihClimb (m - 1) level left j (by omega) (by omega)
    · intro m level left i hn hm
      refine climb_ends hm (fun hi level => ?_) fun j left hi hj => ?_
      · exact ihAbove (m - 1) level (i + 1) (by omega) (by omega)
      · exact ihClimb (m - 1) level left j (by omega) (by omega)

theorem expr_ends (hn : ts.length - i < n) :
    Ends ts Expr.tree ((expr n).walk ts i) (Parse.expr (ts.drop i)) :=
  (exprAbove_climb_ends n).1 _ 0 i hn (by simp)

theorem token_of_expect {kinds : List Kind} {rest : List Token}
    (h : Parse.expect kinds (ts.drop i) = .ok (t, rest)) : ts[i]? = some t := by
  obtain ⟨-, hdrop⟩ | ⟨u, hsome, hdrop⟩ := drop_cases ts i
  · rw [hdrop] at h
    cases h
  · rw [hdrop, Parse.expect] at h
    split at h
    · cases h
      exact hsome
    · cases h

theorem dataType_ends : Ends ts id (dataType.walk ts i) (Parse.dataType (ts.drop i)) := by
  rw [Parse.dataType_eq]
  refine (expect_ends (by decide)).bind fun t j hr _ _ => ?_
  dsimp only [Token.seen]
  cases DataType.all.find? (t.kind = Parse.typeKind ·) with
  | none => exact .fail (token_of_expect hr) (.expected _)
  | some ty => exact .pure ty

theorem literal_ends {p : ℕ} (hsome : ts[p]? = some t) (name : String) (ty : DataType)
    (negative : Bool) :
    Ends ts id ((literal name ty negative (t.seen p)).walk ts i)
      (Parse.literal name ty negative t >>= fun v => .ok (v, ts.drop i)) := by
  obtain ⟨kind, text, position⟩ := t
  cases ty with
  | numero =>
    cases kind with
    | int =>
      simp only [literal, Parse.literal, Token.seen]
      cases Numero.read? (Tipik.signed negative text.toList) with
      | some n => exact .pure (Value.numero n)
      | none => exact .fail hsome .number
    | _ => exact .fail hsome (.mismatch name .numero)
  | tipik =>
    cases kind with
    | int | float =>
      simp only [literal, Parse.literal, Token.seen]
      cases Tipik.read? text.toList with
      | some x => exact .pure (Value.tipik _)
      | none => exact .fail hsome .number
    | _ => exact .fail hsome (.mismatch name .tipik)
  | letra =>
    cases kind with
    | string => exact .pure (Value.letra text)
    | _ => exact .fail hsome (.mismatch name .letra)
  | tinuod =>
    cases kind with
    | string =>
      simp only [literal, Parse.literal, Token.seen]
      cases Parse.quotedValue text with
      | tinuod b => exact .pure (Value.tinuod b)
      | _ => exact .fail hsome (.mismatch name .tinuod)
    | keyword w =>
      cases w with
      | oo => exact .pure (Value.tinuod true)
      | dili => exact .pure (Value.tinuod false)
      | _ => exact .fail hsome (.mismatch name .tinuod)
    | _ => exact .fail hsome (.mismatch name .tinuod)

/-- No value is spelled by an end mark. -/
theorem literal_eof (ht : t.kind = .eof) (name : String) (ty : DataType) (negative : Bool) :
    Parse.literal name ty negative t = .error (.ofMismatch name ty t) ∧
      ∀ i, literal name ty negative (t.seen i) = fail (.mismatch name ty) i := by
  cases ty <;> simp only [Parse.literal, literal, Token.seen, ht, implies_true, and_self]

theorem magnitude_ends (name : String) (ty : DataType) (negative : Bool) :
    Ends ts id ((take >>= literal name ty negative).walk ts i)
      (Parse.magnitude name ty negative (ts.drop i)) := by
  refine ends_take rfl (fun t rest ht => ?_) fun t hsome _ => literal_ends hsome name ty negative
  obtain ⟨hread, hliteral⟩ := literal_eof ht name ty negative
  exact ⟨.mismatch name ty, by rw [Parse.magnitude, hread]; rfl, hliteral⟩

theorem initial_ends (name : String) (ty : DataType) :
    Ends ts id ((initial name ty).walk ts i) (Parse.initial name ty (ts.drop i)) := by
  refine ends_take rfl (fun t rest ht => ?_) fun t hsome _ => ?_
  · obtain ⟨hread, hliteral⟩ := literal_eof ht name ty false
    have hsign : ¬ (Parse.isNumeric ty && (t.kind = .mark .minus || t.kind = .mark .plus)) := by
      simp [ht]
    refine ⟨.mismatch name ty, ?_, fun i => ?_⟩
    · rw [Parse.initial_cons, if_neg hsign, Parse.magnitude, hread]
      rfl
    · rw [← hliteral i]
      exact if_neg hsign
  · rw [Parse.initial_cons, Token.seen]
    split
    · exact magnitude_ends name ty _
    · exact literal_ends hsome name ty false

theorem item_takes (ty : DataType) : (item ty).Takes := name_takes.bind _

theorem item_ends (ty : DataType) :
    Ends ts id ((item ty).walk ts i) (Parse.item ty (ts.drop i)) := by
  refine name_ends.bind fun name j _ _ _ => ?_
  rw [walk_next]
  dsimp only
  cases hnext : nextIs (.mark .assign) (ts.drop j) with
  | false => exact .pure _
  | true =>
    refine ends_known (by decide) hnext fun t _ hdrop => ?_
    rw [hdrop]
    exact (initial_ends name ty).map (fun v => Item.mk name (some v)) fun _ => rfl

theorem declaration_ends (hn : ts.length - i < n) :
    Ends ts Stmt.tree ((declaration n).walk ts i) (Parse.declaration (ts.drop i)) := by
  refine dataType_ends.bind fun ty j _ hpass _ => ?_
  have hle := hpass.le
  have hitems : Ends ts (List.map id) ((separated (.mark .comma) (item ty) n).walk ts j)
      (Parse.separated (.mark .comma) (Parse.item ty) (ts.drop j).length (ts.drop j)) :=
    separated_ends (by decide) (item_takes ty) rfl (fun _ _ => item_ends ty) (by omega) (by simp)
  exact hitems.map (Stmt.declare ty) fun items => by rw [List.map_id]; rfl

theorem target_takes (commas : Bool) : (target commas).Takes := by
  have hseps : .eof ∉ Parse.separators commas := by cases commas <;> decide
  exact (expect_takes hseps).bind _

theorem target_ends (commas : Bool) :
    Ends ts id ((target commas).walk ts i) (Parse.target commas (ts.drop i)) := by
  have hseps : .eof ∉ Parse.separators commas := by cases commas <;> decide
  refine (expect_ends hseps).bind fun sep j _ _ _ => ?_
  have hname : Ends ts id ((expect [.ident] >>= fun t => pure (some t.literal)).walk ts j)
      (Parse.name (ts.drop j) >>= fun x => .ok (some x.1, x.2)) := by
    rw [Parse.name, bind_assoc]
    exact (expect_ends (by decide)).map (fun t => some t.literal) fun _ => rfl
  dsimp only [Parse.targetBehind]
  rw [Token.seen]
  split
  · exact hname
  · rw [walk_target, List.tail_drop]
    split
    · exact hname
    · exact .pure _

theorem assignment_ends (commas : Bool) (targets : List String) (hn : ts.length - i < n) :
    Ends ts Assignment.tree ((assignment commas n targets).walk ts i)
      (Parse.assignment commas targets (ts.drop i)) := by
  induction n generalizing targets i with
  | zero => omega
  | succ n ih =>
    rw [assignment, Parse.assignment_eq]
    refine (target_ends commas).bind fun name? j _ hpass hlt => ?_
    have hbound := hpass.bound (hlt (target_takes commas))
    have hlt := hlt (target_takes commas)
    cases name? with
    | some name => exact ih (targets ++ [name]) (by omega)
    | none => exact (expr_ends (by omega)).map (Assignment.mk targets) fun _ => rfl

theorem step?_eq_none {name : String} {us : List Token} (hup : nextIs (.mark .increment) us = false)
    (hdown : nextIs (.mark .decrement) us = false) : Parse.step? name us = none := by
  cases us with
  | nil => rfl
  | cons t rest =>
    rw [Parse.step?, if_neg (of_decide_eq_false hup), if_neg (of_decide_eq_false hdown)]

theorem update_ends (commas : Bool) (name : String) (hn : ts.length - i < n) :
    Ends ts Update.tree ((update n commas name).walk ts i)
      (Parse.update commas name (ts.drop i)) := by
  rw [update, walk_next, Parse.update]
  cases hup : nextIs (.mark .increment) (ts.drop i) with
  | true =>
    obtain ⟨t, hsome, ht, hdrop⟩ := nextIs_drop hup
    rw [if_pos rfl, increment, walk_expect hsome (by simp [ht]) (by simp [ht]), Token.seen_kind,
      if_pos ht, hdrop, Parse.step?, if_pos ht]
    exact .pure (Update.step ⟨name, .up⟩)
  | false =>
    rw [if_neg Bool.false_ne_true, walk_next]
    cases hdown : nextIs (.mark .decrement) (ts.drop i) with
    | true =>
      obtain ⟨t, hsome, ht, hdrop⟩ := nextIs_drop hdown
      have hother : t.kind ≠ .mark .increment := by simp [ht]
      rw [if_pos rfl, increment, walk_expect hsome (by simp [ht]) (by simp [ht]), Token.seen_kind,
        if_neg hother, hdrop, Parse.step?, if_neg hother, if_pos ht]
      exact .pure (Update.step ⟨name, .down⟩)
    | false =>
      rw [if_neg Bool.false_ne_true, step?_eq_none hup hdown]
      exact (assignment_ends commas [name] hn).relabel fun a _ => ⟨.assign a, rfl, rfl⟩

theorem segment_takes (n : ℕ) : (segment n).Takes := by
  intro t
  change Reader.Takes (Reader.bind (done t) _)
  rw [Reader.bind]
  split
  · exact (expect_takes (by decide)).bind _
  · exact (expect_takes (by decide)).bind _
  · exact (exprAbove_takes n 0).bind _

theorem segment_ends (hn : ts.length - i < n) :
    Ends ts Segment.tree ((segment n).walk ts i) (Parse.segment (ts.drop i)) := by
  refine ends_token rfl fun t hsome hdrop => ?_
  have hexpr : Ends ts Segment.tree ((expr n >>= fun e => pure (.expr e)).walk ts i)
      (Parse.expr (t :: ts.drop (i + 1)) >>= fun x => .ok (Segment.expr x.1, x.2)) :=
    hdrop ▸ (expr_ends hn).map Segment.expr fun _ => rfl
  obtain ⟨kind, text, position⟩ := t
  cases kind with
  | mark m =>
    cases m with
    | dollar =>
      have hnext : nextIs (.mark .dollar) (ts.drop i) = true := by
        rw [hdrop]
        rfl
      exact ends_known (by decide) hnext fun _ _ _ => .pure Segment.newline
    | _ => exact hexpr
  | escape =>
    simp only [Token.seen, Parse.segment]
    rw [walk_expect hsome (List.mem_singleton.2 rfl) Kind.noConfusion]
    simp only [Token.seen]
    cases text.toList with
    | cons c rest => exact .pure (Segment.escape c)
    | nil => exact .fail hsome .unexpected
  | _ => exact hexpr

theorem print_ends (hn : ts.length - i < n) :
    Ends ts Stmt.tree ((print n).walk ts i) (Parse.print (ts.drop i)) := by
  refine (expect_ends (by decide)).bind fun _ j _ hpass _ => ?_
  have hle := hpass.le
  have hsegments : Ends ts (List.map Segment.tree)
      ((separated (.mark .ampersand) (segment n) n).walk ts j)
      (Parse.separated (.mark .ampersand) Parse.segment (ts.drop j).length (ts.drop j)) :=
    separated_ends (by decide) (segment_takes n) rfl (fun _ _ => segment_ends (by omega))
      (by omega) (by simp)
  exact hsegments.map Stmt.print fun _ => rfl

theorem read_ends (hn : ts.length - i < n) :
    Ends ts Stmt.tree ((read n).walk ts i) (Parse.read (ts.drop i)) := by
  refine (expect_ends (by decide)).bind fun _ j _ hpass _ => ?_
  have hle := hpass.le
  have hnames : Ends ts (List.map id) ((separated (.mark .comma) name n).walk ts j)
      (Parse.separated (.mark .comma) Parse.name (ts.drop j).length (ts.drop j)) :=
    separated_ends (by decide) name_takes rfl (fun _ _ => name_ends) (by omega) (by simp)
  exact hnames.map Stmt.read fun names => by rw [List.map_id]; rfl

theorem clauseName_ends (clause : Clause) :
    Ends ts id ((clauseName clause).walk ts i) (Parse.clauseName clause (ts.drop i)) := by
  refine ends_take rfl (fun t rest ht => ?_) fun t hsome _ => ?_
  · have hname : t.kind ≠ .ident := by simp [ht]
    exact ⟨.clause clause, if_neg hname, fun _ => if_neg hname⟩
  · rw [Parse.clauseName, Token.seen]
    split
    · exact .pure t.literal
    · exact .fail hsome (.clause clause)

theorem ends_words {word : Keyword}
    (hwords : (nextIs (.keyword .kung) (ts.drop i) && nextIs (.keyword word) (ts.drop (i + 1))) =
      true)
    {f : α → β} {s : Reader β} {r : Read (α × List Token)}
    (h : ∀ a b, a.kind = .keyword .kung → b.kind = .keyword word →
      ts.drop i = a :: b :: ts.drop (i + 2) → i + 1 < ts.length →
        Ends ts f (s.walk ts (i + 2)) r) :
    Ends ts f
      ((expect [.keyword .kung] >>= fun _ =>
        expect [.keyword word] >>= fun _ => s).walk ts i) r := by
  obtain ⟨hkung, hbehind⟩ := Bool.and_eq_true_iff.1 hwords
  obtain ⟨b, hsome, -, -⟩ := nextIs_drop hbehind
  refine ends_known (by decide) hkung fun a ha hdrop => ?_
  refine ends_known Kind.noConfusion hbehind fun b hb hdrop' => ?_
  exact h a b ha hb (hdrop.trans (by rw [hdrop'])) (List.getElem?_eq_some_iff.1 hsome).1

/-- A frame knows its opening brace by the place or by the position. -/
inductive FrameAt (ts : List Token) : Frame → Parse.Frame → Prop where
  | program : FrameAt ts .program .program
  | block {place : ℕ} {t : Token} (h : ts[place]? = some t) :
      FrameAt ts (.block place) (.block t.position)

theorem branch_takes (n : ℕ) (inner : Inner) : (branch n inner).Takes := by
  intro b
  change Reader.Takes (if b = true then _ else _)
  split
  · exact (exprAbove_takes n 0).bind _
  · exact fun t _ => ⟨_, _, rfl⟩

section Inner

variable {inner : Inner} {inner' : Parse.Inner}
  (hinner : ∀ frame frame' j, FrameAt ts frame frame' → ts.length - j ≤ k →
    Ends ts bodyTree ((inner frame).walk ts j) (inner' frame' (ts.drop j)))

include hinner

theorem block_ends (hi : ts.length - i ≤ k) :
    Ends ts bodyTree ((block inner).walk ts i) (Parse.block inner' (ts.drop i)) := by
  have hbody {j : ℕ} (hj : ts.length - j ≤ k) : Ends ts bodyTree
      ((expect [.mark .lbrace] >>= fun opener => inner (.block opener.place)).walk ts j)
      (Parse.expect [.mark .lbrace] (ts.drop j) >>= fun x => inner' (.block x.1.position) x.2) := by
    refine (expect_ends (by decide)).bind fun opener j' hr hpass _ => ?_
    have hle := hpass.le
    exact hinner _ _ _ (.block (token_of_expect hr)) (by omega)
  rw [block, walk_next, Parse.block]
  cases hword : nextIs (.keyword .pundok) (ts.drop i) with
  | false => exact hbody hi
  | true =>
    refine ends_known (by decide) hword fun t _ hdrop => ?_
    rw [hdrop]
    exact hbody (by omega)

theorem branch_ends (hi : ts.length - i ≤ k) (hn : ts.length - i < n) :
    Ends ts (fun b => .mk (some b.1.tree) (bodyTree b.2)) ((branch n inner).walk ts i)
      (Parse.branch inner' (ts.drop i)) := by
  rw [branch, walk_next]
  cases hnext : nextIs (.mark .lparen) (ts.drop i) with
  | true =>
    obtain ⟨t, -, ht, hdrop⟩ := nextIs_drop hnext
    have heq : Parse.branch inner' (ts.drop i) = Parse.expr (ts.drop i) >>= fun x =>
        Parse.block inner' x.2 >>= fun y => .ok ((x.1, y.1), y.2) := by
      rw [hdrop, Parse.branch, if_pos ht]
      rfl
    rw [heq]
    refine (expr_ends hn).bind fun test j _ hpass _ => ?_
    have hle := hpass.le
    exact (block_ends hinner (by omega)).map (Prod.mk test) fun _ => rfl
  | false =>
    refine ends_take rfl (fun t rest ht => ?_) fun t hsome _ => ?_
    · exact ⟨.expected _, if_neg (by simp [ht]), fun _ => rfl⟩
    · rw [← any_kind_eq_nextIs, hsome] at hnext
      rw [Parse.branch, if_neg (of_decide_eq_false hnext)]
      exact .fail hsome (.expected _)

theorem chain_ends {m : ℕ} (hi : ts.length - i ≤ k) (hn : ts.length - i < n)
    (hm : ts.length - i ≤ m) :
    Ends ts Chain.tree ((chain inner n).walk ts i) (Parse.chain inner' m (ts.drop i)) := by
  induction n generalizing m i with
  | zero => omega
  | succ n ih =>
    rw [chain, walk_clause]
    split
    · rename_i hwords
      refine ends_words hwords fun a b ha hb hdrop hlt => ?_
      obtain ⟨m, rfl⟩ : ∃ m', m = m' + 1 := ⟨m - 1, by omega⟩
      rw [hdrop, Parse.chain, if_pos ⟨ha, hb⟩]
      have hbranch := branch_ends hinner (i := i + 2) (n := n) (by omega) (by omega)
      refine hbranch.bind fun x j _ hpass _ => ?_
      have hle := hpass.le
      exact (ih (by omega) (by omega) (by omega)).map (Chain.dili x.1 x.2) fun _ => rfl
    rename_i hdili
    rw [walk_clause]
    split
    · rename_i hwords
      refine ends_words hwords fun a b ha hb hdrop hlt => ?_
      obtain ⟨m, rfl⟩ : ∃ m', m = m' + 1 := ⟨m - 1, by omega⟩
      rw [hdrop, Parse.chain, if_neg (by simp [hb]), if_pos ⟨ha, hb⟩]
      exact (block_ends hinner (by omega)).map Chain.wala fun _ => rfl
    · rename_i hwala
      have hstop : ¬ Parse.Continues (ts.drop i) := by
        rintro ⟨a, b, rest, hdrop, ha, hb⟩
        have hbehind : ts.drop (i + 1) = b :: rest := by
          rw [← List.tail_drop, hdrop, List.tail_cons]
        simp only [hdrop, hbehind, Parse.nextIs_cons, ha] at hdili hwala
        rcases hb with hb | hb
        · simp [hb] at hdili
        · simp [hb] at hwala
      rw [Parse.chain_stops hstop]
      exact .pure Chain.done

theorem conditional_ends (hi : ts.length - i ≤ k) (hn : ts.length - i < n) :
    Ends ts Stmt.tree ((conditional n inner).walk ts i)
      (Parse.conditional inner' (ts.drop i)) := by
  have hbranch : Ends ts Stmt.tree
      ((branch n inner >>= fun b => chain inner n >>= fun more =>
        pure (.conditional (b :: more))).walk ts i)
      (Parse.branch inner' (ts.drop i) >>= fun x => Parse.chain inner' x.2.length x.2 >>= fun y =>
        .ok (Stmt.choose x.1.1 x.1.2 y.1, y.2)) := by
    refine (branch_ends hinner hi hn).bind fun b j _ hpass _ => ?_
    have hle := hpass.le
    exact (chain_ends hinner (by omega) (by omega) (by simp)).map (Stmt.choose b.1 b.2) fun _ => rfl
  rw [conditional, walk_next, walk_next]
  obtain ⟨hnone, hdrop⟩ | ⟨t, hsome, hdrop⟩ := drop_cases ts i
  · rw [hdrop] at hbranch ⊢
    exact hbranch
  · rw [hdrop] at hbranch ⊢
    rw [Parse.nextIs_cons, Parse.nextIs_cons, Parse.conditional]
    by_cases hword : t.kind = .keyword .dili ∨ t.kind = .keyword .wala
    · have hne : t.kind ≠ .eof := by rcases hword with h | h <;> simp [h]
      rw [if_pos (by simpa using hword), if_pos hword]
      exact ends_pass hsome hne (.fail hsome .unexpected)
    · rw [if_neg (by simpa using hword), if_neg hword]
      exact hbranch

theorem loop_ends (hi : ts.length - i ≤ k) (hn : ts.length - i < n) :
    Ends ts Stmt.tree ((loop n inner).walk ts i) (Parse.loop inner' (ts.drop i)) := by
  refine (expect_ends (by decide)).bind fun _ j₁ _ h₁ _ => ?_
  refine (expect_ends (by decide)).bind fun _ j₂ _ h₂ _ => ?_
  refine (clauseName_ends .init).bind fun first j₃ _ h₃ _ => ?_
  have hle := ((h₁.trans h₂).trans h₃).le
  refine (assignment_ends false [first] (by omega)).bind fun init j₄ _ h₄ _ => ?_
  refine (expect_ends (by decide)).bind fun _ j₅ _ h₅ _ => ?_
  have hle := (h₄.trans h₅).le
  refine (expr_ends (by omega)).bind fun test j₆ _ h₆ _ => ?_
  refine (expect_ends (by decide)).bind fun _ j₇ _ h₇ _ => ?_
  refine (clauseName_ends .update).bind fun name j₈ _ h₈ _ => ?_
  have hle := ((h₆.trans h₇).trans h₈).le
  refine (update_ends false name (by omega)).bind fun change j₉ _ h₉ _ => ?_
  refine (expect_ends (by decide)).bind fun _ j₁₀ _ h₁₀ _ => ?_
  have hle := (h₉.trans h₁₀).le
  exact (block_ends hinner (by omega)).map (Stmt.loop init test change) fun _ => rfl

theorem stmt_ends (hi : ts.length - (i + 1) ≤ k) (hn : ts.length - (i + 1) < n)
    (hsome : ts[i]? = some t) :
    Ends ts Stmt.tree ((stmt n inner).walk ts i) (Parse.stmt inner' t (ts.drop (i + 1))) := by
  by_cases hkind : t.kind = .eof
  · rw [stmt, walk_take hsome]
    simp only [Parse.stmt, Token.seen, hkind]
    exact .fail hsome .unexpected
  refine ends_pass hsome hkind ?_
  obtain ⟨kind, text, position⟩ := t
  cases kind with
  | ident =>
    refine (update_ends true text hn).relabel fun change rest => ?_
    cases change with
    | step s => exact ⟨.step s, rfl, rfl⟩
    | assign a => exact ⟨.assign a, rfl, rfl⟩
  | keyword w =>
    cases w with
    | mugna => exact declaration_ends hn
    | ipakita => exact print_ends hn
    | dawat => exact read_ends hn
    | kung => exact conditional_ends hinner hi hn
    | alang => exact loop_ends hinner hi hn
    | _ => exact .fail hsome .unexpected
  | _ => exact .fail hsome .unexpected

end Inner

theorem stmt_takes (n : ℕ) (inner : Inner) : (stmt n inner).Takes := by
  intro t ht
  refine ⟨.unexpected, t.place, ?_⟩
  change Reader.bind (done t) _ = _
  simp only [Reader.bind, ht]

theorem FrameAt.close {frame : Frame} {frame' : Parse.Frame} (h : FrameAt ts frame frame') :
    frame'.close = frame.close := by
  cases h <;> rfl

theorem FrameAt.unclosed {frame : Frame} {frame' : Parse.Frame} (h : FrameAt ts frame frame')
    (hsome : ts[i]? = some t) :
    (frame.unclosed? (t.seen i) = none ∧ frame'.unclosed? t = none) ∨
      ∃ c p u, frame.unclosed? (t.seen i) = some (c, p) ∧ ts[p]? = some u ∧
        frame'.unclosed? t = some (c.error u) := by
  cases h with
  | program =>
    by_cases heof : t.kind = .eof
    · exact .inr ⟨.unended, i, t, if_pos heof, hsome, if_pos heof⟩
    · exact .inl ⟨if_neg heof, if_neg heof⟩
  | @block p u hopen =>
    by_cases hend : t.kind = .eof ∨ t.kind = .keyword .katapusan
    · exact .inr ⟨.unclosed, p, u, if_pos hend, hopen, if_pos hend⟩
    · exact .inl ⟨if_neg hend, if_neg hend⟩

theorem stmts_ends {m : ℕ} {frame : Frame} {frame' : Parse.Frame} (hframe : FrameAt ts frame frame')
    (hn : ts.length - i < n) (hm : ts.length - i ≤ m) :
    Ends ts bodyTree ((stmts n frame).walk ts i) (Parse.stmts m frame' (ts.drop i)) := by
  induction n generalizing m i frame frame' with
  | zero => omega
  | succ n ih =>
    rw [stmts]
    obtain ⟨hnone, hdrop⟩ | ⟨t, hsome, hdrop⟩ := drop_cases ts i
    · rw [hdrop, Parse.stmts_nil]
      exact ends_none hnone (.inr rfl)
    have hlt := (List.getElem?_eq_some_iff.1 hsome).1
    obtain ⟨m, rfl⟩ : ∃ m', m = m' + 1 := ⟨m - 1, by omega⟩
    rw [hdrop, walk_token hsome, Parse.stmts, hframe.close]
    by_cases hclose : t.kind = frame.close
    · have hne : t.kind ≠ .eof := by
        rw [hclose]
        cases frame <;> exact Kind.noConfusion
      rw [if_pos (by exact hclose), if_pos hclose,
        walk_expect hsome (List.mem_singleton.2 hclose) hne]
      exact .pure (f := bodyTree) []
    rw [if_neg (by exact hclose), if_neg hclose]
    obtain ⟨hopen, hopen'⟩ | ⟨c, p, u, hunclosed, hp, hunclosed'⟩ := hframe.unclosed hsome
    · rw [hopen, hopen']
      have hstmt : Ends ts Stmt.tree ((stmt n (stmts n)).walk ts i)
          (Parse.stmt (Parse.stmts m) t (ts.drop (i + 1))) :=
        stmt_ends (k := ts.length - (i + 1))
          (fun frame frame' j hframe hj => ih hframe (by omega) (by omega)) le_rfl (by omega) hsome
      refine hstmt.bind fun s j _ hpass hlt => ?_
      -- the statement took a token, so that the smaller bound is enough for the others
      have hlt := hlt (stmt_takes n _)
      have hbound := hpass.bound hlt
      exact (ih hframe (by omega) (by omega)).map (s :: ·) fun _ => rfl
    · rw [hunclosed, hunclosed']
      exact .fail hp c

/-- What has to follow the statements: an end mark, which is left where it is. -/
def ending (body : Program) : List Token → Read (Program × List Token)
  | [] => .error .endOfTokens
  | t :: rest => if t.kind = .eof then .ok (body, t :: rest) else .error (.ofUnexpected t)

theorem ending_ends (body : Program) : Ends ts bodyTree
    ((take >>= fun t => if t.kind = .eof then pure (bodyTree body)
      else fail .unexpected t.place).walk ts i)
    (ending body (ts.drop i)) := by
  obtain ⟨hnone, hdrop⟩ | ⟨t, hsome, hdrop⟩ := drop_cases ts i
  · rw [hdrop]
    exact ends_none hnone (.inl rfl)
  by_cases hkind : t.kind = .eof
  · rw [walk_take hsome, if_pos hkind, if_pos (by exact hkind), hdrop, ending, if_pos hkind,
      ← hdrop]
    exact .pure body
  · rw [hdrop, ending, if_neg hkind]
    refine ends_pass hsome hkind ?_
    rw [if_neg (by exact hkind)]
    exact .fail hsome .unexpected

/-- A program and the tokens from its end mark on. -/
def whole : List Token → Read (Program × List Token)
  | [] => .error .endOfTokens
  | start :: rest =>
    if start.kind = .keyword .sugod then
      Parse.stmts rest.length .program rest >>= fun x => ending x.1 x.2
    else .error (.ofMissingStart start)

theorem program_eq (us : List Token) : Parse.program us = (whole us).map Prod.fst := by
  cases us with
  | nil => rfl
  | cons start rest =>
    rw [Parse.program, whole]
    split
    · cases Parse.stmts rest.length .program rest with
      | error e => rfl
      | ok x =>
        obtain ⟨body, us⟩ := x
        cases us with
        | nil => rfl
        | cons t us =>
          change (if _ then _ else _) = Except.map Prod.fst (if _ then _ else _)
          split <;> rfl
    · rfl

theorem program_ends (hn : ts.length ≤ n) :
    Ends ts bodyTree ((program n).walk ts 0) (whole ts) := by
  refine ends_take (i := 0) (r := whole) rfl (fun t rest ht => ?_) fun t hsome _ => ?_
  · have hstart : t.kind ≠ .keyword .sugod := by simp [ht]
    exact ⟨.start, if_neg hstart, fun _ => if_neg hstart⟩
  · have hlt := (List.getElem?_eq_some_iff.1 hsome).1
    rw [whole, Token.seen]
    split
    · have hbody : Ends ts bodyTree ((stmts n .program).walk ts 1)
          (Parse.stmts (ts.drop 1).length .program (ts.drop 1)) :=
        stmts_ends .program (by omega) (by simp)
      exact hbody.bind fun body _ _ _ _ => ending_ends body
    · exact .fail hsome .start

end Reader

def Tree.parse (source : String) : Except ParseError Tree.Program :=
  ((Reader.program (tokenize source).length).walk (tokenize source) 0).elim (.error .endOfTokens)
    Prod.fst

/-- Only what the narrower types hold is ever read. -/
theorem parse_tree (source : String) : Tree.parse source = (parse source).map Program.tree := by
  have hends := Reader.program_ends (le_refl (tokenize source).length)
  obtain ⟨j, hwalk⟩ := hends.walk_eq
  rw [Tree.parse, hwalk, parse, Reader.program_eq]
  rfl

end Bisaya
