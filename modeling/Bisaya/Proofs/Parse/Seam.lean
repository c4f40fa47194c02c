import Bisaya.Proofs.Parse.Locality

namespace Bisaya

open Parse (edgeKinds Continues startsStatement)

/-- The lists are the same up to the place `hi`, where a program ends in the first and a statement
may begin in the second. -/
structure Seam (ts us : List Token) (hi : ℕ) : Prop where
  same : ∀ k < hi, us[k]? = ts[k]?
  close : ∃ t, ts[hi]? = some t ∧ t.kind = .keyword .katapusan
  edge : ∃ t, us[hi]? = some t ∧ t.kind ∈ edgeKinds

/-- Questions that a statement which comes next answers as the end of a program does. -/
def Look.Steady : Look → Prop
  | next kind => kind ∉ edgeKinds
  | target _ => False
  | clause word => word = .dili ∨ word = .wala
  | bare => True

namespace Seam

variable {ts us : List Token} {hi k : ℕ}

/-- A kind that is at no edge comes next in both lists or in neither, also at the seam. -/
theorem any_kind (h : Seam ts us hi) {p : Kind → Bool} (hp : ∀ kind ∈ edgeKinds, p kind = false)
    (hk : k ≤ hi) : us[k]?.any (fun t => p t.kind) = ts[k]?.any fun t => p t.kind := by
  rcases hk.eq_or_lt with rfl | hlt
  · obtain ⟨t, ht, hclose⟩ := h.close
    obtain ⟨t', ht', hedge⟩ := h.edge
    have hkatapusan : .keyword .katapusan ∈ edgeKinds := by decide
    rw [ht, ht', Option.any_some, Option.any_some, hclose, hp _ hkatapusan, hp _ hedge]
  · rw [h.same k hlt]

theorem holds_next (h : Seam ts us hi) {kind : Kind} (hkind : kind ∉ edgeKinds) (hk : k ≤ hi) :
    (Look.next kind).holds us k = (Look.next kind).holds ts k := by
  refine h.any_kind (p := (decide <| · = kind)) (fun kind' hedge => ?_) hk
  exact decide_eq_false (ne_of_mem_of_not_mem hedge hkind)

theorem holds_target (h : Seam ts us hi) (commas : Bool) (hk : k < hi) :
    (Look.target commas).holds us k = (Look.target commas).holds ts k := by
  have hseparators : ∀ kind ∈ edgeKinds, decide (kind ∈ Parse.separators commas) = false := by
    cases commas <;> decide
  rw [Look.holds, Look.holds, h.same k hk,
    h.any_kind (p := (decide <| · ∈ Parse.separators commas)) hseparators hk]

theorem startsStatement_drop (h : Seam ts us hi) (hk : k ≤ hi) :
    startsStatement (us.drop k) = startsStatement (ts.drop k) := by
  have hnext {kind : Kind} (hkind : kind ∉ edgeKinds) :
      us[k]?.any (fun t => t.kind = kind) = ts[k]?.any fun t => t.kind = kind :=
    h.holds_next hkind hk
  simp only [startsStatement, ← any_kind_eq_nextIs]
  rw [hnext (by decide), hnext (by decide), hnext (by decide)]

theorem holds_clause (h : Seam ts us hi) (hnew : ¬ Continues (us.drop hi)) {word : Keyword}
    (hword : word = .dili ∨ word = .wala) (hk : k ≤ hi) :
    (Look.clause word).holds us k = (Look.clause word).holds ts k := by
  rcases hk.eq_or_lt with rfl | hlt
  · obtain ⟨t, ht, hclose⟩ := h.close
    have hts : (Look.clause word).holds ts k = false := by simp [Look.holds, ht, hclose]
    rw [hts]
    by_contra hholds
    obtain ⟨hkung, hbehind⟩ := Bool.and_eq_true_iff.1 (Bool.eq_true_of_not_eq_false hholds)
    rw [any_kind_eq_nextIs] at hkung hbehind
    obtain ⟨a, -, ha, hdrop⟩ := nextIs_drop hkung
    obtain ⟨b, -, hb, hdrop'⟩ := nextIs_drop hbehind
    refine hnew ⟨a, b, us.drop (k + 2), by rw [hdrop, hdrop'], ha, ?_⟩
    rcases hword with rfl | rfl
    · exact .inl hb
    · exact .inr hb
  · have hedge : ∀ kind ∈ edgeKinds, decide (kind = .keyword word) = false := by
      rcases hword with rfl | rfl <;> decide
    rw [Look.holds, Look.holds, h.same k hlt,
      h.any_kind (p := (decide <| · = .keyword word)) hedge hlt]

theorem holds_bare (h : Seam ts us hi) (hk : k < hi) :
    Look.bare.holds us k = Look.bare.holds ts k := by
  cases k with
  | zero => rfl
  | succ k =>
    simp only [Look.holds, h.same k (by omega),
      Parse.standsAlone_congr (h.same (k + 1) hk) (h.startsStatement_drop hk)]

theorem holds_of_steady (h : Seam ts us hi) (hnew : ¬ Continues (us.drop hi))
    (hbare : Look.bare.holds us hi = Look.bare.holds ts hi) {q : Look} (hq : q.Steady)
    (hk : k ≤ hi) : q.holds us k = q.holds ts k := by
  cases q with
  | next kind => exact h.holds_next hq hk
  | target commas => exact hq.elim
  | clause word => exact h.holds_clause hnew hq hk
  | bare =>
    rcases hk.eq_or_lt with rfl | hlt
    · exact hbare
    · exact h.holds_bare hlt

end Seam

namespace Reader

variable {α β : Type} {S : Look → Prop}

/-- Where a program ends, a reader asks only questions of `S` and treats a token at the edge of a
statement like `KATAPUSAN`, or it does not succeed before it takes a further token. -/
def Regular (S : Look → Prop) : Reader α → Prop
  | done _ | fail .. | stop => True
  | next k | want _ k => ∀ t, (k t).Regular S
  | peek k => (∀ t, (k t).Regular S) ∧ ∀ t t', t.kind = .keyword .katapusan →
      t'.kind ∈ edgeKinds → t'.place = t.place → k t' = k t ∨ (k t).Takes
  | look q k => (∀ b, (k b).Regular S) ∧ (S q ∨ (∃ commas, q = .target commas) ∧ (k false).Takes)

/-- What is read up to a seam is read in front of a statement just as well. -/
theorem walk_seam {ts us : List Token} {hi i j : ℕ} (hseam : Seam ts us hi) {s : Reader α}
    (hs : s.Regular fun q => ∀ k ≤ hi, q.holds us k = q.holds ts k) {a : α}
    (h : s.walk ts i = some (.ok a, j)) (hj : j ≤ hi) : s.walk us i = some (.ok a, j) := by
  obtain ⟨close, hclose, hkatapusan⟩ := hseam.close
  have hle := (passes_of_walk h).le
  -- the end of the program was not taken
  have hbefore {i : ℕ} {t : Token} {s : Reader α} (ht : ts[i]? = some t) (hi' : i ≤ hi)
      (h : s.walk ts (if t.kind = .eof then i else i + 1) = some (.ok a, j)) : i < hi := by
    refine hi'.lt_of_ne fun heq => ?_
    subst heq
    rw [hclose] at ht
    cases ht
    have hlater := lt_of_walk (by simp [hkatapusan]) h
    omega
  induction s generalizing i with
  | done b => exact h
  | fail | stop => cases h
  | next k ih =>
    obtain ⟨t, ht, h⟩ := walk_next_eq_ok.1 h
    have hsame := hseam.same i (hbefore ht (hle.trans hj) h)
    exact walk_next_eq_ok.2 ⟨t, hsame.trans ht, ih _ (hs _) h (passes_of_walk h).le⟩
  | want kinds k ih =>
    obtain ⟨t, ht, hkind, h⟩ := walk_want_eq_ok.1 h
    have hsame := hseam.same i (hbefore ht (hle.trans hj) h)
    exact walk_want_eq_ok.2 ⟨t, hsame.trans ht, hkind, ih _ (hs _) h (passes_of_walk h).le⟩
  | peek k ih =>
    obtain ⟨hk, hpeek⟩ := hs
    obtain ⟨t, ht, h⟩ := walk_peek_eq_ok.1 h
    rcases (hle.trans hj).eq_or_lt with rfl | hlt
    · obtain rfl : close = t := Option.some.inj (hclose.symm.trans ht)
      obtain ⟨t', ht', hedge⟩ := hseam.edge
      refine walk_peek_eq_ok.2 ⟨t', ht', ?_⟩
      rcases hpeek (close.seen i) (t'.seen i) hkatapusan hedge rfl with hsame | htakes
      · rw [hsame]
        exact ih _ (hk _) h hle
      · have hlater := htakes.lt h
        omega
    · exact walk_peek_eq_ok.2 ⟨t, (hseam.same i hlt).trans ht, ih _ (hk _) h hle⟩
  | look q k ih =>
    obtain ⟨hk, hlook⟩ := hs
    rw [walk] at h ⊢
    have hholds : q.holds us i = q.holds ts i := by
      rcases hlook with hq | ⟨⟨commas, rfl⟩, htakes⟩
      · exact hq i (hle.trans hj)
      · rcases (hle.trans hj).eq_or_lt with rfl | hlt
        · have hfalse : (Look.target commas).holds ts i = false := by
            simp [Look.holds, hclose, hkatapusan]
          rw [hfalse] at h
          have hlater := htakes.lt h
          omega
        · exact hseam.holds_target commas hlt
    rw [hholds]
    exact ih _ (hk _) h hle

namespace Regular

theorem bind {s : Reader α} {f : α → Reader β} (hs : s.Regular S) (hf : ∀ a, (f a).Regular S) :
    (s >>= f).Regular S := by
  change (s.bind f).Regular S
  induction s with
  | done a => exact hf a
  | fail | stop => trivial
  | next k ih | want kinds k ih => exact fun t => ih t (hs t)
  | peek k ih =>
    refine ⟨fun t => ih t (hs.1 t), fun t t' ht ht' hplace => ?_⟩
    rcases hs.2 t t' ht ht' hplace with hsame | htakes
    · exact .inl (congrArg (Reader.bind · f) hsame)
    · exact .inr (htakes.bind f)
  | look q k ih =>
    refine ⟨fun b => ih b (hs.1 b), hs.2.imp_right fun htarget => ?_⟩
    exact ⟨htarget.1, htarget.2.bind f⟩

theorem pure (a : α) : (Pure.pure a : Reader α).Regular S := trivial

theorem take : Reader.take.Regular S := fun _ => trivial

theorem expect (kinds : List Kind) : (Reader.expect kinds).Regular S := fun _ => trivial

theorem ask {q : Look} (hq : S q) : (Reader.ask q).Regular S := ⟨fun _ => trivial, .inl hq⟩

theorem token {f : Seen → Reader α} (hf : ∀ t, (f t).Regular S)
    (hedge : ∀ t t', t.kind = .keyword .katapusan → t'.kind ∈ edgeKinds → t'.place = t.place →
      f t' = f t ∨ (f t).Takes) : (Reader.token >>= f).Regular S := ⟨hf, hedge⟩

theorem ite {c : Prop} [Decidable c] {s s' : Reader α} (hs : s.Regular S) (hs' : s'.Regular S) :
    (if c then s else s').Regular S := by
  split
  · exact hs
  · exact hs'

end Regular

theorem name_regular : name.Regular S := (Regular.expect _).bind fun _ => .pure _

theorem operator_regular (t : Seen) : (operator t).Regular S := by
  unfold operator
  split <;> trivial

theorem dataType_regular : dataType.Regular S := by
  refine (Regular.expect _).bind fun t => ?_
  split <;> trivial

theorem literal_regular (name : String) (ty : DataType) (negative : Bool) (t : Seen) :
    (literal name ty negative t).Regular S := by
  unfold literal
  split <;> (try split) <;> trivial

theorem initial_regular (name : String) (ty : DataType) : (initial name ty).Regular S :=
  Regular.take.bind fun _ =>
    .ite (Regular.take.bind fun _ => literal_regular ..) (literal_regular ..)

section Next

variable (hnext : ∀ kind ∉ edgeKinds, S (.next kind))

include hnext

theorem separated_regular {sep : Kind} (hsep : sep ∉ edgeKinds) {item : Reader α}
    (hitem : item.Regular S) (n : ℕ) : (separated sep item n).Regular S := by
  induction n with
  | zero => trivial
  | succ n ih =>
    refine hitem.bind fun a => (Regular.ask (hnext sep hsep)).bind fun b => .ite ?_ (.pure _)
    exact (Regular.expect _).bind fun _ => ih.bind fun _ => .pure _

theorem item_regular (ty : DataType) : (item ty).Regular S := by
  refine name_regular.bind fun name => ?_
  refine (Regular.ask (hnext _ (by decide))).bind fun b => .ite ?_ (.pure _)
  exact (Regular.expect _).bind fun _ => (initial_regular name ty).bind fun _ => .pure _

theorem declaration_regular (n : ℕ) : (declaration n).Regular S :=
  dataType_regular.bind fun ty =>
    (separated_regular hnext (by decide) (item_regular hnext ty) n).bind fun _ => .pure _

theorem read_regular (n : ℕ) : (read n).Regular S :=
  (Regular.expect _).bind fun _ =>
    (separated_regular hnext (by decide) name_regular n).bind fun _ => .pure _

theorem block_regular {inner : Inner} (hinner : ∀ frame, (inner frame).Regular S) :
    (block inner).Regular S := by
  have hbraces : (Reader.expect [.mark .lbrace] >>= fun t => inner (.block t.place)).Regular S :=
    (Regular.expect _).bind fun _ => hinner _
  refine (Regular.ask (hnext _ (by decide))).bind fun b => ?_
  cases b with
  | true => exact (Regular.expect _).bind fun _ => hbraces
  | false => exact hbraces

end Next

theorem signed_regular {inner : ℕ → Reader Tree.Expr} (hinner : ∀ level, (inner level).Regular S)
    (t : Seen) : (signed inner t).Regular S :=
  (operator_regular t).bind fun _ => (hinner _).bind fun _ => .pure _

/-- If no target follows, then a value has to. -/
theorem target_regular (commas : Bool) {f : Option String → Reader α}
    (hf : ∀ name?, (f name?).Regular S) (hnone : (f none).Takes) :
    (target commas >>= f).Regular S := by
  have hname : ((Reader.expect [.ident] >>= fun t => pure (some t.literal)) >>= f).Regular S :=
    ((Regular.expect _).bind fun _ => .pure _).bind hf
  intro sep
  change (Reader.bind (if sep.kind = .mark .comma then _ else _) f).Regular S
  split
  · exact hname
  · refine ⟨fun b => ?_, .inr ⟨⟨commas, rfl⟩, hnone⟩⟩
    cases b with
    | true => exact hname
    | false => exact hf none

theorem clauseName_regular (clause : Clause) : (clauseName clause).Regular S :=
  Regular.take.bind fun _ => .ite (.pure _) trivial

section Steady

variable (hS : ∀ q : Look, q.Steady → S q)

include hS

theorem steady_next (kind : Kind) (h : kind ∉ edgeKinds) : S (.next kind) := hS (.next kind) h

theorem operand_regular {inner : ℕ → Reader Tree.Expr}
    (hinner : ∀ level, (inner level).Regular S) : (operand inner).Regular S := by
  refine Regular.take.bind fun t => ?_
  split
  · split <;> trivial
  · split <;> trivial
  · trivial
  · trivial
  · trivial
  · refine .token (fun _ => ?_) fun _ _ _ _ _ => .inl rfl
    refine (Regular.ask (hS .bare trivial)).bind fun b => .ite (.pure _) ?_
    exact signed_regular hinner t
  · exact signed_regular hinner t
  · exact signed_regular hinner t
  · exact (hinner 0).bind fun _ => (Regular.expect _).bind fun _ => .pure _
  · trivial

theorem exprAbove_climb_regular (n : ℕ) : (∀ level, (exprAbove n level).Regular S) ∧
    ∀ level left, (climb n level left).Regular S := by
  induction n with
  | zero => exact ⟨fun _ => trivial, fun _ _ => trivial⟩
  | succ n ih =>
    obtain ⟨ihAbove, ihClimb⟩ := ih
    refine ⟨fun level => (operand_regular hS ihAbove).bind fun left => ihClimb level left,
      fun level left => .token (fun t => .ite ?_ (.pure _)) fun t t' ht ht' _ => .inl ?_⟩
    · exact Regular.take.bind fun t => (operator_regular t).bind fun op =>
        (ihAbove _).bind fun right => ihClimb level _
    · have hedge : ∀ kind ∈ edgeKinds, Tree.precedence kind = 0 := by decide
      have hclose : Tree.precedence t.kind = 0 := hedge _ (by rw [ht]; decide)
      simp only [hclose, hedge _ ht']

theorem expr_regular (n : ℕ) : (expr n).Regular S := (exprAbove_climb_regular hS n).1 0

theorem assignment_regular (commas : Bool) (n : ℕ) (targets : List String) :
    (assignment commas n targets).Regular S := by
  induction n generalizing targets with
  | zero => trivial
  | succ n ih =>
    refine target_regular commas (fun name? => ?_) ((exprAbove_takes n 0).bind _)
    cases name? with
    | some name => exact ih _
    | none => exact (expr_regular hS n).bind fun _ => .pure _

theorem update_regular (n : ℕ) (commas : Bool) (name : String) :
    (update n commas name).Regular S := by
  have hincrement : (increment name).Regular S := (Regular.expect _).bind fun _ => .pure _
  refine (Regular.ask (steady_next hS (.mark .increment) (by decide))).bind fun _ =>
    .ite hincrement ?_
  refine (Regular.ask (steady_next hS (.mark .decrement) (by decide))).bind fun _ =>
    .ite hincrement ?_
  exact assignment_regular hS commas n [name]

theorem segment_regular (n : ℕ) : (segment n).Regular S := by
  refine .token (fun t => ?_) fun t t' ht _ _ => .inr ?_
  · split
    · exact (Regular.expect _).bind fun _ => .pure _
    · refine (Regular.expect _).bind fun t => ?_
      split <;> trivial
    · exact (expr_regular hS n).bind fun _ => .pure _
  · simp only [ht]
    exact (exprAbove_takes n 0).bind _

theorem print_regular (n : ℕ) : (print n).Regular S :=
  (Regular.expect _).bind fun _ =>
    (separated_regular (steady_next hS) (by decide) (segment_regular hS n)
      n).bind fun _ => .pure _

section Inner

variable {inner : Inner} (hinner : ∀ frame, (inner frame).Regular S)

include hinner

theorem branch_regular (n : ℕ) : (branch n inner).Regular S := by
  refine (Regular.ask (steady_next hS (.mark .lparen) (by decide))).bind fun b => .ite ?_ ?_
  · exact (expr_regular hS n).bind fun _ => (block_regular (steady_next hS) hinner).bind
      fun _ => .pure _
  · exact Regular.take.bind fun _ => trivial

theorem chain_regular (n : ℕ) : (chain inner n).Regular S := by
  induction n with
  | zero => trivial
  | succ n ih =>
    refine (Regular.ask (hS (.clause .dili) (.inl rfl))).bind fun b => .ite ?_ ?_
    · exact (Regular.expect _).bind fun _ => (Regular.expect _).bind fun _ =>
        (branch_regular hS hinner n).bind fun _ => ih.bind fun _ => .pure _
    · refine (Regular.ask (hS (.clause .wala) (.inr rfl))).bind fun b => .ite ?_ (.pure _)
      exact (Regular.expect _).bind fun _ => (Regular.expect _).bind fun _ =>
        (block_regular (steady_next hS) hinner).bind fun _ => .pure _

theorem conditional_regular (n : ℕ) : (conditional n inner).Regular S := by
  refine (Regular.ask (steady_next hS (.keyword .dili) (by decide))).bind fun dili => ?_
  refine (Regular.ask (steady_next hS (.keyword .wala) (by decide))).bind fun wala => .ite ?_ ?_
  · exact Regular.take.bind fun _ => trivial
  · exact (branch_regular hS hinner n).bind fun b =>
      (chain_regular hS hinner n).bind fun _ => .pure _

theorem loop_regular (n : ℕ) : (loop n inner).Regular S :=
  (Regular.expect _).bind fun _ => (Regular.expect _).bind fun _ =>
    (clauseName_regular .init).bind fun first =>
      (assignment_regular hS false n [first]).bind fun _ => (Regular.expect _).bind fun _ =>
        (expr_regular hS n).bind fun _ => (Regular.expect _).bind fun _ =>
          (clauseName_regular .update).bind fun name =>
            (update_regular hS n false name).bind fun _ => (Regular.expect _).bind fun _ =>
              (block_regular (steady_next hS) hinner).bind fun _ => .pure _

theorem stmt_regular (n : ℕ) : (stmt n inner).Regular S := by
  refine Regular.take.bind fun t => ?_
  split
  · exact declaration_regular (steady_next hS) n
  · exact print_regular hS n
  · exact read_regular (steady_next hS) n
  · exact conditional_regular hS hinner n
  · exact loop_regular hS hinner n
  · exact update_regular hS n true t.literal
  · trivial

end Inner

theorem stmts_regular (n : ℕ) (frame : Frame) : (stmts n frame).Regular S := by
  induction n generalizing frame with
  | zero => trivial
  | succ n ih =>
    refine .token (fun t => .ite ?_ ?_) fun t t' ht _ _ => .inr ?_
    · exact (Regular.expect _).bind fun _ => .pure _
    · split
      · trivial
      · exact (stmt_regular hS ih n).bind fun _ => (ih frame).bind fun _ => .pure _
    · -- `KATAPUSAN` closes a program and cannot be in a block
      cases frame with
      | program =>
        rw [if_pos (by exact ht)]
        exact (expect_takes (by decide)).bind _
      | block opened =>
        simp only [Frame.close, Frame.unclosed?, ht]
        trivial

end Steady

theorem stmts_takes (n : ℕ) (frame : Frame) : (stmts n frame).Takes := by
  cases n with
  | zero => trivial
  | succ n =>
    intro t
    change Takes (if t.kind = frame.close then _ else _)
    split
    · exact (expect_takes (by cases frame <;> simp [Frame.close])).bind _
    · split
      · trivial
      · exact (stmt_takes n _).bind _

variable {ts us : List Token} {hi i j n : ℕ}

theorem walk_stmts_close {t : Token} (ht : ts[i]? = some t)
    (hclose : t.kind = .keyword .katapusan) :
    (stmts (n + 1) .program).walk ts i = some (.ok [], i + 1) := by
  rw [stmts, walk_token ht, if_pos (by exact hclose),
    walk_expect ht (by simp [hclose, Frame.close]) (by simp [hclose])]
  rfl

theorem walk_stmts_cons {t : Token} (ht : ts[i]? = some t) (hclose : t.kind ≠ .keyword .katapusan)
    (hne : t.kind ≠ .eof) :
    (stmts (n + 1) .program).walk ts i =
      (stmt n (stmts n) >>= fun s =>
        stmts n .program >>= fun more => pure (s :: more)).walk ts i := by
  have hopen : Frame.program.unclosed? (t.seen i) = none := if_neg hne
  rw [stmts, walk_token ht, if_neg (by exact hclose), hopen]

theorem walk_stmts_error {t : Token} (ht : ts[i]? = some t) (hclose : t.kind ≠ .keyword .katapusan)
    (hne : t.kind ≠ .eof) {s : Tree.Stmt} {m : ℕ} {e : ParseError}
    (hstmt : (stmt n (stmts n)).walk ts i = some (.ok s, m))
    (hmore : (stmts n .program).walk ts m = some (.error e, j)) :
    (stmts (n + 1) .program).walk ts i = some (.error e, j) := by
  rw [walk_stmts_cons ht hclose hne, walk_bind, hstmt]
  change (stmts n .program >>= _).walk ts m = _
  rw [walk_bind, hmore]
  rfl

theorem walk_stmts_eq_ok {b : List Tree.Stmt} :
    (stmts (n + 1) .program).walk ts i = some (.ok b, j) ↔
      ∃ t, ts[i]? = some t ∧ (t.kind = .keyword .katapusan ∧ b = [] ∧ j = i + 1 ∨
        t.kind ≠ .keyword .katapusan ∧ t.kind ≠ .eof ∧ ∃ s more m, b = s :: more ∧
          (stmt n (stmts n)).walk ts i = some (.ok s, m) ∧
          (stmts n .program).walk ts m = some (.ok more, j)) := by
  cases ht : ts[i]? with
  | none =>
    rw [stmts, walk_token_eq_ok, ht]
    simp
  | some t =>
    simp only [Option.some.injEq, exists_eq_left']
    by_cases hclose : t.kind = .keyword .katapusan
    · rw [walk_stmts_close ht hclose]
      simp [hclose, eq_comm]
    by_cases heof : t.kind = .eof
    · have hunended : Frame.program.unclosed? (t.seen i) = some (.unended, i) := if_pos heof
      rw [stmts, walk_token ht, if_neg (by exact hclose), hunended]
      simp [walk, heof]
    rw [walk_stmts_cons ht hclose heof]
    constructor
    · intro h
      obtain ⟨s, m, hstmt, h⟩ := walk_bind_eq_ok.1 h
      obtain ⟨more, m', hmore, h⟩ := walk_bind_eq_ok.1 h
      obtain ⟨rfl, rfl⟩ := walk_pure_eq_ok.1 h
      exact .inr ⟨hclose, heof, s, more, m, rfl, hstmt, hmore⟩
    · rintro (⟨hclosed, -⟩ | ⟨-, -, s, more, m, rfl, hstmt, hmore⟩)
      · exact absurd hclosed hclose
      · refine walk_bind_eq_ok.2 ⟨s, m, hstmt, walk_bind_eq_ok.2 ⟨more, j, hmore, ?_⟩⟩
        exact walk_pure_eq_ok.2 ⟨rfl, rfl⟩

/-- The statements in front of a seam are followed by those behind it. -/
theorem stmts_seam (hseam : Seam ts us hi)
    (hsteady : ∀ q : Look, q.Steady → ∀ k ≤ hi, q.holds us k = q.holds ts k)
    {b c : List Tree.Stmt} {Q : ℕ → Prop} (hn : us.length - i < n)
    (h : (stmts n .program).walk ts i = some (.ok b, hi + 1))
    (hrest : ∀ n, us.length - hi < n →
      ∃ j, (stmts n .program).walk us hi = some (.ok c, j) ∧ Q j) :
    ∃ j, (stmts n .program).walk us i = some (.ok (b ++ c), j) ∧ Q j := by
  induction n generalizing i b with
  | zero => cases h
  | succ n ih =>
    obtain ⟨t, ht, ⟨-, rfl, hclosed⟩ | ⟨hclose, hne, s, more, m, rfl, hstmt, hmore⟩⟩ :=
      walk_stmts_eq_ok.1 h
    · obtain rfl : hi = i := by omega
      exact hrest (n + 1) hn
    · have hlt := (stmt_takes n _).lt hstmt
      have hm := (stmts_takes n _).lt hmore
      obtain ⟨t', ht', -⟩ := hseam.edge
      have hlength := (List.getElem?_eq_some_iff.1 ht').1
      have hstmt' := walk_seam hseam (stmt_regular hsteady (stmts_regular hsteady n) n) hstmt
        (by omega)
      obtain ⟨j, hmore', hQ⟩ := ih (by omega) hmore
      refine ⟨j, walk_stmts_eq_ok.2 ⟨t, (hseam.same i (by omega)).trans ht, .inr ?_⟩, hQ⟩
      exact ⟨hclose, hne, s, more ++ c, m, rfl, hstmt', hmore'⟩

end Reader

end Bisaya
