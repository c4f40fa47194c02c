import Bisaya.Proofs.Parse.Composition

namespace Bisaya

open Parse (edgeKinds standsAlone)

/-- A program with a `DILI` at its end, at the place `d`, and the same tokens with a name and a
comma behind the `DILI`, for which the name is an operand. -/
structure Strand (ts us : List Token) (d : ℕ) : Prop where
  same : ∀ k ≤ d, us[k]? = ts[k]?
  dili : ∃ t, ts[d]? = some t ∧ t.kind = .keyword .dili
  close : ∃ t, ts[d + 1]? = some t ∧ t.kind = .keyword .katapusan
  name : ∃ t, us[d + 1]? = some t ∧ t.kind = .ident
  comma : ∃ t, us[d + 2]? = some t ∧ t.kind = .mark .comma
  taken : Look.bare.holds us (d + 1) = false

variable {ts us : List Token} {d i j n : ℕ} {α β : Type}

namespace Strand

theorem seam (h : Strand ts us d) : Seam ts us (d + 1) := by
  obtain ⟨name, hname, hkind⟩ := h.name
  exact ⟨fun k hk => h.same k (by omega), h.close, name, hname, by rw [hkind]; decide⟩

theorem length_lt (h : Strand ts us d) : d + 1 < ts.length ∧ d + 2 < us.length := by
  obtain ⟨close, hclose, -⟩ := h.close
  obtain ⟨comma, hcomma, -⟩ := h.comma
  exact ⟨(List.getElem?_eq_some_iff.1 hclose).1, (List.getElem?_eq_some_iff.1 hcomma).1⟩

theorem lt_of_kind (h : Strand ts us d) (hi : i ≤ d) {t : Token} (ht : ts[i]? = some t)
    (hkind : t.kind ≠ .keyword .dili) : i < d := by
  apply hi.lt_of_ne
  intro heq
  obtain ⟨dili, hdili, hdiliKind⟩ := h.dili
  obtain rfl : dili = t := Option.some.inj (hdili.symm.trans (heq ▸ ht))
  exact hkind hdiliKind

/-- The `DILI` tells a reader that comes to it nothing about what is behind it. -/
theorem holds (h : Strand ts us d) (q : Look) {k : ℕ} (hk : k ≤ d) :
    q.holds us k = q.holds ts k := by
  rcases hk.lt_or_eq with hlt | rfl
  · exact q.holds_congr fun k' hk' => h.same k' (by omega)
  obtain ⟨dili, hdili, hkind⟩ := h.dili
  have hdili' : us[k]? = some dili := (h.same k le_rfl).trans hdili
  cases q with
  | next kind => rw [Look.holds, Look.holds, hdili, hdili']
  | target commas => simp [Look.holds, hdili, hdili', hkind]
  | clause word => simp [Look.holds, hdili, hdili', hkind]
  | bare =>
    cases k with
    | zero => rfl
    | succ k =>
      have hbare {vs : List Token} (hv : vs[k + 1]? = some dili) (t : Token) :
          standsAlone t (vs.drop (k + 1)) = decide (t.position.line < dili.position.line) := by
        simp [drop_eq_cons hv, standsAlone, Parse.isBare, hkind, Parse.startsOperand]
      simp only [Look.holds, h.same k (by omega), hbare hdili, hbare hdili']

/-- What does not come to the `DILI` is the same with both ends. -/
theorem walk_eq_ok (h : Strand ts us d) {s : Reader α} {a : α}
    (hwalk : s.walk ts i = some (.ok a, j)) (hj : j ≤ d) : s.walk us i = some (.ok a, j) :=
  Reader.walk_congr hwalk (fun k hk => h.same k (hk.trans hj)) fun q _ hk => h.holds q (hk.trans hj)

end Strand

namespace Reader

/-- A reader that ends with the `DILI` goes on to the name. -/
def Swallows (ts us : List Token) (d i : ℕ) (s : Reader α) : Prop :=
  ∀ a, s.walk ts i = some (.ok a, d + 1) → ∃ b, s.walk us i = some (.ok b, d + 2)

/-- What takes nothing behind the `DILI` takes nothing behind the name. -/
def Rests (ts us : List Token) (d : ℕ) (s s' : Reader α) : Prop :=
  ∀ a, s.walk ts (d + 1) = some (.ok a, d + 1) → ∃ b, s'.walk us (d + 2) = some (.ok b, d + 2)

namespace Swallows

theorem pure (hi : i ≤ d) (a : α) : Swallows ts us d i (Pure.pure a) := by
  intro b h
  obtain ⟨-, rfl⟩ := walk_pure_eq_ok.1 h
  omega

theorem fail (c : Complaint) (place : ℕ) : Swallows ts us d i (fail c place : Reader α) := by
  rintro a ⟨⟩

theorem operator (t : Seen) {f : Tree.Op → Reader α} (hf : ∀ op, Swallows ts us d i (f op)) :
    Swallows ts us d i (Reader.operator t >>= f) := by
  unfold Reader.operator
  split
  · exact hf _
  · exact .fail _ _

theorem ite {c : Prop} [Decidable c] {s s' : Reader α} (hs : c → Swallows ts us d i s)
    (hs' : Swallows ts us d i s') : Swallows ts us d i (if c then s else s') := by
  split
  · rename_i hc
    exact hs hc
  · exact hs'

variable (h : Strand ts us d)

include h

theorem bind {s : Reader α} {f : α → Reader β} (hs : Swallows ts us d i s)
    (hf : ∀ a j, i ≤ j → (s.Takes → i < j) → j ≤ d → Swallows ts us d j (f a))
    (hrests : ∀ a b, Rests ts us d (f a) (f b)) : Swallows ts us d i (s >>= f) := by
  intro b hwalk
  obtain ⟨a, m, hfirst, hmore⟩ := walk_bind_eq_ok.1 hwalk
  -- either the `DILI` is taken by `s` or it is left to what comes behind
  rcases (passes_of_walk hmore).le.lt_or_eq with hlt | rfl
  · have hm : m ≤ d := by omega
    obtain ⟨c, hmore'⟩ := hf a m (passes_of_walk hfirst).le (fun ht => ht.lt hfirst) hm b hmore
    exact ⟨c, walk_bind_eq_ok.2 ⟨a, m, h.walk_eq_ok hfirst hm, hmore'⟩⟩
  · obtain ⟨a', hfirst'⟩ := hs a hfirst
    obtain ⟨c, hmore'⟩ := hrests a a' b hmore
    exact ⟨c, walk_bind_eq_ok.2 ⟨a', d + 2, hfirst', hmore'⟩⟩

theorem map {s : Reader α} (hs : Swallows ts us d i s) (g : α → β) :
    Swallows ts us d i (s >>= fun a => Pure.pure (g a)) :=
  hs.bind h (fun a _ _ _ hj => .pure hj (g a)) fun _ b _ _ =>
    ⟨g b, walk_pure_eq_ok.2 ⟨rfl, rfl⟩⟩

theorem ask {q : Look} {f : Bool → Reader α} (hi : i ≤ d) (hf : ∀ b, Swallows ts us d i (f b)) :
    Swallows ts us d i (Reader.ask q >>= f) := by
  intro a hwalk
  rw [walk_ask] at hwalk ⊢
  rw [h.holds q hi]
  exact hf _ a hwalk

theorem token {f : Seen → Reader α} (hi : i ≤ d)
    (hf : ∀ t, ts[i]? = some t → Swallows ts us d i (f (t.seen i))) :
    Swallows ts us d i (Reader.token >>= f) := by
  intro a hwalk
  obtain ⟨t, ht, hwalk⟩ := walk_token_eq_ok.1 hwalk
  obtain ⟨b, hwalk'⟩ := hf t ht a hwalk
  exact ⟨b, walk_token_eq_ok.2 ⟨t, (h.same i hi).trans ht, hwalk'⟩⟩

theorem take {f : Seen → Reader α} (hi : i < d) (htakes : (Reader.take >>= f).Takes)
    (hf : ∀ t : Token, Swallows ts us d (i + 1) (f (t.seen i))) :
    Swallows ts us d i (Reader.take >>= f) := by
  intro a hwalk
  obtain ⟨t, ht, hwalk⟩ := walk_take_eq_ok.1 hwalk
  have hne : t.kind ≠ .eof := by
    intro heof
    obtain ⟨c, place, hfail⟩ := htakes (t.seen i) heof
    replace hfail : f (t.seen i) = .fail c place := hfail
    rw [hfail] at hwalk
    cases hwalk
  rw [if_neg hne] at hwalk
  obtain ⟨b, hwalk'⟩ := hf t a hwalk
  refine ⟨b, walk_take_eq_ok.2 ⟨t, (h.same i hi.le).trans ht, ?_⟩⟩
  rwa [if_neg hne]

theorem expect {kinds : List Kind} {f : Seen → Reader α} (hi : i ≤ d)
    (hkinds : .eof ∉ kinds ∧ .keyword .dili ∉ kinds)
    (hf : ∀ t : Token, i < d → Swallows ts us d (i + 1) (f (t.seen i))) :
    Swallows ts us d i (Reader.expect kinds >>= f) := by
  intro a hwalk
  obtain ⟨t, ht, hmem, hwalk⟩ := walk_expect_eq_ok.1 hwalk
  have hlt : i < d := h.lt_of_kind hi ht fun hkind => hkinds.2 (hkind ▸ hmem)
  have hne : t.kind ≠ .eof := fun heof => hkinds.1 (heof ▸ hmem)
  rw [if_neg hne] at hwalk
  obtain ⟨b, hwalk'⟩ := hf t hlt a hwalk
  refine ⟨b, walk_expect_eq_ok.2 ⟨t, (h.same i hi).trans ht, hmem, ?_⟩⟩
  rwa [if_neg hne]

end Swallows

section Strand

variable (h : Strand ts us d)

include h

theorem signed_swallows {inner : ℕ → Reader Tree.Expr}
    (hinner : Swallows ts us d j (inner UnOp.level)) (t : Seen) :
    Swallows ts us d j (signed inner t) := .operator t fun _ => hinner.map h _

theorem operand_dili {inner : ℕ → Reader Tree.Expr} {e : Tree.Expr}
    (hname : (inner UnOp.level).walk us (d + 1) = some (.ok e, d + 2)) :
    (operand inner).walk us d = some (.ok (.unary .dili e), d + 2) := by
  obtain ⟨dili, hdili, hkind⟩ := h.dili
  obtain ⟨name, hsome, -⟩ := h.name
  have hoperator : operator (dili.seen d) = done .dili := by
    rw [operator, Token.seen_kind, hkind]
    rfl
  rw [operand, walk_take ((h.same d le_rfl).trans hdili), if_neg (by simp [hkind])]
  simp only [Token.seen_kind, hkind]
  rw [walk_token hsome, walk_ask, h.taken, if_neg Bool.false_ne_true, signed, hoperator]
  change (inner UnOp.level >>= fun e => Pure.pure (Tree.Expr.unary .dili e)).walk us (d + 1) = _
  exact walk_bind_eq_ok.2 ⟨e, d + 2, hname, rfl⟩

/-- The `DILI` is an operand of its own in front of the end, and has the name as its operand in
front of the comma. -/
theorem operand_swallows {inner : ℕ → Reader Tree.Expr} (hi : i ≤ d)
    (hinner : i < d → ∀ level, Swallows ts us d (i + 1) (inner level))
    (hname : ∃ e, (inner UnOp.level).walk us (d + 1) = some (.ok e, d + 2)) :
    Swallows ts us d i (operand inner) := by
  rcases hi.lt_or_eq with hlt | rfl
  · have hi' : i + 1 ≤ d := hlt
    refine .take h hlt (operand_takes inner) fun t => ?_
    split
    · split
      · exact .pure hi' _
      · exact .fail _ _
    · split
      · exact .pure hi' _
      · exact .fail _ _
    · exact .pure hi' _
    · exact .pure hi' _
    · exact .pure hi' _
    · refine .token h hi' fun _ _ => .ask h hi' fun _ => .ite (fun _ => .pure hi' _) ?_
      exact signed_swallows h (hinner hlt _) _
    · exact signed_swallows h (hinner hlt _) _
    · exact signed_swallows h (hinner hlt _) _
    · refine .bind h (hinner hlt 0) (fun e j _ _ hj => ?_) fun e e' a hwalk => ?_
      · exact .expect h hj (by decide) fun _ hlt => .pure hlt e
      · obtain ⟨t, ht, hmem, -⟩ := walk_expect_eq_ok.1 hwalk
        obtain ⟨close, hclose, hkind⟩ := h.close
        rw [hclose] at ht
        cases ht
        simp [hkind] at hmem
    · exact .fail _ _
  · obtain ⟨e, hname⟩ := hname
    exact fun _ _ => ⟨_, operand_dili h hname⟩

theorem climb_comma (hn : 0 < n) (level : ℕ) (left : Tree.Expr) :
    (climb n level left).walk us (d + 2) = some (.ok left, d + 2) := by
  obtain ⟨n, rfl⟩ := Nat.exists_eq_add_one.2 hn
  obtain ⟨comma, hcomma, hkind⟩ := h.comma
  rw [climb, walk_token hcomma, Token.seen_kind, hkind]
  rfl

theorem climb_rests (hn : 0 < n) (level : ℕ) (left left' : Tree.Expr) :
    Rests ts us d (climb n level left) (climb n level left') :=
  fun _ _ => ⟨left', climb_comma h hn level left'⟩

theorem exprAbove_name (hn : 2 ≤ n) (level : ℕ) :
    ∃ e, (exprAbove n level).walk us (d + 1) = some (.ok e, d + 2) := by
  obtain ⟨n, rfl⟩ := Nat.exists_eq_add_one.2 (Nat.zero_lt_of_lt hn)
  obtain ⟨name, hname, hkind⟩ := h.name
  have hoperand : (operand (exprAbove n)).walk us (d + 1) =
      some (.ok (.var name.literal), d + 2) := by
    rw [operand, walk_take hname, if_neg (by simp [hkind])]
    simp only [Token.seen_kind, hkind]
    rfl
  exact ⟨_, walk_bind_eq_ok.2 ⟨_, _, hoperand, climb_comma h (by omega) level _⟩⟩

theorem climb_swallows {level : ℕ} {left : Tree.Expr} (hi : i ≤ d) (hn : 0 < n)
    (habove : i < d → ∀ level, Swallows ts us d (i + 1) (exprAbove n level))
    (hclimb : ∀ j left, i < j → j ≤ d → Swallows ts us d j (climb n level left)) :
    Swallows ts us d i (climb (n + 1) level left) := by
  refine .token h hi fun t ht => .ite (fun hlevel => ?_) (.pure hi left)
  -- an operator stands here, so that this is not the `DILI`
  have hlt : i < d := by
    refine h.lt_of_kind hi ht fun hkind => ?_
    rw [Token.seen_kind, hkind] at hlevel
    exact absurd hlevel (Nat.not_lt_zero level)
  refine .take h hlt (fun t heof => ⟨.unexpected, t.place, ?_⟩) fun t => .operator _ fun op => ?_
  · have hoperator : operator t = .fail .unexpected t.place := by
      rw [operator, heof]
      rfl
    change (operator t >>= _) = _
    rw [hoperator]
    rfl
  · refine .bind h (habove hlt _) (fun right j hle _ hj => hclimb j _ hle hj) fun r r' => ?_
    exact climb_rests h hn level _ _

theorem exprAbove_climb_swallows (n : ℕ) :
    (∀ i level, i ≤ d → d + 2 - i < n → Swallows ts us d i (exprAbove n level)) ∧
      ∀ i level left, i ≤ d → d + 2 - i < n → Swallows ts us d i (climb n level left) := by
  induction n with
  | zero => exact ⟨fun _ _ _ hn => by omega, fun _ _ _ _ hn => by omega⟩
  | succ n ih =>
    obtain ⟨ihAbove, ihClimb⟩ := ih
    constructor
    · intro i level hi hn
      have hoperand : Swallows ts us d i (operand (exprAbove n)) :=
        operand_swallows h hi (fun hlt level => ihAbove (i + 1) level hlt (by omega))
          (exprAbove_name h (by omega) _)
      refine hoperand.bind h (fun left j _ htakes hj => ?_) (climb_rests h (by omega) level)
      have hlt := htakes (operand_takes _)
      exact ihClimb j level left hj (by omega)
    · intro i level left hi hn
      refine climb_swallows h hi (by omega) (fun hlt level => ?_) fun j left hlt hj => ?_
      · exact ihAbove (i + 1) level hlt (by omega)
      · exact ihClimb j level left hj (by omega)

theorem expr_swallows (hi : i ≤ d) (hn : d + 2 - i < n) : Swallows ts us d i (expr n) :=
  (exprAbove_climb_swallows h n).1 i 0 hi hn

theorem assignment_swallows (commas : Bool) (targets : List String) (hi : i ≤ d)
    (hn : d + 2 - i < n) : Swallows ts us d i (assignment commas n targets) := by
  induction n generalizing i targets with
  | zero => omega
  | succ n ih =>
    have hseps : .eof ∉ Parse.separators commas ∧ .keyword .dili ∉ Parse.separators commas := by
      cases commas <;> decide
    refine .expect h hi hseps fun sep hlt => ?_
    have hname : Swallows ts us d (i + 1) (Reader.expect [.ident] >>= fun t =>
        assignment commas n (targets ++ [t.literal])) :=
      .expect h hlt (by decide) fun t hlt => ih _ hlt (by omega)
    change Swallows ts us d (i + 1) (Reader.bind (if sep.kind = .mark .comma then _ else _) _)
    split
    · exact hname
    · refine .ask h hlt fun b => ?_
      cases b with
      | true => exact hname
      | false => exact (expr_swallows h hlt (by omega)).map h _

theorem update_swallows (commas : Bool) (name : String) (hi : i ≤ d) (hn : d + 2 - i < n) :
    Swallows ts us d i (update n commas name) := by
  have hincrement : Swallows ts us d i (increment name) :=
    .expect h hi (by decide) fun t hlt => .pure hlt _
  refine .ask h hi fun b => .ite (fun _ => hincrement) ?_
  refine .ask h hi fun b => .ite (fun _ => hincrement) ?_
  exact assignment_swallows h commas [name] hi hn

theorem segment_swallows (hi : i ≤ d) (hn : d + 2 - i < n) :
    Swallows ts us d i (segment n) := by
  refine .token h hi fun t _ => ?_
  split
  · exact .expect h hi (by decide) fun t hlt => .pure hlt _
  · refine .expect h hi (by decide) fun t hlt => ?_
    split
    · exact .pure hlt _
    · exact .fail _ _
  · exact (expr_swallows h hi hn).map h _

theorem separated_swallows {sep : Kind}
    (hsep : sep ∉ [.eof, .keyword .dili, .keyword .katapusan, .mark .comma]) {item : Reader α}
    (htakes : item.Takes) (hitem : ∀ j, i ≤ j → j ≤ d → Swallows ts us d j item) (hi : i ≤ d)
    (hn : d + 2 - i < n) : Swallows ts us d i (separated sep item n) := by
  simp only [List.mem_cons, List.not_mem_nil, or_false, not_or] at hsep
  obtain ⟨heof, hdili, -, hcomma⟩ := hsep
  induction n generalizing i with
  | zero => omega
  | succ n ih =>
    refine (hitem i le_rfl hi).bind h (fun a j _ hlt hj => ?_) fun a a' b hwalk => ?_
    · have hlt := hlt htakes
      refine .ask h hj fun _ => .ite (fun _ => ?_) (.pure hj _)
      refine .expect h hj (by simp [Ne.symm heof, Ne.symm hdili]) fun t hlt' => ?_
      exact (ih (fun k _ => hitem k (by omega)) hlt' (by omega)).map h _
    · obtain ⟨comma, hsome, hkind⟩ := h.comma
      have hnext : (Look.next sep).holds us (d + 2) = false := by
        simp [Look.holds, hsome, hkind, Ne.symm hcomma]
      refine ⟨[a'], ?_⟩
      rw [walk_ask, hnext]
      rfl

theorem print_swallows (hi : i ≤ d) (hn : d + 2 - i < n) : Swallows ts us d i (print n) := by
  refine .expect h hi (by decide) fun t hlt => ?_
  refine .map h ?_ _
  exact separated_swallows h (by decide) (segment_takes n)
    (fun j hj hj' => segment_swallows h hj' (by omega)) hlt (by omega)

end Strand

end Reader

namespace Parse

def LastPlain (ts : List Token) : Prop := ∃ t ∈ ts.getLast?, t.kind ≠ .keyword .dili

theorem lastPlain_single {t : Token} {kind : Kind} (ht : t.kind = kind)
    (hkind : kind ≠ .keyword .dili) : LastPlain [t] := ⟨t, rfl, ht ▸ hkind⟩

theorem LastPlain.append {us : List Token} (h : LastPlain us) (ts : List Token) :
    LastPlain (ts ++ us) := by
  obtain ⟨t, ht, hkind⟩ := h
  exact ⟨t, by rw [List.getLast?_append, Option.mem_def.1 ht]; rfl, hkind⟩

theorem LastPlain.cons {ts : List Token} (h : LastPlain ts) (t : Token) : LastPlain (t :: ts) :=
  h.append [t]

theorem LastPlain.append_or {ts us : List Token} (h : LastPlain ts) (h' : us = [] ∨ LastPlain us) :
    LastPlain (ts ++ us) := by
  rcases h' with rfl | h'
  · rwa [List.append_nil]
  · exact h'.append ts

theorem ListPhrase.lastPlain {sep : Kind} {names : List String} {ts : List Token}
    (h : ListPhrase sep NamePhrase names ts) : LastPlain ts := by
  induction h with
  | one h =>
    cases h with
    | ident ht => exact lastPlain_single ht (by decide)
  | more _ _ _ ih => exact (ih.cons _).append _

/-- The kinds of tokens that begin a statement which may end in `DILI`. -/
def diliKinds : List Kind := [.keyword .mugna, .keyword .ipakita, .ident]

def Part.Ends : Part → List Token → Prop
  | .stmt _, ts => (∃ t ∈ ts.head?, t.kind ∈ diliKinds) ∨ LastPlain ts
  | .body _, _ => True
  | .chain _, ts => ts = [] ∨ LastPlain ts
  | .braces _, ts | .block _, ts => LastPlain ts

theorem Phrase.ends {part : Part} {ts : List Token} (h : Phrase part ts) : part.Ends ts := by
  induction h with
  | declare hm | print hm => exact .inl ⟨_, rfl, by rw [hm]; decide⟩
  | assign ht | step ht => exact .inl ⟨_, rfl, by rw [ht]; decide⟩
  | read _ _ h => exact .inr ((h.lastPlain.cons _).cons _)
  | choose _ _ _ _ hbody hc => exact .inr (((LastPlain.append_or hbody hc).append _).cons _)
  | @loop a s o i c c' n p _ _ _ _ _ is ts us bs _ _ _ _ _ _ _ _ _ _ _ _ hbody =>
    have hheader := LastPlain.append hbody
      (a :: s :: o :: i :: (is ++ c :: (ts ++ c' :: n :: (us ++ [p]))))
    exact .inr (by simpa using hheader)
  | nil | cons => trivial
  | braces _ _ hc => exact LastPlain.cons ((lastPlain_single hc (by decide)).append _) _
  | bare _ ih => exact ih
  | pundok _ _ ih => exact LastPlain.cons ih _
  | done => exact .inl rfl
  | wala _ _ _ ih => exact .inr ((LastPlain.cons ih _).cons _)
  | dili _ _ _ _ _ hbody hc =>
    exact .inr ((((LastPlain.append_or hbody hc).append _).cons _).cons _)

/-- Only some statements end in `DILI`. -/
theorem stmt_begins {t dili : Token} {rest taken left : List Token} {x : Stmt} {m : ℕ}
    (hts : Terminated (t :: rest)) (hm : rest.length ≤ m)
    (hread : stmt (stmts m) t rest = .ok (x, left)) (hdili : dili.kind = .keyword .dili)
    (hsplit : t :: rest = taken ++ dili :: left) : t.kind ∈ diliKinds := by
  have houtcome := stmt_outcome (stmts_outcome m) hts hm
  rw [hread] at houtcome
  cases houtcome with
  | @reads _ front _ hfront _ hphrase =>
    -- what was taken ends in `DILI`, which is left to statements of three kinds
    obtain rfl : front = taken ++ [dili] := by
      have htaken : front ++ left = taken ++ [dili] ++ left := by
        rw [← hfront, hsplit, List.append_assoc, List.singleton_append]
      exact List.append_cancel_right htaken
    rcases hphrase.ends with ⟨u, hu, hkind⟩ | ⟨u, hu, hkind⟩
    · have hhead : (taken ++ [dili]).head? = some t := by
        cases taken <;> rw [(List.cons.inj hsplit).1] <;> rfl
      rw [hhead] at hu
      cases hu
      exact hkind
    · rw [List.getLast?_concat] at hu
      cases hu
      exact absurd hdili hkind

end Parse

def Stmt.isDeclaration : Stmt → Bool
  | .declare .. => true
  | _ => false

def Tree.Stmt.isDeclaration : Tree.Stmt → Bool
  | .declare .. => true
  | _ => false

theorem Stmt.isDeclaration_tree (x : Stmt) : x.tree.isDeclaration = x.isDeclaration := by
  cases x <;> rfl

namespace Reader

open Parse (Terminated)

/-- How the statements from `i` on are read in front of the comma: all of them behind a declaration,
and up to the comma behind any other statement. -/
def Joined (us : List Token) (d n i : ℕ) (b : List Tree.Stmt) (Q : ℕ → Prop) : Bool → Prop
  | true => ∃ j, (stmts n .program).walk us i = some (.ok b, j) ∧ Q j
  | false => ∃ comma j, us[d + 2]? = some comma ∧
      (stmts n .program).walk us i = some (.error (.unexpected comma), j)

theorem Joined.cons {m : ℕ} {b : List Tree.Stmt} {Q : ℕ → Prop} {declared : Bool}
    (h : Joined us d n m b Q declared) {t : Token} (ht : us[i]? = some t)
    (hclose : t.kind ≠ .keyword .katapusan) (hne : t.kind ≠ .eof) {s : Tree.Stmt}
    (hstmt : (stmt n (stmts n)).walk us i = some (.ok s, m)) :
    Joined us d (n + 1) i (s :: b) Q declared := by
  cases declared with
  | true =>
    obtain ⟨j, hmore, hQ⟩ := h
    exact ⟨j, walk_stmts_eq_ok.2 ⟨t, ht, .inr ⟨hclose, hne, s, b, m, rfl, hstmt, hmore⟩⟩, hQ⟩
  | false =>
    obtain ⟨comma, j, hcomma, hmore⟩ := h
    exact ⟨comma, j, hcomma, walk_stmts_error ht hclose hne hstmt hmore⟩

variable (h : Strand ts us d)

include h

theorem stmt_kind (hts : Terminated ts) (hi : i ≤ d) (hn : ts.length - (i + 1) < n) {x : Tree.Stmt}
    (hwalk : (stmt n (stmts n)).walk ts i = some (.ok x, d + 1)) :
    ∃ t, ts[i]? = some t ∧ t.kind ∈ Parse.diliKinds := by
  obtain ⟨dili, hdili, hkind⟩ := h.dili
  have hlength := h.length_lt.1
  obtain ⟨t, ht⟩ : ∃ t, ts[i]? = some t := ⟨_, List.getElem?_eq_getElem (by omega)⟩
  refine ⟨t, ht, ?_⟩
  have hstmt : Ends ts Stmt.tree ((stmt n (stmts n)).walk ts i)
      (Parse.stmt (Parse.stmts (ts.length - (i + 1))) t (ts.drop (i + 1))) :=
    stmt_ends (k := ts.length - (i + 1))
      (fun frame frame' j hframe hj => stmts_ends hframe (by omega) hj) le_rfl hn ht
  obtain ⟨y, -, hread⟩ := hstmt.exists_ok hwalk
  have hterminated : Terminated (t :: ts.drop (i + 1)) := by
    rw [← drop_eq_cons ht]
    exact hts.suffix (List.drop_suffix i ts) (by simp [drop_eq_cons ht])
  have hsplit : t :: ts.drop (i + 1) = (ts.drop i).take (d - i) ++ dili :: ts.drop (d + 1) := by
    have hbehind : (ts.drop i).drop (d - i) = dili :: ts.drop (d + 1) := by
      rw [List.drop_drop, Nat.add_sub_cancel' hi, drop_eq_cons hdili]
    rw [← drop_eq_cons ht, ← hbehind, List.take_append_drop]
  exact Parse.stmt_begins hterminated (by simp) hread hkind hsplit

/-- A declaration ends with the `DILI`, and any other statement takes the name behind it. -/
theorem stmt_strand (hts : Terminated ts) (hi : i ≤ d) (hn : ts.length - i ≤ n)
    (hn' : us.length - i ≤ n) {x : Tree.Stmt}
    (hwalk : (stmt n (stmts n)).walk ts i = some (.ok x, d + 1)) :
    if x.isDeclaration then (stmt n (stmts n)).walk us i = some (.ok x, d + 1)
    else ∃ x', (stmt n (stmts n)).walk us i = some (.ok x', d + 2) := by
  obtain ⟨hlength, hlength'⟩ := h.length_lt
  obtain ⟨t, ht, hkind⟩ := stmt_kind h hts hi (by omega) hwalk
  have hother : ∀ kind ∈ Parse.diliKinds, kind ≠ .eof ∧ kind ≠ .keyword .dili := by decide
  obtain ⟨hne, hdili⟩ := hother _ hkind
  have hlt : i < d := h.lt_of_kind hi ht hdili
  rw [stmt, walk_take ht, if_neg hne] at hwalk
  rw [stmt, walk_take ((h.same i hi).trans ht), if_neg hne]
  simp only [Parse.diliKinds, List.mem_cons, List.not_mem_nil, or_false] at hkind
  rcases hkind with hk | hk | hk
  · simp only [Token.seen_kind, hk] at hwalk ⊢
    obtain ⟨ty, _, -, hmore⟩ := walk_bind_eq_ok.1 hwalk
    obtain ⟨items, _, -, hx⟩ := walk_bind_eq_ok.1 hmore
    obtain ⟨rfl, -⟩ := walk_pure_eq_ok.1 hx
    rw [if_pos (by rfl)]
    -- behind its `DILI` a declaration looks for a comma or a value only, and the name is neither
    refine walk_seam h.seam (declaration_regular (fun kind hkind k hk => ?_) n) hwalk le_rfl
    exact h.seam.holds_next hkind hk
  · simp only [Token.seen_kind, hk] at hwalk ⊢
    obtain ⟨colon, _, -, hmore⟩ := walk_bind_eq_ok.1 hwalk
    obtain ⟨segments, _, -, hx⟩ := walk_bind_eq_ok.1 hmore
    obtain ⟨rfl, -⟩ := walk_pure_eq_ok.1 hx
    rw [if_neg (by exact Bool.false_ne_true)]
    exact print_swallows h hlt (by omega) _ hwalk
  · simp only [Token.seen_kind, hk] at hwalk ⊢
    obtain ⟨u, rfl, -⟩ := (update_ends true _ (by omega)).exists_ok hwalk
    have hupdate : u.tree.isDeclaration = false := by cases u <;> rfl
    rw [hupdate, if_neg Bool.false_ne_true]
    exact update_swallows h true _ hlt (by omega) _ hwalk

theorem stmts_comma (hn : 0 < n) (b : List Tree.Stmt) (Q : ℕ → Prop) :
    Joined us d n (d + 2) b Q false := by
  obtain ⟨n, rfl⟩ := Nat.exists_eq_add_one.2 hn
  obtain ⟨comma, hcomma, hkind⟩ := h.comma
  have hstmt : (stmt n (stmts n)).walk us (d + 2) = some (.error (.unexpected comma), d + 3) := by
    rw [stmt, walk_take hcomma, if_neg (by simp [hkind])]
    simp only [Token.seen_kind, hkind]
    rw [walk, Token.seen_place, hcomma]
    simp [Complaint.error, ParseError.ofUnexpected, hkind]
  refine ⟨comma, d + 3, hcomma, ?_⟩
  rw [walk_stmts_cons hcomma (by simp [hkind]) (by simp [hkind]), walk_bind, hstmt]
  rfl

/-- Behind a declaration the statements that begin with the name are read. Otherwise the comma is
left over, with which no statement begins. -/
theorem stmts_strand (hts : Terminated ts) (hi : i ≤ d) (hn : ts.length - i < n)
    (hn' : us.length - i < n) {b c : List Tree.Stmt} {Q : ℕ → Prop}
    (hwalk : (stmts n .program).walk ts i = some (.ok b, d + 2))
    (hrest : ∀ n, us.length - (d + 1) < n → Joined us d n (d + 1) c Q true) :
    Joined us d n i (b ++ c) Q (b.getLast?.any Tree.Stmt.isDeclaration) := by
  obtain ⟨hlength, hlength'⟩ := h.length_lt
  induction n generalizing i b with
  | zero => cases hwalk
  | succ n ih =>
    obtain ⟨t, ht, ⟨-, -, hclosed⟩ | ⟨hother, hne, s, more, m, rfl, hstmt, hmore⟩⟩ :=
      walk_stmts_eq_ok.1 hwalk
    · omega
    have ht' := (h.same i hi).trans ht
    have hlt := (stmt_takes n _).lt hstmt
    have hm := (stmts_takes n _).lt hmore
    obtain ⟨n, rfl⟩ : ∃ k, n = k + 1 := ⟨n - 1, by omega⟩
    obtain ⟨u, hu, ⟨-, rfl, hclosed⟩ | ⟨hother', -, s', more', -, rfl, -, -⟩⟩ :=
      walk_stmts_eq_ok.1 hmore
    · -- the statement is the last one, and a declaration or not
      obtain rfl : m = d + 1 := by omega
      have hlast := stmt_strand h hts hi (by omega) (by omega) hstmt
      change Joined us d (n + 2) i (s :: c) Q s.isDeclaration
      cases hdeclaration : s.isDeclaration with
      | true =>
        rw [if_pos hdeclaration] at hlast
        exact (hrest (n + 1) (by omega)).cons ht' hother hne hlast
      | false =>
        rw [if_neg (by simp [hdeclaration])] at hlast
        obtain ⟨x, hlast⟩ := hlast
        have hstuck : Joined us d (n + 2) i (x :: c) Q false :=
          (stmts_comma h n.succ_pos c Q).cons ht' hother hne hlast
        exact hstuck
    · -- more statements follow, so that this one does not come to the `DILI`
      have hm : m ≤ d := by
        by_contra hm
        obtain rfl : m = d + 1 := by omega
        obtain ⟨close, hclose, hkind⟩ := h.close
        obtain rfl : close = u := Option.some.inj (hclose.symm.trans hu)
        exact hother' hkind
      rw [List.getLast?_cons_cons]
      exact (ih hm (by omega) (by omega) hmore).cons ht' hother hne (h.walk_eq_ok hstmt hm)

end Reader

namespace Parse

/-- Whether a program has a declaration at its end. -/
def endsInDeclaration (p : Program) : Bool := p.getLast?.any Stmt.isDeclaration

theorem endsInDeclaration_eq (p : Program) :
    endsInDeclaration p = (bodyTree p).getLast?.any Tree.Stmt.isDeclaration := by
  rw [endsInDeclaration, bodyTree_eq_map, List.getLast?_map]
  cases p.getLast? with
  | none => rfl
  | some x => exact (Stmt.isDeclaration_tree x).symm

theorem strand_append {t close last u v : Token} (front more : List Token)
    (ht : t.kind = .keyword .dili) (hclose : close.kind = .keyword .katapusan)
    (hu : u.kind = .ident) (hv : v.kind = .mark .comma)
    (hline : ¬ t.position.line < u.position.line) :
    Strand (front ++ [t] ++ [close, last]) (front ++ [t] ++ u :: v :: more) front.length where
  same k hk := by
    have hlt : k < (front ++ [t]).length := by
      simp
      omega
    rw [List.getElem?_append_left hlt, List.getElem?_append_left hlt]
  dili := ⟨t, by simp, ht⟩
  close := ⟨close, by simp, hclose⟩
  name := ⟨u, by simp, hu⟩
  comma := ⟨v, by simp, hv⟩
  taken := by
    have hsome : (front ++ [t] ++ u :: v :: more)[front.length]? = some t := by simp
    have hdrop : (front ++ [t] ++ u :: v :: more).drop (front.length + 1) = u :: v :: more :=
      List.drop_left' (by simp)
    rw [Look.bare_holds ht hsome, hdrop]
    simp [standsAlone, isBare, hu, hline, startsOperand, startsStatement, nextIs, hv]

theorem stmts_of_strand {last comma : Token} {rest : List Token} {p q : List Stmt}
    (h : Strand ts us d) (hts : Terminated ts) (hcomma : us[d + 2]? = some comma)
    (hp : stmts ts.length .program ts = .ok (p, [last])) (hlast : [last] = ts.drop (d + 2))
    (hq : stmts (us.drop (d + 1)).length .program (us.drop (d + 1)) = .ok (q, rest)) :
    stmts us.length .program us =
      if endsInDeclaration p then .ok (p ++ q, rest) else .error (.unexpected comma) := by
  have hn : ts.length - 0 < ts.length + us.length + 1 := by omega
  have hn' : us.length - 0 < ts.length + us.length + 1 := by omega
  obtain ⟨j, hwalk, hdrop⟩ := walk_stmts (i := 0) le_rfl hn hp
  obtain rfl : j = d + 2 := by
    have hlength := succ_eq_length hlast
    have hlength' := succ_eq_length hdrop
    omega
  have hjoined := Reader.stmts_strand h hts (Nat.zero_le d) hn hn' hwalk
    fun n hn => walk_stmts (by simp) hn hq
  rw [← endsInDeclaration_eq] at hjoined
  cases hdeclaration : endsInDeclaration p with
  | true =>
    rw [hdeclaration] at hjoined
    obtain ⟨j, hwalk', rfl⟩ := hjoined
    refine stmts_of_walk (i := 0) le_rfl hn' ?_
    rw [hwalk', bodyTree_eq_map, bodyTree_eq_map, bodyTree_eq_map, List.map_append]
  | false =>
    rw [hdeclaration] at hjoined
    obtain ⟨comma', j, hcomma', hwalk'⟩ := hjoined
    obtain rfl : comma' = comma := Option.some.inj (hcomma'.symm.trans hcomma)
    exact (Reader.stmts_ends (i := 0) .program hn' le_rfl).eq_error hwalk'

/-- Behind a declaration the targets are read as they would be on a line of their own. Otherwise the
program fails at the comma. -/
theorem program_strand {start t close last u v : Token} {front more : List Token}
    {p q : Program} (hbody : Held (front ++ [t])) (ht : t.kind = .keyword .dili)
    (hclose : close.kind = .keyword .katapusan) (hlast : last.kind = .eof) (hu : u.kind = .ident)
    (hv : v.kind = .mark .comma) (hline : ¬ t.position.line < u.position.line)
    (hp : program (start :: (front ++ [t] ++ [close, last])) = .ok p)
    (hq : ∃ rest, stmts (u :: v :: more).length .program (u :: v :: more) = .ok (q, rest) ∧
      Ended rest) :
    program (start :: (front ++ [t] ++ u :: v :: more)) =
      if endsInDeclaration p then .ok (p ++ q) else .error (.unexpected v) := by
  obtain ⟨_, _, _, _, ⟨⟩, hstart, hread, -⟩ := program_ok hp
  rw [rest_of_stmts hbody hclose hlast le_rfl hread] at hread
  obtain ⟨rest, hq, eof, hmem, heof⟩ := hq
  obtain ⟨rest, rfl⟩ := List.head?_eq_some_iff.1 hmem
  have hbehind : (front ++ [t] ++ u :: v :: more).drop (front.length + 1) = u :: v :: more :=
    List.drop_left' (by simp)
  rw [← hbehind] at hq
  have hcomma : (front ++ [t] ++ u :: v :: more)[front.length + 2]? = some v := by simp
  have hjoined := stmts_of_strand (strand_append front more ht hclose hu hv hline)
    ⟨last, by simp, hlast⟩ hcomma hread (by simp) hq
  by_cases hdeclaration : endsInDeclaration p
  · rw [if_pos hdeclaration] at hjoined ⊢
    exact program_eq hstart hjoined heof
  · rw [if_neg hdeclaration] at hjoined ⊢
    rw [program, if_pos hstart, hjoined]
    rfl

/-- An update without the marks that `DILI` looks for begins with a comma. -/
theorem update_comma {name : String} {ts : List Token} (hstarts : startsStatement ts = false)
    (hread : ∃ x, update true name ts = .ok x) :
    ∃ v more, ts = v :: more ∧ v.kind = .mark .comma := by
  obtain ⟨x, hread⟩ := hread
  cases ts with
  | nil => cases hread
  | cons v more =>
    simp only [startsStatement, nextIs, Bool.or_eq_false_iff, decide_eq_false_iff_not] at hstarts
    obtain ⟨⟨hassign, hup⟩, hdown⟩ := hstarts
    simp only [update, step?, if_neg hup, if_neg hdown] at hread
    obtain ⟨a, mid, hassignment, -⟩ := exists_of_bind_eq_ok hread
    rw [assignment_cons] at hassignment
    split at hassignment
    · rename_i hsep
      refine ⟨v, more, rfl, ?_⟩
      simpa [separators, hassign] using hsep
    · cases hassignment

/-- A statement that begins with a name but with none of the marks that show this to `DILI` has more
than one target. -/
theorem stmts_targets {k : ℕ} {dili : Token} {ts : List Token}
    (hdili : standsAlone dili ts = false) : Ensures (stmts k .program ts) fun _ _ =>
      ∃ u v more, ts = u :: v :: more ∧ u.kind = .ident ∧ v.kind = .mark .comma ∧
        ¬ dili.position.line < u.position.line := by
  intro q rest hread
  cases ts with
  | nil =>
    rw [stmts_nil] at hread
    cases hread
  | cons u ts =>
    have hedge := (stmts_edge hread).1
    have hident : ∀ kind ∈ edgeKinds, startsOperand kind → kind = .ident := by decide
    simp only [standsAlone, isBare, Bool.or_eq_false_iff, Bool.not_eq_false',
      decide_eq_false_iff_not, Bool.and_eq_false_iff] at hdili
    obtain ⟨⟨hoperand, hline⟩, hstarts⟩ := hdili
    have hu : u.kind = .ident := hident _ hedge hoperand
    replace hstarts : startsStatement ts = false := hstarts.resolve_left (not_not_intro hu)
    cases k with
    | zero => cases hread
    | succ k =>
      rcases stmts_cons_cases _ _ hread with ⟨hclose, -⟩ | ⟨-, -, x, mid, more, hstmt, -⟩
      · rw [hu] at hclose
        cases hclose
      · simp only [stmt, hu] at hstmt
        obtain ⟨change, rest, hupdate, -⟩ := exists_of_bind_eq_ok hstmt
        obtain ⟨v, more, rfl, hv⟩ := update_comma hstarts ⟨_, hupdate⟩
        exact ⟨u, v, more, rfl, hu, hv, hline⟩

/-- The last of the tokens is a `DILI`, and targets follow it on its line. -/
def Stranded (body ts : List Token) : Prop :=
  ∃ front t u v more, body = front ++ [t] ∧ ts = u :: v :: more ∧ t.kind = .keyword .dili ∧
    u.kind = .ident ∧ v.kind = .mark .comma ∧ ¬ t.position.line < u.position.line

/-- The statements of one program are followed by those of another, unless targets are stranded. -/
theorem program_beside {start close last : Token} {body ts ts' : List Token} {p q : Program}
    {l l' : ℕ} (hbody : ∀ t ∈ body, t.kind ∉ foreignKinds)
    (hclose : close.kind = .keyword .katapusan) (hlast : last.kind = .eof)
    (hp : program (start :: (body ++ [close, last])) = .ok p) (hq : program (start :: ts) = .ok q)
    (hmoved : ts.Forall₂ (Moved l l') ts') :
    (¬ Stranded body ts' ∨ endsInDeclaration p → program (start :: (body ++ ts')) = .ok (p ++ q)) ∧
      (Stranded body ts' → endsInDeclaration p = false → ∃ t, t.kind = .mark .comma ∧
        program (start :: (body ++ ts')) = .error (.unexpected t)) := by
  obtain ⟨_, _, last', more', ⟨⟩, -, hread, hlast'⟩ := program_ok hq
  have htargets : ∃ rest, stmts ts'.length .program ts' = .ok (q, rest) ∧ Ended rest :=
    stmts_moved le_rfl hread ⟨last', rfl, hlast'⟩ hmoved le_rfl
  by_cases hstranded : Stranded body ts'
  · obtain ⟨front, t, u, v, more, rfl, rfl, ht, hu, hv, hline⟩ := id hstranded
    rw [program_strand hbody ht hclose hlast hu hv hline hp htargets]
    constructor
    · rintro (hnot | hdeclaration)
      · exact absurd hstranded hnot
      · exact if_pos hdeclaration
    · intro _ hother
      exact ⟨v, hv, by rw [hother]; rfl⟩
  · -- a name that does not leave the `DILI` alone would be the first of several targets
    refine ⟨fun _ => ?_, fun h => absurd h hstranded⟩
    refine program_join hbody hclose hlast hp hq hmoved fun t ht hk => ?_
    by_contra hbare
    obtain ⟨rest, hread', -⟩ := htargets
    obtain ⟨u, v, more, hts, hu, hv, hline⟩ :=
      stmts_targets (Bool.eq_false_of_not_eq_true hbare) _ _ hread'
    obtain ⟨front, rfl⟩ := List.getLast?_eq_some_iff.1 ht
    exact hstranded ⟨front, t, u, v, more, rfl, hts, hk, hu, hv, hline⟩

end Parse

end Bisaya
