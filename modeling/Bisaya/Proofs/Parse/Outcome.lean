import Bisaya.Proofs.Parse.Climbing
import Bisaya.Proofs.Parse.Grammar
import Bisaya.Proofs.Token.Lines

namespace Bisaya.Parse

/-- A token of digits that is no number of a type. -/
inductive Unread (t : Token) : Prop where
  | numero (negative : Bool) (ht : t.kind = .int)
      (h : Numero.read? (Tipik.signed negative t.literal.toList) = none)
  | tipik (ht : t.kind = .int ∨ t.kind = .float) (h : Tipik.read? t.literal.toList = none)

/-- An error that tells of a token which it was made from. -/
inductive Tells : ParseError → Token → Prop where
  | expected (kinds : List Kind) (t : Token) : Tells (.expected kinds t) t
  | unexpected (t : Token) : Tells (.unexpected t) t
  | illegal {t : Token} (h : t.kind = .illegal) : Tells (.illegal t) t
  | start (t : Token) : Tells (.missingStart t) t
  | number {t : Token} (h : Unread t) : Tells (.invalidNumber t) t
  | clause (clause : Clause) (t : Token) : Tells (.invalidClause clause t.position) t
  | mismatch (name : String) (ty : DataType) (t : Token) : Tells (.literalMismatch name ty t) t

namespace Tells

/-- A token that is outside the language is told of as such. -/
theorem unless_illegal {e : ParseError} {t : Token} (h : Tells e t) :
    Tells (if t.kind = .illegal then .illegal t else e) t := by
  split
  · rename_i hkind
    exact .illegal hkind
  · exact h

theorem ofExpected (kinds : List Kind) (t : Token) : Tells (.ofExpected kinds t) t :=
  (expected kinds t).unless_illegal

theorem ofUnexpected (t : Token) : Tells (.ofUnexpected t) t := (unexpected t).unless_illegal

theorem ofMismatch (name : String) (ty : DataType) (t : Token) : Tells (.ofMismatch name ty t) t :=
  (mismatch name ty t).unless_illegal

theorem ofMissingStart (t : Token) : Tells (.ofMissingStart t) t := (start t).unless_illegal

end Tells

/-- The error of a reading that failed at `t` behind the tokens `front`. -/
inductive Blames : ParseError → List Token → Token → Prop where
  | token (front : List Token) {e : ParseError} {t : Token} (h : Tells e t) : Blames e front t
  /-- A block that is still open where the program ends. -/
  | unclosed (outer : List Token) {opener t : Token} {lines : List Token}
      (hopener : opener.kind = .mark .lbrace) (hlines : Tidy lines)
      (ht : t.kind = .eof ∨ t.kind = .keyword .katapusan) :
      Blames (.unclosedBlock opener.position) (outer ++ opener :: lines) t

theorem Blames.behind {e : ParseError} {front : List Token} {t : Token} (h : Blames e front t)
    (before : List Token) : Blames e (before ++ front) t := by
  cases h with
  | token _ h => exact .token _ h
  | unclosed outer hopener hlines ht =>
    rw [← List.append_assoc]
    exact .unclosed _ hopener hlines ht

inductive Outcome {α : Type} (Q : α → List Token → Prop) (ts : List Token) :
    Read (α × List Token) → Prop where
  | reads {a : α} {front rest : List Token} (hts : ts = front ++ rest) (hheld : Held front)
      (h : Q a front) : Outcome Q ts (.ok (a, rest))
  | fails {e : ParseError} {front rest : List Token} {t : Token} (hts : ts = front ++ t :: rest)
      (hheld : Held front) (h : Blames e front t) : Outcome Q ts (.error e)

/-- The last token marks the end of the text. -/
def Terminated (ts : List Token) : Prop := ∃ t ∈ ts.getLast?, t.kind = .eof

theorem Terminated.ne_nil {ts : List Token} (h : Terminated ts) : ts ≠ [] := by
  rintro rfl
  obtain ⟨t, ht, -⟩ := h
  cases ht

theorem Terminated.suffix {ts rest : List Token} (h : Terminated ts) (hs : rest <:+ ts)
    (hne : rest ≠ []) : Terminated rest := by
  obtain ⟨front, rfl⟩ := hs
  rwa [Terminated, List.getLast?_append_of_ne_nil _ hne] at h

theorem Terminated.tail {t : Token} {rest : List Token} (h : Terminated (t :: rest))
    (ht : t.kind ≠ .eof) : Terminated rest := by
  refine h.suffix (List.suffix_cons t rest) ?_
  rintro rfl
  obtain ⟨u, hu, heof⟩ := h
  cases hu
  exact ht heof

/-- The end of the text is not among tokens that statements hold. -/
theorem Terminated.behind {front rest : List Token} (h : Terminated (front ++ rest))
    (hheld : Held front) : Terminated rest := by
  rcases List.eq_nil_or_concat rest with rfl | ⟨rest, t, rfl⟩
  · obtain ⟨t, ht, heof⟩ := h
    rw [List.append_nil] at ht
    exact absurd (by rw [heof]; decide) (hheld t (List.mem_of_getLast? ht))
  · exact h.suffix (List.suffix_append _ _) (by simp)

theorem Terminated.behind_token {t : Token} {rest : List Token} (h : Terminated (t :: rest))
    (ht : t.kind ∉ foreignKinds) : Terminated rest :=
  h.tail fun heof => ht (by rw [heof]; decide)

theorem Terminated.exists_cons {ts : List Token} (h : Terminated ts) :
    ∃ t rest, ts = t :: rest := List.exists_cons_of_ne_nil h.ne_nil

namespace Outcome

variable {α β : Type} {Q : α → List Token → Prop} {R : β → List Token → Prop} {ts : List Token}
  {r : Read (α × List Token)} {t : Token} {rest : List Token}

theorem done {a : α} (h : Q a []) : Outcome Q ts (.ok (a, ts)) := .reads rfl .nil h

theorem token {a : α} (ht : t.kind ∉ foreignKinds) (h : Q a [t]) :
    Outcome Q (t :: rest) (.ok (a, rest)) := .reads rfl (Held.nil.cons ht) h

theorem stop {e : ParseError} (h : Tells e t) : Outcome Q (t :: rest) (.error e) :=
  .fails rfl .nil (.token [] h)

theorem imp {Q' : α → List Token → Prop} (hr : Outcome Q ts r)
    (h : ∀ a front, Q a front → Q' a front) : Outcome Q' ts r := by
  cases hr with
  | reads hts hheld hq => exact .reads hts hheld (h _ _ hq)
  | fails hts hheld hb => exact .fails hts hheld hb

theorem behind {front : List Token} (hheld : Held front)
    (hr : Outcome (fun a back => Q a (front ++ back)) rest r) : Outcome Q (front ++ rest) r := by
  cases hr with
  | reads hts hheld' h =>
    subst hts
    exact .reads (List.append_assoc ..).symm (hheld.append hheld') h
  | fails hts hheld' h =>
    subst hts
    exact .fails (List.append_assoc ..).symm (hheld.append hheld') (h.behind front)

theorem behind_token (ht : t.kind ∉ foreignKinds)
    (hr : Outcome (fun a back => Q a (t :: back)) rest r) : Outcome Q (t :: rest) r := by
  have hheld : Held [t] := Held.nil.cons ht
  exact behind hheld hr

theorem bind {f : α × List Token → Read (β × List Token)} (hr : Outcome Q ts r)
    (hts : Terminated ts) (hf : ∀ a front rest, ts = front ++ rest → Terminated rest → Q a front →
      Outcome (fun b back => R b (front ++ back)) rest (f (a, rest))) :
    Outcome R ts (r >>= f) := by
  cases hr with
  | reads hsplit hheld h =>
    subst hsplit
    exact behind hheld (hf _ _ _ rfl (hts.behind hheld) h)
  | fails hsplit hheld h => exact .fails hsplit hheld h

theorem map {f : α × List Token → Read (β × List Token)} (hr : Outcome Q ts r)
    (hf : ∀ a front rest, Q a front → ∃ b, f (a, rest) = .ok (b, rest) ∧ R b front) :
    Outcome R ts (r >>= f) := by
  cases hr with
  | @reads a front rest hsplit hheld h =>
    obtain ⟨b, hb, hR⟩ := hf a front rest h
    change Outcome R ts (f (a, rest))
    rw [hb]
    exact .reads hsplit hheld hR
  | fails hsplit hheld h => exact .fails hsplit hheld h

end Outcome

theorem length_rest_le {ts front rest : List Token} {n : ℕ} (h : ts = front ++ rest)
    (hn : ts.length ≤ n) : rest.length ≤ n := by
  rw [h, List.length_append] at hn
  omega

theorem length_rest_lt {ts front rest : List Token} {n : ℕ} (h : ts = front ++ rest)
    (hfront : front ≠ []) (hn : ts.length ≤ n + 1) : rest.length ≤ n := by
  have hpos := List.length_pos_iff.2 hfront
  rw [h, List.length_append] at hn
  omega

theorem nextIs_iff {kind : Kind} {ts : List Token} :
    nextIs kind ts ↔ ∃ t rest, ts = t :: rest ∧ t.kind = kind := by
  cases ts <;> simp [nextIs]

theorem expect_outcome {kind : Kind} (hkind : kind ∉ foreignKinds) {ts : List Token}
    (hts : Terminated ts) :
    Outcome (fun t front => front = [t] ∧ t.kind = kind) ts (expect [kind] ts) := by
  obtain ⟨t, rest, rfl⟩ := hts.exists_cons
  rw [expect]
  split
  · rename_i hk
    have ht : t.kind = kind := List.mem_singleton.1 hk
    exact .token (ht ▸ hkind) ⟨rfl, ht⟩
  · exact .stop (.ofExpected _ t)

theorem name_outcome {ts : List Token} (hts : Terminated ts) : Outcome NamePhrase ts (name ts) := by
  refine (expect_outcome (by decide) hts).map fun t front _ h => ?_
  obtain ⟨rfl, ht⟩ := h
  exact ⟨_, rfl, .ident ht⟩

theorem separated_outcome {α : Type} {sep : Kind} (hsep : sep ∉ foreignKinds)
    {P : α → List Token → Prop} {item : List Token → Read (α × List Token)}
    (hitem : ∀ ts, Terminated ts → Outcome P ts (item ts)) (n : ℕ) {ts : List Token}
    (hn : ts.length ≤ n) (hts : Terminated ts) :
    Outcome (ListPhrase sep P) ts (separated sep item n ts) := by
  induction n generalizing ts with
  | zero => exact absurd (List.length_eq_zero_iff.1 (Nat.le_zero.1 hn)) hts.ne_nil
  | succ n ih =>
    unfold separated
    refine (hitem ts hts).bind hts fun a front rest hsplit hrest ha => ?_
    dsimp only
    split
    · rename_i hnext
      obtain ⟨t, more, rfl, ht⟩ := nextIs_iff.1 hnext
      have ht' : t.kind ∉ foreignKinds := ht ▸ hsep
      have hmore : more.length ≤ n := by
        rw [hsplit, List.length_append, List.length_cons] at hn
        omega
      refine .behind_token ht' ?_
      exact (ih hmore (hrest.behind_token ht')).map fun as back _ has =>
        ⟨_, rfl, .more ha ht has⟩
    · exact .done (by simpa using ListPhrase.one ha)

/-- A list that is bounded by its own number of tokens. -/
theorem list_outcome {α : Type} {sep : Kind} (hsep : sep ∉ foreignKinds)
    {P : α → List Token → Prop} {item : List Token → Read (α × List Token)}
    (hitem : ∀ ts, Terminated ts → Outcome P ts (item ts)) {ts : List Token}
    (hts : Terminated ts) : Outcome (ListPhrase sep P) ts (separated sep item ts.length ts) :=
  separated_outcome hsep hitem _ le_rfl hts

theorem operand_outcome {inner : ℕ → List Token → Read (Expr × List Token)} {ts : List Token}
    (hts : Terminated ts)
    (hinner : ∀ level, Terminated ts.tail → Outcome ExprPhrase ts.tail (inner level ts.tail)) :
    Outcome ExprPhrase ts (operand inner ts) := by
  have hkind {t : Token} {kind : Kind} (hk : t.kind = kind) (h : kind ∉ foreignKinds) :
      t.kind ∉ foreignKinds := hk ▸ h
  have hatom {e : Expr} {t : Token} {rest : List Token} (h : AtomPhrase e t) :
      Outcome ExprPhrase (t :: rest) (.ok (e, rest)) :=
    .token (h.tidy.held t (List.mem_singleton_self t)) (.atom h)
  have hunder (op : UnOp) {t : Token} {rest : List Token} (hk : t.kind = op.kind)
      (hrest : Terminated rest → Outcome ExprPhrase rest (inner UnOp.level rest))
      (hts : Terminated (t :: rest)) :
      Outcome ExprPhrase (t :: rest)
        (inner UnOp.level rest >>= fun x => .ok (Expr.unary op x.1, x.2)) := by
    have ht : t.kind ∉ foreignKinds := held_of_isPlain hk (isPlain_unary op)
    exact .behind_token ht ((hrest (hts.behind_token ht)).map fun e back _ h =>
      ⟨_, rfl, .unary hk h⟩)
  fun_cases operand inner ts with
  | case1 => exact absurd rfl hts.ne_nil
  | case2 t rest hk n hn => exact hatom (.int hk hn)
  | case4 t rest hk x hx => exact hatom (.float hk hx)
  | case3 t rest hk hn => exact .stop (.number (.numero false hk hn))
  | case5 t rest hk hx => exact .stop (.number (.tipik (.inr hk) hx))
  | case6 t rest hk => exact hatom (.string hk)
  | case7 t rest hk => exact hatom (.name hk)
  | case8 t rest hk => exact hatom (.oo hk)
  | case9 t hk => exact absurd rfl (hts.behind_token (hkind hk (by decide))).ne_nil
  | case10 t hk => exact hatom (.dili hk)
  | case11 t hk next more => exact hunder .dili hk (hinner _) hts
  | case12 t rest under hk => exact hunder .minus hk (hinner _) hts
  | case13 t rest under hk => exact hunder .plus hk (hinner _) hts
  | case14 t rest hk =>
    have ht : t.kind ∉ foreignKinds := hkind hk (by decide)
    have hrest := hts.behind_token ht
    refine .behind_token ht ((hinner 0 hrest).bind hrest fun e front rest' _ hrest' h => ?_)
    refine (expect_outcome (by decide) hrest').map fun c back _ hc => ?_
    obtain ⟨rfl, hc⟩ := hc
    exact ⟨e, rfl, .brackets hk h hc⟩
  | case15 t => exact .stop (.ofUnexpected t)

theorem ExprPhrase.ne_nil {e : Expr} {ts : List Token} (h : ExprPhrase e ts) : ts ≠ [] := by
  cases h <;> simp

theorem kind_of_ofKind? {kind : Kind} {op : BinOp} (h : BinOp.ofKind? kind = some op) :
    kind = op.kind := by
  revert h
  fun_cases BinOp.ofKind? kind <;> rintro ⟨⟩ <;> rfl

theorem above_extend_outcome (n : ℕ) :
    (∀ level ts, Terminated ts → ts.length ≤ n → Outcome ExprPhrase ts (above level ts)) ∧
      ∀ level left ts, Terminated ts → ts.length ≤ n →
        Outcome (fun e back => ∀ ls, ExprPhrase left ls → ExprPhrase e (ls ++ back)) ts
          (extend level (left, ts)) := by
  -- both at once, as each calls the other on fewer tokens
  induction n with
  | zero =>
    have hnil {ts : List Token} (hts : Terminated ts) (hn : ts.length ≤ 0) : False :=
      hts.ne_nil (List.length_eq_zero_iff.1 (Nat.le_zero.1 hn))
    exact ⟨fun _ _ hts hn => (hnil hts hn).elim, fun _ _ _ hts hn => (hnil hts hn).elim⟩
  | succ n ih =>
    obtain ⟨ihAbove, ihExtend⟩ := ih
    constructor
    · intro level ts hts hn
      rw [above_eq]
      have hoperand : Outcome ExprPhrase ts (operand above ts) :=
        operand_outcome hts fun level h => ihAbove level ts.tail h (by simp; omega)
      refine hoperand.bind hts fun left front rest hsplit hrest h => ?_
      have hshort : rest.length ≤ n := length_rest_lt hsplit h.ne_nil hn
      exact (ihExtend level left rest hrest hshort).imp fun e back he => he front h
    · intro level left ts hts hn
      obtain ⟨t, rest, rfl⟩ := hts.exists_cons
      rcases stops_or_operator level t rest with hstops | ⟨op, hop, hlevel⟩
      · rw [extend_stops hstops]
        exact .done fun ls h => by simpa using h
      · have hk : t.kind = op.kind := kind_of_ofKind? hop
        have ht : t.kind ∉ foreignKinds := held_of_isPlain hk (isPlain_binary op)
        have hrest := hts.behind_token ht
        have hlen : rest.length ≤ n := Nat.le_of_succ_le_succ hn
        rw [extend_step hop hlevel]
        refine .behind_token ht ((ihAbove op.level rest hrest hlen).bind hrest ?_)
        intro right front rest' hsplit hrest' hright
        have hshort : rest'.length ≤ n := length_rest_le hsplit hlen
        refine (ihExtend level _ rest' hrest' hshort).imp fun e back he ls hls => ?_
        simpa using he _ (.binary hls hk hright)

theorem expr_outcome {ts : List Token} (hts : Terminated ts) : Outcome ExprPhrase ts (expr ts) :=
  (above_extend_outcome _).1 0 ts hts le_rfl

theorem dataType_outcome {ts : List Token} (hts : Terminated ts) :
    Outcome (fun ty front => ∃ t, front = [t] ∧ t.kind = typeKind ty) ts (dataType ts) := by
  obtain ⟨t, rest, rfl⟩ := hts.exists_cons
  rw [dataType]
  split
  · rename_i ty hfind
    have hk : t.kind = typeKind ty := by simpa using List.find?_some hfind
    exact .token (held_of_isPlain hk (isPlain_type ty)) ⟨t, rfl, hk⟩
  · exact .stop (.ofExpected _ t)

theorem literal_outcome (name : String) (ty : DataType) (negative : Bool) (t : Token)
    (rest : List Token) :
    Outcome (fun v front => front = [t] ∧ literal name ty negative t = .ok v) (t :: rest)
      (do return (← literal name ty negative t, rest)) := by
  cases hv : literal name ty negative t with
  | ok v => exact .token (held_of_isPlain rfl (isPlain_of_literal hv)) ⟨rfl, rfl⟩
  | error e =>
    refine .stop ?_
    revert hv
    fun_cases literal name ty negative t with
    | case2 hk hn =>
      rintro ⟨⟩
      exact .number (.numero negative hk hn)
    | case4 hk hx =>
      rintro ⟨⟩
      exact .number (.tipik (.inl hk) hx)
    | case6 hk hx =>
      rintro ⟨⟩
      exact .number (.tipik (.inr hk) hx)
    | case9 | case12 =>
      rintro ⟨⟩
      exact .ofMismatch _ _ t
    | _ => rintro ⟨⟩

theorem initial_outcome (name : String) (ty : DataType) {ts : List Token} (hts : Terminated ts) :
    Outcome (InitialPhrase name ty) ts (initial name ty ts) := by
  have hheld {t : Token} (ht : t.kind = .mark .minus ∨ t.kind = .mark .plus) :
      t.kind ∉ foreignKinds := by rcases ht with ht | ht <;> rw [ht] <;> decide
  fun_cases initial name ty ts with
  | case1 => exact absurd rfl hts.ne_nil
  | case2 t hsign =>
    obtain ⟨-, ht⟩ : _ ∧ (t.kind = .mark .minus ∨ t.kind = .mark .plus) := by simpa using hsign
    exact absurd rfl (hts.behind_token (hheld ht)).ne_nil
  | case3 t hsign u rest =>
    obtain ⟨hty, ht⟩ : isNumeric ty ∧ (t.kind = .mark .minus ∨ t.kind = .mark .plus) := by
      simpa using hsign
    refine .behind_token (hheld ht) ((literal_outcome name ty _ u rest).imp fun v front h => ?_)
    obtain ⟨rfl, hv⟩ := h
    exact .signed hty ht hv
  | case4 t rest =>
    refine (literal_outcome name ty false t rest).imp fun v front h => ?_
    obtain ⟨rfl, hv⟩ := h
    exact .plain hv

theorem item_outcome (ty : DataType) {ts : List Token} (hts : Terminated ts) :
    Outcome (ItemPhrase ty) ts (item ty ts) := by
  unfold item
  refine (name_outcome hts).bind hts fun name front rest _ hrest h => ?_
  dsimp only
  split
  · rename_i hnext
    obtain ⟨a, more, rfl, ha⟩ := nextIs_iff.1 hnext
    have ha' : a.kind ∉ foreignKinds := by rw [ha]; decide
    refine .behind_token ha' ?_
    exact (initial_outcome name ty (hrest.behind_token ha')).map fun v back _ hv =>
      ⟨_, rfl, .set h ha hv⟩
  · exact .done (by simpa using ItemPhrase.bare h)

theorem declaration_outcome {m : Token} (hm : m.kind = .keyword .mugna) {ts : List Token}
    (hts : Terminated ts) :
    Outcome (fun s front => Phrase (.stmt s) (m :: front)) ts (declaration ts) := by
  unfold declaration
  refine (dataType_outcome hts).bind hts fun ty front rest _ hrest h => ?_
  obtain ⟨k, rfl, hk⟩ := h
  exact (list_outcome (by decide) (fun _ => item_outcome ty) hrest).map
    fun items back _ h => ⟨_, rfl, .declare hm hk h⟩

theorem assignment_outcome (commas : Bool) (targets : List String) {ts : List Token}
    (hts : Terminated ts) :
    Outcome (fun a front => ∃ names, a.targets = targets ++ names ∧
      AssignedPhrase commas names a.value front) ts (assignment commas targets ts) := by
  fun_induction assignment commas targets ts with
  | case1 => exact absurd rfl hts.ne_nil
  | case2 targets sep hsep =>
    exact absurd rfl (hts.behind_token (held_of_isPlain rfl (isPlain_separator hsep))).ne_nil
  | case3 targets sep hsep t rest htarget ih =>
    have hs := held_of_isPlain rfl (isPlain_separator hsep)
    have ht : t.kind ∉ foreignKinds := by
      rw [htarget.1]
      decide
    have hrest := (hts.behind_token hs).behind_token ht
    refine .behind_token hs (.behind_token ht ((ih hrest).imp fun a front h => ?_))
    obtain ⟨names, hnames, hphrase⟩ := h
    exact ⟨t.literal :: names, by simp [hnames], .target hsep htarget.1 hphrase⟩
  | case4 targets sep hsep t rest =>
    exact .behind_token (held_of_isPlain rfl (isPlain_separator hsep)) (.stop (.ofExpected _ t))
  | case5 targets sep hsep t rest htarget hcomma =>
    have hs := held_of_isPlain rfl (isPlain_separator hsep)
    have hassign : sep.kind = .mark .assign := by
      cases commas <;> simp_all [separators]
    refine .behind_token hs ((expr_outcome (hts.behind_token hs)).map fun e front _ h => ?_)
    exact ⟨_, rfl, [], by simp, .value hassign h⟩
  | case6 targets sep rest => exact .stop (.ofExpected _ sep)

theorem update_outcome (commas : Bool) (name : String) {ts : List Token} (hts : Terminated ts) :
    Outcome (UpdatePhrase commas name) ts (update commas name ts) := by
  obtain ⟨t, rest, rfl⟩ := hts.exists_cons
  unfold update
  by_cases hup : t.kind = .mark .increment
  · simp only [step?, hup, if_true]
    exact .token (by rw [hup]; decide) (.up hup)
  by_cases hdown : t.kind = .mark .decrement
  · simp only [step?, hdown, if_true]
    exact .token (by rw [hdown]; decide) (.down hdown)
  simp only [step?, hup, hdown, if_false]
  refine (assignment_outcome commas [name] hts).map fun a front _ h => ?_
  obtain ⟨names, hnames, hphrase⟩ := h
  obtain ⟨targets, value⟩ := a
  obtain rfl : targets = name :: names := hnames
  exact ⟨_, rfl, .assign hphrase⟩

theorem segment_outcome {ts : List Token} (hts : Terminated ts) :
    Outcome SegmentPhrase ts (segment ts) := by
  fun_cases segment ts with
  | case1 => exact absurd rfl hts.ne_nil
  | case2 t rest hk => exact .token (by rw [hk]; decide) (.newline hk)
  | case3 t rest hk c cs hc => exact .token (by rw [hk]; decide) (.escape hk (by simp [hc]))
  | case4 t rest => exact .stop (.ofUnexpected t)
  | case5 t rest => exact (expr_outcome hts).map fun e front _ h => ⟨_, rfl, .expr h⟩

theorem print_outcome {p : Token} (hp : p.kind = .keyword .ipakita) {ts : List Token}
    (hts : Terminated ts) :
    Outcome (fun s front => Phrase (.stmt s) (p :: front)) ts (print ts) := by
  unfold print
  refine (expect_outcome (by decide) hts).bind hts fun c front rest _ hrest h => ?_
  obtain ⟨rfl, hc⟩ := h
  exact (list_outcome (by decide) (fun _ => segment_outcome) hrest).map
    fun segments back _ h => ⟨_, rfl, .print hp hc h⟩

theorem read_outcome {d : Token} (hd : d.kind = .keyword .dawat) {ts : List Token}
    (hts : Terminated ts) :
    Outcome (fun s front => Phrase (.stmt s) (d :: front)) ts (read ts) := by
  unfold read
  refine (expect_outcome (by decide) hts).bind hts fun c front rest _ hrest h => ?_
  obtain ⟨rfl, hc⟩ := h
  exact (list_outcome (by decide) (fun _ => name_outcome) hrest).map
    fun names back _ h => ⟨_, rfl, .read hd hc h⟩

theorem clauseName_outcome (clause : Clause) {ts : List Token} (hts : Terminated ts) :
    Outcome NamePhrase ts (clauseName clause ts) := by
  obtain ⟨t, rest, rfl⟩ := hts.exists_cons
  rw [clauseName]
  split
  · rename_i hk
    exact .token (by rw [hk]; decide) (.ident hk)
  · exact .stop (.clause clause t)

/-- What comes of the statements of a frame. The frame is closed, or the program ends before it is,
or a statement fails. -/
inductive FrameOutcome (frame : Frame) (ts : List Token) :
    Read (List Stmt × List Token) → Prop where
  | closed {body : List Stmt} {lines rest : List Token} {close : Token}
      (hts : ts = lines ++ close :: rest) (hlines : Phrase (.body body) lines)
      (hclose : close.kind = frame.close) : FrameOutcome frame ts (.ok (body, rest))
  | unclosed {body : List Stmt} {lines rest : List Token} {t : Token} {e : ParseError}
      (hts : ts = lines ++ t :: rest) (hlines : Phrase (.body body) lines)
      (he : frame.unclosed? t = some e) : FrameOutcome frame ts (.error e)
  | fails {front rest : List Token} {t : Token} {e : ParseError} (hts : ts = front ++ t :: rest)
      (hheld : Held front) (h : Blames e front t) : FrameOutcome frame ts (.error e)

theorem FrameOutcome.cons {frame : Frame} {s : Stmt} {front rest : List Token}
    {r : Read (List Stmt × List Token)} (hstmt : Phrase (.stmt s) front)
    (hr : FrameOutcome frame rest r) :
    FrameOutcome frame (front ++ rest) (r >>= fun x => .ok (s :: x.1, x.2)) := by
  cases hr with
  | closed hts hlines hclose =>
    subst hts
    exact .closed (List.append_assoc ..).symm (.cons hstmt hlines) hclose
  | unclosed hts hlines he =>
    subst hts
    exact .unclosed (List.append_assoc ..).symm (.cons hstmt hlines) he
  | fails hts hheld h =>
    subst hts
    exact .fails (List.append_assoc ..).symm (hstmt.tidy.held.append hheld) (h.behind front)

theorem unclosed?_block {opened : Position} {t : Token} {e : ParseError}
    (h : (Frame.block opened).unclosed? t = some e) :
    (t.kind = .eof ∨ t.kind = .keyword .katapusan) ∧ e = .unclosedBlock opened := by
  rw [Frame.unclosed?] at h
  split at h
  · rename_i ht
    exact ⟨ht, (Option.some.inj h).symm⟩
  · cases h

section Inner

variable {inner : Inner} {n : ℕ} (hinner : ∀ frame ts, Terminated ts → ts.length ≤ n →
  FrameOutcome frame ts (inner frame ts))

include hinner

/-- A block that the program ends before tells of its brace, which stands in front of its lines. -/
theorem braces_outcome {ts : List Token} (hts : Terminated ts) (hn : ts.length ≤ n) :
    Outcome (fun body front => Phrase (.braces body) front) ts (do
      let (opener, rest) ← expect [.mark .lbrace] ts
      inner (.block opener.position) rest) := by
  obtain ⟨o, rest, rfl⟩ := hts.exists_cons
  by_cases ho : o.kind = .mark .lbrace
  · have hheld : o.kind ∉ foreignKinds := by
      rw [ho]
      decide
    have hframe := hinner (.block o.position) rest (hts.behind_token hheld) (Nat.le_of_succ_le hn)
    have hread : expect [.mark .lbrace] (o :: rest) = .ok (o, rest) := if_pos (by simp [ho])
    rw [hread]
    change Outcome _ _ (inner (.block o.position) rest)
    cases hr : inner (.block o.position) rest with
    | ok x =>
      rw [hr] at hframe
      cases hframe with
      | @closed body lines rest' c hsplit hlines hclose =>
        subst hsplit
        have hc : c.kind = .mark .rbrace := hclose
        have hphrase : Phrase (.braces body) (o :: (lines ++ [c])) := .braces ho hlines hc
        exact .reads (by simp) hphrase.tidy.held hphrase
    | error e =>
      rw [hr] at hframe
      cases hframe with
      | @unclosed body lines rest' t _ hsplit hlines he =>
        obtain ⟨ht, rfl⟩ := unclosed?_block he
        subst hsplit
        have hheld' : Held (o :: lines) := hlines.tidy.held.cons hheld
        exact .fails rfl hheld' (.unclosed [] ho hlines.tidy ht)
      | fails hsplit hheld' h => exact .behind_token hheld (.fails hsplit hheld' h)
  · have hread : expect [.mark .lbrace] (o :: rest) = .error (.ofExpected [.mark .lbrace] o) :=
      if_neg (by simp [ho])
    rw [hread]
    exact .stop (.ofExpected _ o)

theorem block_outcome {ts : List Token} (hts : Terminated ts) (hn : ts.length ≤ n) :
    Outcome (fun body front => Phrase (.block body) front) ts (block inner ts) := by
  unfold block
  split
  · rename_i hnext
    obtain ⟨p, rest, rfl, hp⟩ := nextIs_iff.1 hnext
    have hheld : p.kind ∉ foreignKinds := by
      rw [hp]
      decide
    refine .behind_token hheld ?_
    exact (braces_outcome hinner (hts.behind_token hheld) (Nat.le_of_succ_le hn)).imp
      fun body front h => .pundok hp h
  · exact (braces_outcome hinner hts hn).imp fun body front h => .bare h

theorem branch_outcome {ts : List Token} (hts : Terminated ts) (hn : ts.length ≤ n) :
    Outcome (fun b front => ∃ us vs, front = us ++ vs ∧ TestPhrase b.1 us ∧
      Phrase (.block b.2) vs) ts (branch inner ts) := by
  fun_cases branch inner ts with
  | case1 => exact absurd rfl hts.ne_nil
  | case2 t rest ht =>
    refine (expr_outcome hts).bind hts fun test front rest hsplit hrest h => ?_
    have hlen : rest.length ≤ n := length_rest_le hsplit hn
    have htest : TestPhrase test front := by
      obtain ⟨u, us, rfl⟩ := List.exists_cons_of_ne_nil h.ne_nil
      cases hsplit
      exact .bracket ht h
    exact (block_outcome hinner hrest hlen).map fun body back _ hbody =>
      ⟨_, rfl, front, back, rfl, htest, hbody⟩
  | case3 t rest => exact .stop (.ofExpected _ t)

theorem chain_outcome (m : ℕ) {ts : List Token} (hts : Terminated ts) (hn : ts.length ≤ n) :
    Outcome (fun c front => Phrase (.chain c) front) ts (chain inner m ts) := by
  fun_induction chain inner m ts with
  | case1 m k t rest hk ih =>
    have hheld : k.kind ∉ foreignKinds ∧ t.kind ∉ foreignKinds := by
      rw [hk.1, hk.2]
      decide
    have hrest := (hts.behind_token hheld.1).behind_token hheld.2
    have hlen : rest.length ≤ n := Nat.le_of_succ_le (Nat.le_of_succ_le hn)
    refine .behind_token hheld.1 (.behind_token hheld.2 ?_)
    refine (branch_outcome hinner hrest hlen).bind hrest fun b front rest' hsplit hrest' h => ?_
    obtain ⟨us, vs, rfl, htest, hbody⟩ := h
    have hlen' : rest'.length ≤ n := length_rest_le hsplit hlen
    refine (ih rest' hrest' hlen').map fun c back _ hc => ?_
    exact ⟨_, rfl, by simpa using Phrase.dili hk.1 hk.2 htest hbody hc⟩
  | case2 m k t rest hd hk =>
    have hheld : k.kind ∉ foreignKinds ∧ t.kind ∉ foreignKinds := by
      rw [hk.1, hk.2]
      decide
    have hrest := (hts.behind_token hheld.1).behind_token hheld.2
    have hlen : rest.length ≤ n := Nat.le_of_succ_le (Nat.le_of_succ_le hn)
    refine .behind_token hheld.1 (.behind_token hheld.2 ?_)
    exact (block_outcome hinner hrest hlen).map fun body back _ hbody =>
      ⟨_, rfl, .wala hk.1 hk.2 hbody⟩
  | case3 | case4 => exact .done .done

theorem conditional_outcome {k : Token} (hk : k.kind = .keyword .kung) {ts : List Token}
    (hts : Terminated ts) (hn : ts.length ≤ n) :
    Outcome (fun s front => Phrase (.stmt s) (k :: front)) ts (conditional inner ts) := by
  fun_cases conditional inner ts with
  | case1 => exact absurd rfl hts.ne_nil
  | case2 t rest => exact .stop (.ofUnexpected t)
  | case3 t rest =>
    refine (branch_outcome hinner hts hn).bind hts fun b front rest' hsplit hrest h => ?_
    obtain ⟨us, vs, rfl, htest, hbody⟩ := h
    have hlen : rest'.length ≤ n := length_rest_le hsplit hn
    refine (chain_outcome hinner _ hrest hlen).map fun c back _ hc => ?_
    exact ⟨_, rfl, by simpa using Phrase.choose hk htest hbody hc⟩

theorem loop_outcome {a : Token} (ha : a.kind = .keyword .alang) {ts : List Token}
    (hts : Terminated ts) (hn : ts.length ≤ n) :
    Outcome (fun s front => Phrase (.stmt s) (a :: front)) ts (loop inner ts) := by
  unfold loop
  refine (expect_outcome (by decide) hts).bind hts ?_
  rintro s _ r₁ rfl t₁ ⟨rfl, hs⟩
  refine (expect_outcome (by decide) t₁).bind t₁ ?_
  rintro o _ r₂ rfl t₂ ⟨rfl, ho⟩
  refine (clauseName_outcome .init t₂).bind t₂ ?_
  rintro _ _ r₃ rfl t₃ ⟨hi⟩
  refine (assignment_outcome false _ t₃).bind t₃ ?_
  rintro ⟨_, value⟩ is r₄ rfl t₄ ⟨names, rfl, hinit⟩
  refine (expect_outcome (by decide) t₄).bind t₄ ?_
  rintro c _ r₅ rfl t₅ ⟨rfl, hc⟩
  refine (expr_outcome t₅).bind t₅ ?_
  rintro test tests r₆ rfl t₆ htest
  refine (expect_outcome (by decide) t₆).bind t₆ ?_
  rintro c' _ r₇ rfl t₇ ⟨rfl, hc'⟩
  refine (clauseName_outcome .update t₇).bind t₇ ?_
  rintro _ _ r₈ rfl t₈ ⟨hname⟩
  refine (update_outcome false _ t₈).bind t₈ ?_
  rintro change us r₉ rfl t₉ hu
  refine (expect_outcome (by decide) t₉).bind t₉ ?_
  rintro p _ r₁₀ rfl t₁₀ ⟨rfl, hp⟩
  have hlen : r₁₀.length ≤ n := by
    simp only [List.length_append] at hn
    omega
  refine (block_outcome hinner t₁₀ hlen).map fun body bs _ hbody => ⟨_, rfl, ?_⟩
  exact .loop ha hs ho hi hinit hc htest hc' hname hu hp hbody

theorem stmt_outcome {t : Token} {rest : List Token} (hts : Terminated (t :: rest))
    (hn : rest.length ≤ n) :
    Outcome (fun s front => Phrase (.stmt s) front) (t :: rest) (stmt inner t rest) := by
  have hbegins {kind : Kind} (hk : t.kind = kind) (h : kind ∉ foreignKinds)
      {r : Read (Stmt × List Token)} (hr : Terminated rest →
        Outcome (fun s front => Phrase (.stmt s) (t :: front)) rest r) :
      Outcome (fun s front => Phrase (.stmt s) front) (t :: rest) r := by
    have ht : t.kind ∉ foreignKinds := hk ▸ h
    exact .behind_token ht (hr (hts.behind_token ht))
  unfold stmt
  split
  · rename_i hk
    exact hbegins hk (by decide) (declaration_outcome hk)
  · rename_i hk
    exact hbegins hk (by decide) (print_outcome hk)
  · rename_i hk
    exact hbegins hk (by decide) (read_outcome hk)
  · rename_i hk
    exact hbegins hk (by decide) fun hrest => conditional_outcome hinner hk hrest hn
  · rename_i hk
    exact hbegins hk (by decide) fun hrest => loop_outcome hinner hk hrest hn
  · rename_i hk
    refine hbegins hk (by decide) fun hrest => (update_outcome true t.literal hrest).map ?_
    intro u front _ h
    cases u with
    | step s => exact ⟨_, rfl, .step hk h⟩
    | assign a => exact ⟨_, rfl, .assign hk h⟩
  · exact .stop (.ofUnexpected t)

end Inner

theorem Phrase.ne_nil {s : Stmt} {ts : List Token} (h : Phrase (.stmt s) ts) : ts ≠ [] := by
  cases h <;> simp

theorem stmts_outcome (n : ℕ) (frame : Frame) (ts : List Token) (hts : Terminated ts)
    (hn : ts.length ≤ n) : FrameOutcome frame ts (stmts n frame ts) := by
  induction n generalizing frame ts with
  | zero => exact absurd (List.length_eq_zero_iff.1 (Nat.le_zero.1 hn)) hts.ne_nil
  | succ n ih =>
    obtain ⟨t, rest, rfl⟩ := hts.exists_cons
    rw [stmts]
    split
    · rename_i hclose
      exact .closed (List.nil_append _).symm .nil hclose
    · split
      · rename_i he
        exact .unclosed (List.nil_append _).symm .nil he
      · have hstmt := stmt_outcome ih hts (Nat.le_of_succ_le_succ hn)
        cases hr : stmt (stmts n) t rest with
        | ok x =>
          rw [hr] at hstmt
          cases hstmt with
          | @reads s front rest' hsplit hheld h =>
            have hlen : rest'.length ≤ n := length_rest_lt hsplit h.ne_nil hn
            rw [hsplit] at hts ⊢
            exact (ih frame rest' (hts.behind hheld) hlen).cons h
        | error e =>
          rw [hr] at hstmt
          cases hstmt with
          | fails hsplit hheld h => exact .fails hsplit hheld h

theorem program_phrase {ts : List Token} (hts : Terminated ts) {p : Program}
    (h : program ts = .ok p) :
    ∃ start body close last more, ts = start :: (body ++ close :: last :: more) ∧
      start.kind = .keyword .sugod ∧ Phrase (.body p) body ∧ close.kind = .keyword .katapusan ∧
      last.kind = .eof := by
  obtain ⟨start, rest, last, more, rfl, hstart, hread, hlast⟩ := program_ok h
  have hrest : Terminated rest := hts.tail (by rw [hstart]; decide)
  have hframe := stmts_outcome rest.length .program rest hrest le_rfl
  rw [hread] at hframe
  cases hframe with
  | @closed _ lines _ close hsplit hlines hclose =>
    exact ⟨start, lines, close, last, more, by rw [hsplit], hstart, hlines, hclose, hlast⟩

end Bisaya.Parse

namespace Bisaya

open Parse Piece

theorem terminated_tokens (p : Position) (cs : List Char) :
    Terminated (tokens p (cut false cs)) := by
  obtain ⟨_, hend, -⟩ := tokens_cut_eof p cs
  rw [hend]
  exact ⟨_, List.getLast?_concat .., rfl⟩

theorem terminated_tokenize (source : String) : Terminated (tokenize source) :=
  terminated_tokens ..

end Bisaya
