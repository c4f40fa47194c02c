import Bisaya.Proofs.Parse.Equations

namespace Bisaya.Parse

inductive AtomPhrase : Expr → Token → Prop where
  | int {t : Token} {n : Numero} (ht : t.kind = .int) (h : Numero.read? t.literal.toList = some n) :
      AtomPhrase (.lit (.numero n)) t
  | float {t : Token} {x : Tipik} (ht : t.kind = .float)
      (h : Tipik.read? t.literal.toList = some x) : AtomPhrase (.lit (.tipik x)) t
  | string {t : Token} (ht : t.kind = .string) : AtomPhrase (.lit (quotedValue t.literal)) t
  | name {t : Token} (ht : t.kind = .ident) : AtomPhrase (.var t.literal) t
  | oo {t : Token} (ht : t.kind = .keyword .oo) : AtomPhrase (.lit (.tinuod true)) t
  | dili {t : Token} (ht : t.kind = .keyword .dili) : AtomPhrase (.lit (.tinuod false)) t

/-- How operators bind is not told here, only that each stands at its operands. -/
inductive ExprPhrase : Expr → List Token → Prop where
  | atom {e : Expr} {t : Token} (h : AtomPhrase e t) : ExprPhrase e [t]
  | brackets {e : Expr} {o c : Token} {ts : List Token} (ho : o.kind = .mark .lparen)
      (h : ExprPhrase e ts) (hc : c.kind = .mark .rparen) : ExprPhrase e (o :: (ts ++ [c]))
  | unary {op : UnOp} {e : Expr} {t : Token} {ts : List Token} (ht : t.kind = op.kind)
      (h : ExprPhrase e ts) : ExprPhrase (.unary op e) (t :: ts)
  | binary {op : BinOp} {l r : Expr} {t : Token} {ls rs : List Token} (hl : ExprPhrase l ls)
      (ht : t.kind = op.kind) (hr : ExprPhrase r rs) : ExprPhrase (.binary op l r) (ls ++ t :: rs)

/-- One phrase or more with a token of the kind `sep` between two of them. -/
inductive ListPhrase {α : Type} (sep : Kind) (P : α → List Token → Prop) :
    List α → List Token → Prop where
  | one {a : α} {ts : List Token} (h : P a ts) : ListPhrase sep P [a] ts
  | more {a : α} {as : List α} {t : Token} {ts us : List Token} (h : P a ts) (ht : t.kind = sep)
      (hmore : ListPhrase sep P as us) : ListPhrase sep P (a :: as) (ts ++ t :: us)

inductive NamePhrase : String → List Token → Prop where
  | ident {t : Token} (ht : t.kind = .ident) : NamePhrase t.literal [t]

inductive InitialPhrase (name : String) (ty : DataType) : Value → List Token → Prop where
  | plain {v : Value} {t : Token} (h : literal name ty false t = .ok v) :
      InitialPhrase name ty v [t]
  | signed {v : Value} {s t : Token} (hty : isNumeric ty)
      (hs : s.kind = .mark .minus ∨ s.kind = .mark .plus)
      (h : literal name ty (s.kind = .mark .minus) t = .ok v) : InitialPhrase name ty v [s, t]

inductive ItemPhrase (ty : DataType) : Item → List Token → Prop where
  | bare {name : String} {ts : List Token} (h : NamePhrase name ts) : ItemPhrase ty ⟨name, none⟩ ts
  | set {name : String} {v : Value} {a : Token} {ts us : List Token} (h : NamePhrase name ts)
      (ha : a.kind = .mark .assign) (hv : InitialPhrase name ty v us) :
      ItemPhrase ty ⟨name, some v⟩ (ts ++ a :: us)

/-- What follows the first target of an assignment: further targets, then the value. -/
inductive AssignedPhrase (commas : Bool) : List String → Expr → List Token → Prop where
  | value {e : Expr} {a : Token} {ts : List Token} (ha : a.kind = .mark .assign)
      (h : ExprPhrase e ts) : AssignedPhrase commas [] e (a :: ts)
  | target {names : List String} {e : Expr} {sep t : Token} {ts : List Token}
      (hsep : sep.kind ∈ separators commas) (ht : t.kind = .ident)
      (h : AssignedPhrase commas names e ts) :
      AssignedPhrase commas (t.literal :: names) e (sep :: t :: ts)

/-- What follows the name that an update begins with. -/
inductive UpdatePhrase (commas : Bool) (name : String) : Update → List Token → Prop where
  | up {t : Token} (ht : t.kind = .mark .increment) :
      UpdatePhrase commas name (.step ⟨name, .up⟩) [t]
  | down {t : Token} (ht : t.kind = .mark .decrement) :
      UpdatePhrase commas name (.step ⟨name, .down⟩) [t]
  | assign {names : List String} {e : Expr} {ts : List Token}
      (h : AssignedPhrase commas names e ts) :
      UpdatePhrase commas name (.assign ⟨name :: names, e⟩) ts

inductive SegmentPhrase : Segment → List Token → Prop where
  | newline {t : Token} (ht : t.kind = .mark .dollar) : SegmentPhrase .newline [t]
  | escape {t : Token} {c : Char} (ht : t.kind = .escape) (h : t.literal.toList.head? = some c) :
      SegmentPhrase (.escape c) [t]
  | expr {e : Expr} {ts : List Token} (h : ExprPhrase e ts) : SegmentPhrase (.expr e) ts

/-- A test begins with a bracket, which need not end where the test does. -/
inductive TestPhrase : Expr → List Token → Prop where
  | bracket {e : Expr} {o : Token} {ts : List Token} (ho : o.kind = .mark .lparen)
      (h : ExprPhrase e (o :: ts)) : TestPhrase e (o :: ts)

/-- The parts of a program that hold statements. -/
inductive Part where
  | stmt (s : Stmt)
  | body (ss : List Stmt)
  | braces (ss : List Stmt)
  | block (ss : List Stmt)
  | chain (c : Chain)

inductive Phrase : Part → List Token → Prop where
  | declare {m k : Token} {ty : DataType} {items : List Item} {ts : List Token}
      (hm : m.kind = .keyword .mugna) (hk : k.kind = typeKind ty)
      (h : ListPhrase (.mark .comma) (ItemPhrase ty) items ts) :
      Phrase (.stmt (.declare ty items)) (m :: k :: ts)
  | assign {t : Token} {a : Assignment} {ts : List Token} (ht : t.kind = .ident)
      (h : UpdatePhrase true t.literal (.assign a) ts) : Phrase (.stmt (.assign a)) (t :: ts)
  | step {t : Token} {s : Step} {ts : List Token} (ht : t.kind = .ident)
      (h : UpdatePhrase true t.literal (.step s) ts) : Phrase (.stmt (.step s)) (t :: ts)
  | print {p c : Token} {segments : List Segment} {ts : List Token}
      (hp : p.kind = .keyword .ipakita) (hc : c.kind = .mark .colon)
      (h : ListPhrase (.mark .ampersand) SegmentPhrase segments ts) :
      Phrase (.stmt (.print segments)) (p :: c :: ts)
  | read {d c : Token} {names : List String} {ts : List Token} (hd : d.kind = .keyword .dawat)
      (hc : c.kind = .mark .colon) (h : ListPhrase (.mark .comma) NamePhrase names ts) :
      Phrase (.stmt (.read names)) (d :: c :: ts)
  | choose {k : Token} {test : Expr} {body : List Stmt} {c : Chain} {ts us vs : List Token}
      (hk : k.kind = .keyword .kung) (htest : TestPhrase test ts) (hbody : Phrase (.block body) us)
      (hc : Phrase (.chain c) vs) : Phrase (.stmt (.choose test body c)) (k :: (ts ++ (us ++ vs)))
  | loop {a s o i c c' n p : Token} {names : List String} {value test : Expr} {u : Update}
      {body : List Stmt} {is ts us bs : List Token} (ha : a.kind = .keyword .alang)
      (hs : s.kind = .keyword .sa) (ho : o.kind = .mark .lparen) (hi : i.kind = .ident)
      (hinit : AssignedPhrase false names value is) (hc : c.kind = .mark .comma)
      (htest : ExprPhrase test ts) (hc' : c'.kind = .mark .comma) (hn : n.kind = .ident)
      (hu : UpdatePhrase false n.literal u us) (hp : p.kind = .mark .rparen)
      (hbody : Phrase (.block body) bs) :
      Phrase (.stmt (.loop ⟨i.literal :: names, value⟩ test u body))
        (a :: s :: o :: i :: (is ++ c :: (ts ++ c' :: n :: (us ++ p :: bs))))
  | nil : Phrase (.body []) []
  | cons {s : Stmt} {ss : List Stmt} {ts us : List Token} (h : Phrase (.stmt s) ts)
      (hmore : Phrase (.body ss) us) : Phrase (.body (s :: ss)) (ts ++ us)
  | braces {o c : Token} {ss : List Stmt} {ts : List Token} (ho : o.kind = .mark .lbrace)
      (h : Phrase (.body ss) ts) (hc : c.kind = .mark .rbrace) :
      Phrase (.braces ss) (o :: (ts ++ [c]))
  | bare {ss : List Stmt} {ts : List Token} (h : Phrase (.braces ss) ts) : Phrase (.block ss) ts
  | pundok {p : Token} {ss : List Stmt} {ts : List Token} (hp : p.kind = .keyword .pundok)
      (h : Phrase (.braces ss) ts) : Phrase (.block ss) (p :: ts)
  | done : Phrase (.chain .done) []
  | wala {k w : Token} {ss : List Stmt} {ts : List Token} (hk : k.kind = .keyword .kung)
      (hw : w.kind = .keyword .wala) (h : Phrase (.block ss) ts) :
      Phrase (.chain (.wala ss)) (k :: w :: ts)
  | dili {k d : Token} {test : Expr} {body : List Stmt} {c : Chain} {ts us vs : List Token}
      (hk : k.kind = .keyword .kung) (hd : d.kind = .keyword .dili) (htest : TestPhrase test ts)
      (hbody : Phrase (.block body) us) (hc : Phrase (.chain c) vs) :
      Phrase (.chain (.dili test body c)) (k :: d :: (ts ++ (us ++ vs)))

/-- The opening bracket that a closing one belongs to. -/
def opener? : Kind → Option Kind
  | .mark .rparen => some (.mark .lparen)
  | .mark .rbrace => some (.mark .lbrace)
  | _ => none

/-- The brackets that are open behind a token, the last one first. A closing bracket has to belong
to the last one that is open. -/
def openBehind (opened : List Token) (t : Token) : Option (List Token) :=
  if t.kind = .mark .lparen ∨ t.kind = .mark .lbrace then some (t :: opened)
  else
    match opener? t.kind with
    | none => some opened
    | some kind =>
      match opened with
      | [] => none
      | o :: outer => if o.kind = kind then some outer else none

def openAfter (opened ts : List Token) : Option (List Token) := ts.foldlM openBehind opened

/-- All brackets are closed, each by its own mark, and none is closed that was open before. -/
def Balanced (ts : List Token) : Prop := ∀ opened, openAfter opened ts = some opened

/-- What stands side by side: a brace behind `PUNDOK`, and `ALANG SA` and `KUNG WALA` together. -/
def Adjoins (t u : Token) : Prop :=
  (t.kind = .keyword .pundok → u.kind = .mark .lbrace) ∧
    (t.kind = .keyword .alang ↔ u.kind = .keyword .sa) ∧
    (u.kind = .keyword .wala → t.kind = .keyword .kung)

def Held (ts : List Token) : Prop := ∀ t ∈ ts, t.kind ∉ foreignKinds

/-- No word wants for the one that it stands with. -/
structure Orderly (ts : List Token) : Prop where
  adjoins : ts.IsChain Adjoins
  first : ∀ t ∈ ts.head?, t.kind ≠ .keyword .sa ∧ t.kind ≠ .keyword .wala
  last : ∀ t ∈ ts.getLast?, t.kind ≠ .keyword .pundok ∧ t.kind ≠ .keyword .alang

structure Tidy (ts : List Token) : Prop extends Orderly ts where
  held : Held ts
  balanced : Balanced ts

/-- Kinds of tokens that may stand anywhere in a statement. -/
def isPlain (kind : Kind) : Bool :=
  kind ∉ foreignKinds ∧ kind ∉ [.keyword .pundok, .keyword .alang, .keyword .sa, .keyword .wala] ∧
    kind ∉ [.mark .lparen, .mark .rparen, .mark .lbrace, .mark .rbrace]

variable {t o c : Token} {kind : Kind} {ts us : List Token}

theorem held_of_isPlain (ht : t.kind = kind) (h : isPlain kind) : t.kind ∉ foreignKinds := by
  rw [ht]
  exact (of_decide_eq_true h).1

theorem openAfter_append (opened ts us : List Token) :
    openAfter opened (ts ++ us) = (openAfter opened ts).bind fun opened => openAfter opened us :=
  List.foldlM_append

theorem openAfter_cons (opened : List Token) (t : Token) (ts : List Token) :
    openAfter opened (t :: ts) = (openBehind opened t).bind fun opened => openAfter opened ts :=
  List.foldlM_cons

theorem openBehind_opener (h : t.kind = .mark .lparen ∨ t.kind = .mark .lbrace)
    (opened : List Token) : openBehind opened t = some (t :: opened) := if_pos h

theorem openBehind_closer (h : opener? c.kind = some o.kind) (opened : List Token) :
    openBehind (o :: opened) c = some opened := by
  have hne : ¬ (c.kind = .mark .lparen ∨ c.kind = .mark .lbrace) := by
    rintro (hk | hk) <;> rw [hk] at h <;> cases h
  unfold openBehind
  rw [if_neg hne, h]
  exact if_pos rfl

theorem openBehind_other (h : t.kind ∉ [.mark .lparen, .mark .rparen, .mark .lbrace, .mark .rbrace])
    (opened : List Token) : openBehind opened t = some opened := by
  have hopen : ¬ (t.kind = .mark .lparen ∨ t.kind = .mark .lbrace) := by
    rintro (hk | hk) <;> rw [hk] at h <;> exact h (by decide)
  have hclose : opener? t.kind = none := by
    unfold opener?
    split
    · rename_i hk
      exact absurd (by rw [hk]; decide) h
    · rename_i hk
      exact absurd (by rw [hk]; decide) h
    · rfl
  unfold openBehind
  rw [if_neg hopen, hclose]

namespace Balanced

theorem nil : Balanced [] := fun _ => rfl

theorem append (ha : Balanced ts) (hb : Balanced us) : Balanced (ts ++ us) := fun opened => by
  rw [openAfter_append, ha, Option.bind_some, hb]

theorem cons (h : t.kind ∉ [.mark .lparen, .mark .rparen, .mark .lbrace, .mark .rbrace])
    (hts : Balanced ts) : Balanced (t :: ts) := fun opened => by
  rw [openAfter_cons, openBehind_other h, Option.bind_some, hts]

theorem brackets (ho : o.kind = .mark .lparen ∨ o.kind = .mark .lbrace)
    (hc : opener? c.kind = some o.kind) (hts : Balanced ts) (hus : Balanced us) :
    Balanced (o :: (ts ++ c :: us)) := fun opened => by
  rw [openAfter_cons, openBehind_opener ho, Option.bind_some, openAfter_append, hts,
    Option.bind_some, openAfter_cons, openBehind_closer hc, Option.bind_some, hus]

end Balanced

theorem Held.nil : Held [] := by simp [Held]

theorem Held.cons (ht : t.kind ∉ foreignKinds) (h : Held ts) : Held (t :: ts) :=
  List.forall_mem_cons.2 ⟨ht, h⟩

theorem Held.append (ha : Held ts) (hb : Held us) : Held (ts ++ us) :=
  fun t ht => (List.mem_append.1 ht).elim (ha t) (hb t)

theorem Held.ne (h : Held ts) (hkind : kind ∈ foreignKinds) : ∀ t ∈ ts, t.kind ≠ kind :=
  fun t ht heq => h t ht (heq ▸ hkind)

namespace Orderly

theorem nil : Orderly [] := ⟨.nil, by simp, by simp⟩

theorem append (ha : Orderly ts) (hb : Orderly us) : Orderly (ts ++ us) where
  adjoins := by
    refine List.isChain_append.2 ⟨ha.adjoins, hb.adjoins, fun t ht u hu => ?_⟩
    have hlast := ha.last t ht
    have hfirst := hb.first u hu
    exact ⟨fun h => absurd h hlast.1, by simp [hlast.2, hfirst.1], fun h => absurd h hfirst.2⟩
  first := by
    cases ts with
    | nil => exact hb.first
    | cons t ts => exact ha.first
  last := by
    cases us with
    | nil => simpa using ha.last
    | cons u us =>
      rw [List.getLast?_append_of_ne_nil _ (List.cons_ne_nil u us)]
      exact hb.last

theorem single
    (hword : t.kind ∉ [.keyword .pundok, .keyword .alang, .keyword .sa, .keyword .wala]) :
    Orderly [t] := by
  simp only [List.mem_cons, List.not_mem_nil, or_false, not_or] at hword
  obtain ⟨hpundok, halang, hsa, hwala⟩ := hword
  refine ⟨.singleton t, ?_, ?_⟩ <;> simp_all

/-- Two words that stand together. -/
theorem pair {u : Token} (h : Adjoins t u)
    (hfirst : t.kind ≠ .keyword .sa ∧ t.kind ≠ .keyword .wala)
    (hlast : u.kind ≠ .keyword .pundok ∧ u.kind ≠ .keyword .alang) : Orderly [t, u] := by
  refine ⟨by simpa using h, ?_, ?_⟩ <;> simp_all

end Orderly

namespace Tidy

theorem nil : Tidy [] := ⟨.nil, .nil, .nil⟩

theorem append (ha : Tidy ts) (hb : Tidy us) : Tidy (ts ++ us) :=
  ⟨ha.toOrderly.append hb.toOrderly, ha.held.append hb.held, ha.balanced.append hb.balanced⟩

theorem cons (ht : t.kind = kind) (h : isPlain kind) (hts : Tidy ts) : Tidy (t :: ts) := by
  rw [← ht, isPlain, decide_eq_true_eq] at h
  exact ⟨(Orderly.single h.2.1).append hts.toOrderly, hts.held.cons h.1, hts.balanced.cons h.2.2⟩

theorem token (ht : t.kind = kind) (h : isPlain kind) : Tidy [t] := nil.cons ht h

theorem brackets (ho : o.kind = .mark .lparen ∧ c.kind = .mark .rparen ∨
      o.kind = .mark .lbrace ∧ c.kind = .mark .rbrace) (hts : Tidy ts) (hus : Tidy us) :
    Tidy (o :: (ts ++ c :: us)) := by
  have hmarks : Orderly [o] ∧ Orderly [c] ∧ o.kind ∉ foreignKinds ∧ c.kind ∉ foreignKinds ∧
      (o.kind = .mark .lparen ∨ o.kind = .mark .lbrace) ∧ opener? c.kind = some o.kind := by
    rcases ho with ⟨ho, hc⟩ | ⟨ho, hc⟩
    · refine ⟨.single ?_, .single ?_, ?_, ?_, .inl ho, ?_⟩ <;> simp only [ho, hc] <;> decide
    · refine ⟨.single ?_, .single ?_, ?_, ?_, .inr ho, ?_⟩ <;> simp only [ho, hc] <;> decide
  obtain ⟨hopener, hcloser, hheld, hheld', hkind, hbelongs⟩ := hmarks
  refine ⟨hopener.append (hts.toOrderly.append (hcloser.append hus.toOrderly)), ?_, ?_⟩
  · exact (hts.held.append (hus.held.cons hheld')).cons hheld
  · exact .brackets hkind hbelongs hts.balanced hus.balanced

theorem pair {u : Token} {kind' : Kind} (ht : t.kind = kind) (hu : u.kind = kind')
    (h : kind = .keyword .alang ∧ kind' = .keyword .sa ∨
      kind = .keyword .kung ∧ kind' = .keyword .wala) (hts : Tidy ts) : Tidy (t :: u :: ts) := by
  rcases h with ⟨rfl, rfl⟩ | ⟨rfl, rfl⟩ <;>
    refine ⟨(Orderly.pair ?_ ?_ ?_).append hts.toOrderly, (hts.held.cons ?_).cons ?_,
      (hts.balanced.cons ?_).cons ?_⟩ <;>
    simp only [Adjoins, ht, hu] <;> decide

theorem pundok {p : Token} (hp : p.kind = .keyword .pundok) (ho : o.kind = .mark .lbrace)
    (hts : Tidy (o :: ts)) : Tidy (p :: o :: ts) where
  held := hts.held.cons (by rw [hp]; decide)
  adjoins := by
    refine .cons_cons ⟨fun _ => ho, ?_, ?_⟩ hts.adjoins <;> simp [hp, ho]
  first := by simp [hp]
  last := hts.last
  balanced := hts.balanced.cons (by rw [hp]; decide)

end Tidy

theorem AtomPhrase.tidy {e : Expr} (h : AtomPhrase e t) : Tidy [t] := by
  cases h with
  | int ht | float ht | string ht | name ht | oo ht | dili ht => exact .token ht rfl

theorem isPlain_unary (op : UnOp) : isPlain op.kind := by cases op <;> rfl

theorem isPlain_binary (op : BinOp) : isPlain op.kind := by
  rcases op with op | op | op <;> cases op <;> rfl

theorem isPlain_type (ty : DataType) : isPlain (typeKind ty) := by cases ty <;> rfl

theorem isPlain_separator {commas : Bool} (h : kind ∈ separators commas) : isPlain kind := by
  have hall : ∀ kind ∈ separators commas, isPlain kind := by cases commas <;> decide
  exact hall kind h

theorem ExprPhrase.tidy {e : Expr} (h : ExprPhrase e ts) : Tidy ts := by
  induction h with
  | atom h => exact h.tidy
  | brackets ho _ hc ih => exact .brackets (.inl ⟨ho, hc⟩) ih .nil
  | @unary op _ _ _ ht _ ih => exact ih.cons ht (isPlain_unary op)
  | @binary op _ _ _ _ _ _ ht _ ihl ihr => exact ihl.append (ihr.cons ht (isPlain_binary op))

theorem ListPhrase.tidy {α : Type} {P : α → List Token → Prop} {as : List α} (hsep : isPlain kind)
    (hP : ∀ a ts, P a ts → Tidy ts) (h : ListPhrase kind P as ts) : Tidy ts := by
  induction h with
  | one h => exact hP _ _ h
  | more h ht _ ih => exact (hP _ _ h).append (ih.cons ht hsep)

theorem NamePhrase.tidy {name : String} (h : NamePhrase name ts) : Tidy ts := by
  cases h with
  | ident ht => exact .token ht rfl

theorem isPlain_of_literal {name : String} {ty : DataType} {negative : Bool} {v : Value}
    (h : literal name ty negative t = .ok v) : isPlain t.kind := by
  revert h
  fun_cases literal name ty negative t with
  | case2 | case4 | case6 | case9 | case12 => rintro ⟨⟩
  | _ => simp_all [isPlain, foreignKinds]

theorem InitialPhrase.tidy {name : String} {ty : DataType} {v : Value}
    (h : InitialPhrase name ty v ts) : Tidy ts := by
  cases h with
  | plain h => exact .token rfl (isPlain_of_literal h)
  | signed _ hs h =>
    refine (Tidy.token rfl (isPlain_of_literal h)).cons rfl ?_
    rcases hs with hs | hs <;> rw [hs] <;> rfl

theorem ItemPhrase.tidy {ty : DataType} {i : Item} (h : ItemPhrase ty i ts) : Tidy ts := by
  cases h with
  | bare h => exact h.tidy
  | set h ha hv => exact h.tidy.append (hv.tidy.cons ha rfl)

theorem AssignedPhrase.tidy {commas : Bool} {names : List String} {e : Expr}
    (h : AssignedPhrase commas names e ts) : Tidy ts := by
  induction h with
  | value ha h => exact h.tidy.cons ha rfl
  | target hsep ht _ ih => exact (ih.cons ht rfl).cons rfl (isPlain_separator hsep)

theorem UpdatePhrase.tidy {commas : Bool} {name : String} {u : Update}
    (h : UpdatePhrase commas name u ts) : Tidy ts := by
  cases h with
  | up ht | down ht => exact .token ht rfl
  | assign h => exact h.tidy

theorem SegmentPhrase.tidy {s : Segment} (h : SegmentPhrase s ts) : Tidy ts := by
  cases h with
  | newline ht | escape ht => exact .token ht rfl
  | expr h => exact h.tidy

theorem TestPhrase.tidy {e : Expr} (h : TestPhrase e ts) : Tidy ts := by
  cases h with
  | bracket _ h => exact h.tidy

theorem Phrase.tidy {part : Part} (h : Phrase part ts) : Tidy ts := by
  induction h with
  | declare hm hk h =>
    exact ((h.tidy rfl fun _ _ => ItemPhrase.tidy).cons hk (isPlain_type _)).cons hm rfl
  | assign ht h | step ht h => exact h.tidy.cons ht rfl
  | print hp hc h => exact ((h.tidy rfl fun _ _ => SegmentPhrase.tidy).cons hc rfl).cons hp rfl
  | read hd hc h => exact ((h.tidy rfl fun _ _ => NamePhrase.tidy).cons hc rfl).cons hd rfl
  | choose hk htest _ _ ihbody ihc => exact (htest.tidy.append (ihbody.append ihc)).cons hk rfl
  | @loop a s o i c c' n p _ _ _ _ _ is ts us bs ha hs ho hi hinit hc htest hc' hn hu hp _ ih =>
    have hupdate : Tidy (ts ++ c' :: n :: us) :=
      htest.tidy.append ((hu.tidy.cons hn rfl).cons hc' rfl)
    have hheader : Tidy (i :: (is ++ c :: (ts ++ c' :: n :: us))) :=
      (hinit.tidy.append (hupdate.cons hc rfl)).cons hi rfl
    have hloop := Tidy.pair ha hs (.inl ⟨rfl, rfl⟩) (.brackets (.inl ⟨ho, hp⟩) hheader ih)
    simpa using hloop
  | nil | done => exact .nil
  | cons _ _ ih ihmore => exact ih.append ihmore
  | braces ho _ hc ih => exact .brackets (.inr ⟨ho, hc⟩) ih .nil
  | bare _ ih => exact ih
  | pundok hp h ih =>
    cases h with
    | braces ho => exact .pundok hp ho ih
  | wala hk hw _ ih => exact .pair hk hw (.inr ⟨rfl, rfl⟩) ih
  | dili hk hd htest _ _ ihbody ihc =>
    exact ((htest.tidy.append (ihbody.append ihc)).cons hd rfl).cons hk rfl

end Bisaya.Parse
