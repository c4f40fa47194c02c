import Bisaya.Proofs.Parse.Outcome
import Bisaya.Proofs.Stmt.WellFormed

namespace Bisaya

theorem Token.Spelled.of_kind {t : Token} (h : t.Spelled) {kind : Kind} (hk : t.kind = kind) :
    kind.Spells t.literal := hk ▸ h

namespace Parse

def AllSpelled (ts : List Token) : Prop := ∀ t ∈ ts, t.Spelled

@[simp] theorem allSpelled_cons {t : Token} {ts : List Token} :
    AllSpelled (t :: ts) ↔ t.Spelled ∧ AllSpelled ts := List.forall_mem_cons

@[simp] theorem allSpelled_append {ts us : List Token} :
    AllSpelled (ts ++ us) ↔ AllSpelled ts ∧ AllSpelled us := List.forall_mem_append

theorem quotedValue_isLiteral {s : String} (h : OneQuote s) : (quotedValue s).IsLiteral := by
  unfold quotedValue
  split
  · trivial
  · split
    · trivial
    · rename_i h₁ h₂
      exact ⟨h, h₁, h₂⟩

theorem Numero.read?_nonneg {ds : List Char} (h : Number.IsDigits ds) {n : Numero}
    (hn : Numero.read? ds = some n) : 0 ≤ n.toInt := by
  rw [Numero.read?_digits h, Numero.ofInt?_eq_some_iff] at hn
  omega

theorem Tipik.read?_nonneg {cs : List Char} (h : Number.IsDigits cs ∨ IsFraction cs) {x : Tipik}
    (hx : Tipik.read? cs = some x) :
    ∃ bits ≤ Number.infinityBits, x = Number.ofBits false bits := by
  rcases h with h | ⟨whole, fraction, hw, hf, rfl⟩
  · rw [Number.read?_digits h] at hx
    exact ⟨_, Number.nearestDecimal_le _ _, (Option.some.inj hx).symm⟩
  · rw [Number.read?_point hw hf] at hx
    exact ⟨_, Number.nearestDecimal_le _ _, (Option.some.inj hx).symm⟩

theorem literal_isInitial {name : String} {ty : DataType} {negative : Bool} {t : Token} {v : Value}
    (ht : t.Spelled) (h : literal name ty negative t = .ok v) : v.IsInitial ty := by
  have hother {w : Value} {ty : DataType} (hty : w.type? = some ty) (hne : ∀ s, w ≠ .letra s) :
      w.IsInitial ty := ⟨hty, fun s hs => absurd hs (hne s)⟩
  revert h
  fun_cases literal name ty negative t with
  | case1 | case3 | case5 | case8 | case10 | case11 =>
    rintro ⟨⟩
    exact hother rfl (by simp)
  | case7 hk =>
    rintro ⟨⟩
    refine ⟨rfl, fun s hs => ?_⟩
    rw [← Value.letra.inj hs]
    exact ht.of_kind hk
  | case2 | case4 | case6 | case9 | case12 => rintro ⟨⟩

variable {ts : List Token}

theorem AtomPhrase.wellFormed {e : Expr} {t : Token} (h : AtomPhrase e t) (ht : t.Spelled) :
    e.WellFormed := by
  cases h with
  | int hk hn => exact Numero.read?_nonneg (ht.of_kind hk) hn
  | float hk hx =>
    obtain ⟨bits, hbits, rfl⟩ := Tipik.read?_nonneg (.inr (ht.of_kind hk)) hx
    exact Number.isNegative_ofBits hbits
  | string hk => exact quotedValue_isLiteral (ht.of_kind hk)
  | name hk => exact ht.of_kind hk
  | oo | dili => trivial

theorem ExprPhrase.wellFormed {e : Expr} (h : ExprPhrase e ts) (hts : AllSpelled ts) :
    e.WellFormed := by
  induction h with
  | atom h => exact h.wellFormed (allSpelled_cons.1 hts).1
  | brackets _ _ _ ih =>
    simp only [allSpelled_cons, allSpelled_append] at hts
    exact ih hts.2.1
  | unary _ _ ih => exact ih (allSpelled_cons.1 hts).2
  | binary _ _ _ ihl ihr =>
    simp only [allSpelled_cons, allSpelled_append] at hts
    exact ⟨ihl hts.1, ihr hts.2.2⟩

theorem ListPhrase.forall_mem {α : Type} {sep : Kind} {P : α → List Token → Prop} {Q : α → Prop}
    {as : List α} (h : ListPhrase sep P as ts) (hP : ∀ a ts, P a ts → AllSpelled ts → Q a)
    (hts : AllSpelled ts) : as ≠ [] ∧ ∀ a ∈ as, Q a := by
  induction h with
  | one h => simpa using hP _ _ h hts
  | more h _ _ ih =>
    simp only [allSpelled_cons, allSpelled_append] at hts
    simpa using ⟨hP _ _ h hts.1, (ih hts.2.2).2⟩

theorem NamePhrase.isName {name : String} (h : NamePhrase name ts) (hts : AllSpelled ts) :
    IsName name := by
  cases h with
  | ident hk => exact (allSpelled_cons.1 hts).1.of_kind hk

theorem InitialPhrase.isInitial {name : String} {ty : DataType} {v : Value}
    (h : InitialPhrase name ty v ts) (hts : AllSpelled ts) : v.IsInitial ty := by
  simp only [AllSpelled] at hts
  cases h with
  | plain h => exact literal_isInitial (hts _ (by simp)) h
  | signed _ _ h => exact literal_isInitial (hts _ (by simp)) h

theorem ItemPhrase.wellFormed {ty : DataType} {i : Item} (h : ItemPhrase ty i ts)
    (hts : AllSpelled ts) : i.WellFormed ty := by
  cases h with
  | bare h => exact ⟨h.isName hts, by simp⟩
  | set h _ hv =>
    simp only [allSpelled_cons, allSpelled_append] at hts
    refine ⟨h.isName hts.1, fun w hw => ?_⟩
    rw [← Option.some.inj hw]
    exact hv.isInitial hts.2.2

theorem AssignedPhrase.wellFormed {commas : Bool} {names : List String} {e : Expr}
    (h : AssignedPhrase commas names e ts) (hts : AllSpelled ts) :
    (∀ name ∈ names, IsName name) ∧ e.WellFormed := by
  induction h with
  | value _ h => exact ⟨by simp, h.wellFormed (allSpelled_cons.1 hts).2⟩
  | target _ ht _ ih =>
    simp only [allSpelled_cons] at hts
    obtain ⟨hnames, he⟩ := ih hts.2.2
    exact ⟨List.forall_mem_cons.2 ⟨hts.2.1.of_kind ht, hnames⟩, he⟩

theorem UpdatePhrase.wellFormed {commas : Bool} {name : String} {u : Update}
    (h : UpdatePhrase commas name u ts) (hname : IsName name) (hts : AllSpelled ts) :
    u.WellFormed := by
  cases h with
  | up | down => exact hname
  | assign h =>
    obtain ⟨hnames, he⟩ := h.wellFormed hts
    exact ⟨by simp, List.forall_mem_cons.2 ⟨hname, hnames⟩, he⟩

theorem SegmentPhrase.wellFormed {s : Segment} (h : SegmentPhrase s ts) (hts : AllSpelled ts) :
    s.WellFormed := by
  cases h with
  | newline | escape => trivial
  | expr h => exact h.wellFormed hts

theorem TestPhrase.wellFormed {e : Expr} (h : TestPhrase e ts) (hts : AllSpelled ts) :
    e.WellFormed := by
  cases h with
  | bracket _ h => exact h.wellFormed hts

def Part.WellFormed : Part → Prop
  | stmt s => s.WellFormed
  | body ss | braces ss | block ss => bodyWellFormed ss
  | chain c => c.WellFormed

theorem Phrase.wellFormed {part : Part} (h : Phrase part ts) (hts : AllSpelled ts) :
    part.WellFormed := by
  induction h with
    try simp only [allSpelled_cons, allSpelled_append] at hts
  | declare _ _ h => exact h.forall_mem (fun _ _ => ItemPhrase.wellFormed) hts.2.2
  | assign ht h | step ht h => exact h.wellFormed (hts.1.of_kind ht) hts.2
  | print _ _ h => exact h.forall_mem (fun _ _ => SegmentPhrase.wellFormed) hts.2.2
  | read _ _ h => exact h.forall_mem (fun _ _ => NamePhrase.isName) hts.2.2
  | choose _ htest _ _ ihbody ihc =>
    exact ⟨htest.wellFormed hts.2.1, ihbody hts.2.2.1, ihc hts.2.2.2⟩
  | loop _ _ _ hi hinit _ htest _ hn hu _ _ ih =>
    obtain ⟨-, -, -, hfirst, his, -, hts, -, hname, hus, -, hbs⟩ := hts
    obtain ⟨hnames, hvalue⟩ := hinit.wellFormed his
    have hinit : ∀ name ∈ _ :: _, IsName name :=
      List.forall_mem_cons.2 ⟨hfirst.of_kind hi, hnames⟩
    exact ⟨⟨by simp, hinit, hvalue⟩, htest.wellFormed hts,
      hu.wellFormed (hname.of_kind hn) hus, ih hbs⟩
  | nil | done => trivial
  | cons _ _ ih ihmore => exact ⟨ih hts.1, ihmore hts.2⟩
  | braces _ _ _ ih => exact ih hts.2.1
  | bare _ ih => exact ih hts
  | pundok _ _ ih => exact ih hts.2
  | wala _ _ _ ih => exact ih hts.2.2
  | dili _ _ htest _ _ ihbody ihc =>
    exact ⟨htest.wellFormed hts.2.2.1, ihbody hts.2.2.2.1, ihc hts.2.2.2.2⟩

end Parse

open Parse

/-- What is read from a text is well formed. -/
theorem parse_wellFormed {source : String} {p : Program} (h : parse source = .ok p) :
    p.WellFormed := by
  obtain ⟨start, body, close, last, more, htokens, -, hbody, -⟩ :=
    program_phrase (terminated_tokenize source) h
  have hspelled : AllSpelled (tokenize source) := tokenize_spelled source
  rw [htokens] at hspelled
  simp only [allSpelled_cons, allSpelled_append] at hspelled
  exact hbody.wellFormed hspelled.2.1

end Bisaya
