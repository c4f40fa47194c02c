import Bisaya.Proofs.Parse.Verdict
import Bisaya.Proofs.Run.Entering
import Bisaya.Proofs.Run.Literals

namespace Bisaya

open Number Text Piece

def Kind.isNumber : Kind → Bool
  | .int | .float => true
  | _ => false

namespace Token

/-- The number that digits with at most one point among them stand for. -/
def decimal (t : Token) : ℚ :=
  value (t.literal.toList.filter Char.isDigit) /
    10 ^ (t.literal.toList.dropWhile Char.isDigit).tail.length

/-- A number beyond all doubles, rounding included. -/
def TooLarge (t : Token) : Prop := t.kind.isNumber ∧ overflow ≤ t.decimal

variable {t : Token}

theorem not_tooLarge_of_kind {kind : Kind} (ht : t.kind = kind) (h : kind.isNumber = false) :
    ¬ t.TooLarge := by
  rintro ⟨hnumber, -⟩
  rw [ht, h] at hnumber
  cases hnumber

theorem isDigits_literal (hs : t.Spelled) (ht : t.kind = .int) : IsDigits t.literal.toList := by
  simpa [Spelled, ht, Kind.Spells] using hs

theorem decimal_digits (h : IsDigits t.literal.toList) : t.decimal = value t.literal.toList := by
  have hfilter := List.filter_eq_self.2 h.2
  have hdrop := List.dropWhile_eq_nil_iff.2 h.2
  rw [decimal, hfilter, hdrop]
  simp

theorem decimal_point {whole fraction : List Char} (hw : IsDigits whole) (hf : IsDigits fraction)
    (h : t.literal.toList = whole ++ '.' :: fraction) :
    t.decimal = value (whole ++ fraction) * 10 ^ (-fraction.length : ℤ) := by
  have hpoint : ¬ Char.isDigit '.' := by decide
  have hfilter : (whole ++ '.' :: fraction).filter Char.isDigit = whole ++ fraction := by
    rw [List.filter_append, List.filter_cons_of_neg hpoint, List.filter_eq_self.2 hw.2,
      List.filter_eq_self.2 hf.2]
  have hdrop : (whole ++ '.' :: fraction).dropWhile Char.isDigit = '.' :: fraction := by
    rw [List.dropWhile_append_of_pos hw.2, List.dropWhile_cons_of_neg hpoint]
  rw [decimal, h, hfilter, hdrop, List.tail_cons, zpow_neg, zpow_natCast, div_eq_mul_inv]

theorem read?_decimal (hs : t.Spelled) (ht : t.kind.isNumber) :
    ∃ bits ≤ infinityBits, Tipik.read? t.literal.toList = some (ofBits false bits) ∧
      (bits < infinityBits ↔ t.decimal < overflow) := by
  obtain ⟨kind, s, p⟩ := t
  cases kind with
  | int =>
    have hdigits : IsDigits s.toList := hs
    have hdecimal := decimal_digits (t := ⟨.int, s, p⟩) hdigits
    refine ⟨_, nearestDecimal_le _ _, read?_digits hdigits, ?_⟩
    rw [nearestDecimal_lt_iff, zpow_zero, mul_one, hdecimal]
  | float =>
    obtain ⟨whole, fraction, hw, hf, htext⟩ : IsFraction s.toList := hs
    have hread := read?_point hw hf
    have hdecimal := decimal_point (t := ⟨.float, s, p⟩) hw hf htext
    refine ⟨_, nearestDecimal_le _ _, htext ▸ hread, ?_⟩
    rw [nearestDecimal_lt_iff, hdecimal]
  | _ => cases ht

theorem trimmed_literal (hs : t.Spelled) (ht : t.kind.isNumber) : Trimmed t.literal.toList := by
  obtain ⟨kind, s, p⟩ := t
  cases kind with
  | int =>
    have hdigits : IsDigits s.toList := hs
    have hfirst : StopsAt isBlank ([] ++ s.toList) := by simpa using stopsAt_digits hdigits []
    exact trimmed_signed false hfirst hdigits
  | float =>
    obtain ⟨whole, fraction, hw, hf, htext⟩ : IsFraction s.toList := hs
    have hfirst : StopsAt isBlank (whole ++ ['.'] ++ fraction) := by
      rw [List.append_assoc]
      exact stopsAt_digits hw _
    change Trimmed s.toList
    rw [htext, ← List.singleton_append, ← List.append_assoc]
    exact trimmed_signed false hfirst hf
  | _ => cases ht

/-- A literal of type TIPIK is finite exactly if its token is not too large. -/
theorem isFinite_iff (hs : t.Spelled) (ht : t.kind.isNumber) {x : Tipik}
    (hx : Tipik.read? t.literal.toList = some x) (negative : Bool) :
    isFinite (if negative then -x else x) ↔ ¬ t.TooLarge := by
  obtain ⟨bits, hbits, hread, hfinite⟩ := read?_decimal hs ht
  obtain rfl : ofBits false bits = x := Option.some.inj (hread.symm.trans hx)
  have hlarge : ¬ t.TooLarge ↔ bits < infinityBits := by
    rw [hfinite, TooLarge, not_and, not_le]
    exact ⟨fun h => h ht, fun h _ => h⟩
  rw [hlarge]
  cases negative with
  | false => simp [isFinite, magnitudeBits_ofBits hbits]
  | true => simp [neg_ofBits_false hbits, isFinite, magnitudeBits_ofBits hbits]

theorem not_tooLarge_of_numero (hs : t.Spelled) (ht : t.kind = .int) (negative : Bool) {n : Numero}
    (hn : Numero.read? (Tipik.signed negative t.literal.toList) = some n) : ¬ t.TooLarge := by
  have hdigits := isDigits_literal hs ht
  rw [Numero.read?_signed_digits negative hdigits, Numero.ofInt?_eq_some_iff] at hn
  have hrange := Numero.inRange_toInt n
  have hvalue : value t.literal.toList ≤ 2 ^ 63 := by
    unfold Numero.InRange at hrange
    split at hn <;> omega
  rintro ⟨-, hlarge⟩
  rw [decimal_digits hdigits] at hlarge
  have hbound : (value t.literal.toList : ℚ) ≤ 2 ^ (63 : ℤ) := by exact_mod_cast hvalue
  have hpowers : (2 : ℚ) ^ (63 : ℤ) < 2 ^ (1023 : ℤ) := two_zpow_lt_iff.2 (by norm_num)
  exact absurd (hlarge.trans hbound) ((hpowers.trans zpow_lt_overflow).not_ge)

end Token

namespace Parse

/-- The numbers in a part of a program are finite exactly if none of its tokens is too large. -/
def Measured (vs : List Value) (ts : List Token) : Prop :=
  (∀ t ∈ ts, t.Spelled) → (FiniteAll vs ↔ ∀ t ∈ ts, ¬ t.TooLarge)

namespace Measured

variable {vs ws : List Value} {ts us : List Token}

theorem nil : Measured [] [] := fun _ => by simp [FiniteAll]

theorem append (hts : Measured vs ts) (hus : Measured ws us) :
    Measured (vs ++ ws) (ts ++ us) := by
  intro hspelled
  obtain ⟨hspelled, hspelled'⟩ := List.forall_mem_append.1 hspelled
  rw [finiteAll_append, hts hspelled, hus hspelled', List.forall_mem_append]

theorem token {t : Token} {kind : Kind} (ht : t.kind = kind) (h : kind.isNumber = false)
    (hvs : FiniteAll vs) : Measured vs [t] := by
  intro _
  simp [hvs, Token.not_tooLarge_of_kind ht h]

theorem mark {t : Token} {kind : Kind} (ht : t.kind = kind) (h : kind.isNumber = false) :
    Measured [] [t] := token ht h (by simp [FiniteAll])

theorem cons {t : Token} {kind : Kind} (hts : Measured vs ts) (ht : t.kind = kind)
    (h : kind.isNumber = false) : Measured vs (t :: ts) := (mark ht h).append hts

theorem between {o c : Token} {opener closer : Kind} (hts : Measured vs ts) (ho : o.kind = opener)
    (hopener : opener.isNumber = false) (hc : c.kind = closer) (hcloser : closer.isNumber = false) :
    Measured vs (o :: (ts ++ [c])) := by
  have hclose := hts.append (mark hc hcloser)
  rw [List.append_nil] at hclose
  exact hclose.cons ho hopener

end Measured

theorem finiteAll_quotedValue (s : String) : FiniteAll [quotedValue s] := by
  unfold quotedValue
  split
  · simp [FiniteAll]
  · split <;> simp [FiniteAll]

theorem AtomPhrase.measured {e : Expr} {t : Token} (h : AtomPhrase e t) :
    Measured e.literals [t] := by
  cases h with
  | int ht hn =>
    intro hspelled
    have hs := hspelled t (List.mem_singleton_self t)
    simpa [Expr.literals, FiniteAll] using Token.not_tooLarge_of_numero hs ht false hn
  | float ht hx =>
    intro hspelled
    have hs := hspelled t (List.mem_singleton_self t)
    simpa [Expr.literals, FiniteAll] using Token.isFinite_iff hs (by rw [ht]; rfl) hx false
  | string ht => exact .token ht rfl (finiteAll_quotedValue _)
  | name ht | oo ht | dili ht => exact .token ht rfl (by simp [Expr.literals, FiniteAll])

theorem ExprPhrase.measured {e : Expr} {ts : List Token} (h : ExprPhrase e ts) :
    Measured e.literals ts := by
  induction h with
  | atom h => exact h.measured
  | brackets ho _ hc ih => exact ih.between ho rfl hc rfl
  | @unary op _ _ _ ht _ ih => exact ih.cons ht (by cases op <;> rfl)
  | @binary op _ _ _ _ _ _ ht _ ihl ihr =>
    exact ihl.append (ihr.cons ht (by rcases op with op | op | op <;> cases op <;> rfl))

theorem ListPhrase.measured {α : Type} {sep : Kind} {P : α → List Token → Prop} {as : List α}
    {ts : List Token} (f : α → List Value) (hsep : sep.isNumber = false)
    (hP : ∀ a ts, P a ts → Measured (f a) ts) (h : ListPhrase sep P as ts) :
    Measured (as.flatMap f) ts := by
  induction h with
  | one h => simpa using hP _ _ h
  | more h ht _ ih => exact (hP _ _ h).append (ih.cons ht hsep)

theorem NamePhrase.measured {name : String} {ts : List Token} (h : NamePhrase name ts) :
    Measured [] ts := by
  cases h with
  | ident ht => exact .mark ht rfl

theorem measured_literal {name : String} {ty : DataType} {negative : Bool} {t : Token} {v : Value}
    (h : literal name ty negative t = .ok v) : Measured [v] [t] := by
  revert h
  fun_cases literal name ty negative t with
  | case1 hk n hn =>
    rintro ⟨⟩ hspelled
    have hs := hspelled t (List.mem_singleton_self t)
    simpa [FiniteAll] using Token.not_tooLarge_of_numero hs hk negative hn
  | case3 hk x hx | case5 hk x hx =>
    rintro ⟨⟩ hspelled
    have hs := hspelled t (List.mem_singleton_self t)
    simpa [FiniteAll] using Token.isFinite_iff hs (by rw [hk]; rfl) hx negative
  | case7 hk | case8 hk | case10 hk | case11 hk =>
    rintro ⟨⟩
    exact .token hk rfl (by simp [FiniteAll])
  | _ => rintro ⟨⟩

theorem InitialPhrase.measured {name : String} {ty : DataType} {v : Value} {ts : List Token}
    (h : InitialPhrase name ty v ts) : Measured [v] ts := by
  cases h with
  | plain h => exact measured_literal h
  | signed _ hs h =>
    rcases hs with hs | hs
    · exact (measured_literal h).cons hs rfl
    · exact (measured_literal h).cons hs rfl

theorem ItemPhrase.measured {ty : DataType} {i : Item} {ts : List Token} (h : ItemPhrase ty i ts) :
    Measured i.initial.toList ts := by
  cases h with
  | bare h => exact h.measured
  | set h ha hv => exact h.measured.append (hv.measured.cons ha rfl)

theorem AssignedPhrase.measured {commas : Bool} {names : List String} {e : Expr} {ts : List Token}
    (h : AssignedPhrase commas names e ts) : Measured e.literals ts := by
  induction h with
  | value ha h => exact h.measured.cons ha rfl
  | target hsep ht _ ih =>
    have hseparators : ∀ kind ∈ separators commas, kind.isNumber = false := by
      cases commas <;> decide
    exact (ih.cons ht rfl).cons rfl (hseparators _ hsep)

theorem UpdatePhrase.measured {commas : Bool} {name : String} {u : Update} {ts : List Token}
    (h : UpdatePhrase commas name u ts) : Measured u.literals ts := by
  cases h with
  | up ht | down ht => exact .token ht rfl (by simp [Update.literals, FiniteAll])
  | assign h => exact h.measured

theorem SegmentPhrase.measured {s : Segment} {ts : List Token} (h : SegmentPhrase s ts) :
    Measured s.literals ts := by
  cases h with
  | newline ht | escape ht => exact .token ht rfl (by simp [Segment.literals, FiniteAll])
  | expr h => exact h.measured

theorem TestPhrase.measured {e : Expr} {ts : List Token} (h : TestPhrase e ts) :
    Measured e.literals ts := by
  cases h with
  | bracket _ h => exact h.measured

def Part.literals : Part → List Value
  | stmt s => s.literals
  | body ss | braces ss | block ss => bodyLiterals ss
  | chain c => c.literals

theorem Phrase.measured {part : Part} {ts : List Token} (h : Phrase part ts) :
    Measured part.literals ts := by
  induction h with
  | @declare m k ty items ts hm hk h =>
    have hitems := h.measured (fun i => i.initial.toList) rfl fun _ _ => ItemPhrase.measured
    rw [← List.filterMap_eq_flatMap_toList] at hitems
    exact (hitems.cons hk (by cases ty <;> rfl)).cons hm rfl
  | assign ht h | step ht h => exact h.measured.cons ht rfl
  | print hp hc h =>
    have hsegments := h.measured Segment.literals rfl fun _ _ => SegmentPhrase.measured
    exact (hsegments.cons hc rfl).cons hp rfl
  | read hd hc h =>
    have hnames := h.measured (fun _ => []) rfl fun _ _ => NamePhrase.measured
    rw [List.flatMap_eq_nil_iff.2 fun _ _ => rfl] at hnames
    exact (hnames.cons hc rfl).cons hd rfl
  | choose hk htest _ _ ihbody ihc =>
    have hclauses := (htest.measured.append (ihbody.append ihc)).cons hk rfl
    simpa only [Part.literals, Stmt.literals, List.append_assoc] using hclauses
  | @loop a s o i c c' n p _ _ _ _ _ is ts us bs ha hs ho hi hinit hc htest hc' hn hu hp _ ih =>
    -- from the body back to the word that begins the loop
    have hupdate := (hu.measured.append (ih.cons hp rfl)).cons hn rfl
    have hheader := hinit.measured.append
      ((htest.measured.append (hupdate.cons hc' rfl)).cons hc rfl)
    have hloop := (((hheader.cons hi rfl).cons ho rfl).cons hs rfl).cons ha rfl
    simpa only [Part.literals, Stmt.literals, List.append_assoc] using hloop
  | nil | done => exact .nil
  | cons _ _ ih ihmore => exact ih.append ihmore
  | braces ho _ hc ih => exact ih.between ho rfl hc rfl
  | bare _ ih => exact ih
  | pundok hp _ ih => exact ih.cons hp rfl
  | wala hk hw _ ih => exact (ih.cons hw rfl).cons hk rfl
  | dili hk hd htest _ _ ihbody ihc =>
    have hclauses := ((htest.measured.append (ihbody.append ihc)).cons hd rfl).cons hk rfl
    simpa only [Part.literals, Chain.literals, List.append_assoc] using hclauses

end Parse

open Parse

theorem Parse.Unread.beyond {t : Token} (h : Unread t) (hs : t.Spelled) :
    t.kind = .int ∧ 2 ^ 63 ≤ value t.literal.toList := by
  cases h with
  | numero negative ht h =>
    have hdigits := Token.isDigits_literal hs ht
    rw [Numero.read?_signed_digits negative hdigits, Numero.ofInt?_eq_none_iff,
      Numero.InRange] at h
    refine ⟨ht, ?_⟩
    split at h <;> omega
  | tipik ht h =>
    -- digits are always some double, be it an infinity
    have hnumber : t.kind.isNumber := by rcases ht with ht | ht <;> rw [ht] <;> rfl
    obtain ⟨bits, -, hread, -⟩ := Token.read?_decimal hs hnumber
    rw [hread] at h
    cases h

/-- As an entry, a number is refused exactly if it is too large. -/
theorem Token.entry_eq_none_iff {t : Token} (hs : t.Spelled) (ht : t.kind.isNumber) :
    Entry.read? .tipik t.literal = none ↔ t.TooLarge := by
  have htrim : trim t.literal.toList = t.literal.toList := by
    have hnone : ∀ c ∈ ([] : List Char), isBlank c := by simp
    simpa using trim_between hnone hnone (trimmed_literal hs ht)
  obtain ⟨bits, -, hread, -⟩ := read?_decimal hs ht
  have hfinite := isFinite_iff hs ht hread false
  rw [if_neg Bool.false_ne_true] at hfinite
  rw [Entry.read?, htrim, hread, Option.map_eq_none_iff, Option.filter_eq_none_iff]
  simpa using not_congr hfinite

/-- The literals of a program are finite exactly if no number in its text is too large for a double.
Such a number is never refused, though it is as an entry; a whole number is, if it is none of 64
bits. -/
theorem finiteAll_iff_not_tooLarge (source : String) :
    (∀ p, parse source = .ok p →
      (FiniteAll p.literals ↔ ∀ t ∈ tokenize source, ¬ t.TooLarge)) ∧
    (∀ t, parse source = .error (.invalidNumber t) →
      t ∈ tokenize source ∧ t.kind = .int ∧ 2 ^ 63 ≤ value t.literal.toList) ∧
    (∀ t ∈ tokenize source, t.kind.isNumber →
      (Entry.read? .tipik t.literal = none ↔ t.TooLarge)) := by
  have hspelled := tokenize_spelled source
  refine ⟨fun p h => ?_, fun t h => ?_, fun t ht => Token.entry_eq_none_iff (hspelled t ht)⟩
  · obtain ⟨start, body, close, last, more, htokens, hstart, hbody, hclose, hlast⟩ :=
      program_phrase (terminated_tokenize source) h
    have hend : tokenize source = (start :: (body ++ [close])) ++ last :: more := by simp [htokens]
    obtain rfl := eq_nil_of_eof hend hlast
    have hfree : Measured [] [close, last] := (Measured.nil.cons hlast rfl).cons hclose rfl
    have hwhole := (hbody.measured.append hfree).cons hstart rfl
    rw [List.append_nil, ← htokens] at hwhole
    exact hwhole hspelled
  · cases program_failure (terminated_tokenize source) h with
    | @token front rest t _ hts _ h =>
      have ht : t ∈ tokenize source := by simp [hts]
      cases h with
      | number h => exact ⟨ht, h.beyond (hspelled _ ht)⟩

def infiniteProgram (name : String) : Program :=
  [.declare .tipik [⟨name, some (.tipik (ofBits false infinityBits))⟩]]

theorem not_finiteAll_infiniteProgram (name : String) :
    ¬ FiniteAll (infiniteProgram name).literals := by
  intro h
  have hmem : .tipik (ofBits false infinityBits) ∈ (infiniteProgram name).literals :=
    List.mem_cons_self
  have hfinite := h _ hmem
  rw [isFinite, magnitudeBits_ofBits le_rfl] at hfinite
  simp at hfinite

/-- A declared value that is too large for a double becomes an infinity. -/
theorem parse_declaredText_infinite {name digits : String} (hname : IsName name)
    (hdigits : IsDigits digits.toList) (h : overflow ≤ value digits.toList) :
    parse (declaredText .tipik name digits) = .ok (infiniteProgram name) := by
  obtain ⟨p, hparse⟩ := parse_declaredText hname .none hdigits .tipik rfl
  have hbits : nearestDecimal (value digits.toList) 0 = infinityBits := by
    refine le_antisymm (nearestDecimal_le _ _) (not_lt.1 ?_)
    rwa [nearestDecimal_lt_iff, zpow_zero, mul_one, not_lt]
  have hread : Tipik.read? digits.toList = some (ofBits false infinityBits) := by
    rw [Number.read?_digits hdigits, hbits]
  rw [Sign.text, String.empty_append] at hparse
  simp only [hparse, Parse.literal, hread]
  rfl

/-- A power of ten: a one and the zeros behind it. -/
def powerDigits (zeros : ℕ) : String := String.ofList ('1' :: List.replicate zeros '0')

theorem isDigits_powerDigits (zeros : ℕ) : IsDigits (powerDigits zeros).toList := by
  rw [powerDigits, String.toList_ofList]
  refine ⟨List.cons_ne_nil _ _, List.forall_mem_cons.2 ⟨rfl, fun c hc => ?_⟩⟩
  rw [List.eq_of_mem_replicate hc]
  rfl

theorem value_powerDigits (zeros : ℕ) : value (powerDigits zeros).toList = 10 ^ zeros := by
  have hone : value ['1'] = 1 := rfl
  rw [powerDigits, String.toList_ofList, ← List.singleton_append, value_append,
    value_replicate_zero, List.length_replicate, hone, one_mul, add_zero]

theorem parse_powerDigits :
    parse (declaredText .tipik "x" (powerDigits 320)) = .ok (infiniteProgram "x") := by
  refine parse_declaredText_infinite isName_x (isDigits_powerDigits _) ?_
  rw [value_powerDigits]
  exact_mod_cast overflow_lt_ten_zpow.le

theorem exists_tooLarge_powerDigits :
    parse (declaredText .tipik "x" (powerDigits 320)) = .ok (infiniteProgram "x") ∧
      ∃ t ∈ tokenize (declaredText .tipik "x" (powerDigits 320)), t.TooLarge := by
  refine ⟨parse_powerDigits, ?_⟩
  by_contra! hnone
  exact not_finiteAll_infiniteProgram _
    (((finiteAll_iff_not_tooLarge _).1 _ parse_powerDigits).2 hnone)

/-- A number too large for a double is accepted. -/
theorem exists_not_finiteAll :
    ∃ p, parse (declaredText .tipik "x" (powerDigits 320)) = .ok p ∧ ¬ FiniteAll p.literals :=
  ⟨_, parse_powerDigits, not_finiteAll_infiniteProgram _⟩

end Bisaya
