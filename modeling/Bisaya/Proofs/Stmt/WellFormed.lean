import Bisaya.Proofs.Token.Spelling
import Bisaya.Stmt.Basic

namespace Bisaya

namespace Value

/-- What may stand as a literal in an expression. The words for the truth values are no texts. -/
def IsLiteral : Value → Prop
  | null => False
  | numero n => 0 ≤ n.toInt
  | tipik x => Number.isNegative x = false
  | letra s => OneQuote s ∧ s ≠ "OO" ∧ s ≠ "DILI"
  | tinuod _ => True

/-- What may stand as the initial value of a variable of type `ty`. -/
def IsInitial (ty : DataType) (v : Value) : Prop :=
  v.type? = some ty ∧ ∀ s, v = letra s → OneQuote s

end Value

def Expr.WellFormed : Expr → Prop
  | lit v => v.IsLiteral
  | var name => IsName name
  | unary _ e => e.WellFormed
  | binary _ l r => l.WellFormed ∧ r.WellFormed

def Item.WellFormed (ty : DataType) (i : Item) : Prop :=
  IsName i.name ∧ ∀ v, i.initial = some v → v.IsInitial ty

structure Assignment.WellFormed (a : Assignment) : Prop where
  ne_nil : a.targets ≠ []
  names : ∀ name ∈ a.targets, IsName name
  value : a.value.WellFormed

def Update.WellFormed : Update → Prop
  | assign a => a.WellFormed
  | step s => IsName s.name

def Segment.WellFormed : Segment → Prop
  | expr e => e.WellFormed
  | _ => True

mutual

def Stmt.WellFormed : Stmt → Prop
  | .declare ty items => items ≠ [] ∧ ∀ i ∈ items, i.WellFormed ty
  | .assign a => a.WellFormed
  | .step s => IsName s.name
  | .print segments => segments ≠ [] ∧ ∀ s ∈ segments, s.WellFormed
  | .read names => names ≠ [] ∧ ∀ name ∈ names, IsName name
  | .choose test body rest => test.WellFormed ∧ bodyWellFormed body ∧ rest.WellFormed
  | .loop init test update body =>
    init.WellFormed ∧ test.WellFormed ∧ update.WellFormed ∧ bodyWellFormed body

def Chain.WellFormed : Chain → Prop
  | .done => True
  | .wala body => bodyWellFormed body
  | .dili test body rest => test.WellFormed ∧ bodyWellFormed body ∧ rest.WellFormed

def bodyWellFormed : List Stmt → Prop
  | [] => True
  | s :: rest => s.WellFormed ∧ bodyWellFormed rest

end

def Program.WellFormed (p : Program) : Prop := bodyWellFormed p

def Expr.literals : Expr → List Value
  | lit v => [v]
  | var _ => []
  | unary _ e => e.literals
  | binary _ l r => l.literals ++ r.literals

def Update.literals : Update → List Value
  | assign a => a.value.literals
  | step _ => []

def Segment.literals : Segment → List Value
  | expr e => e.literals
  | _ => []

mutual

def Stmt.literals : Stmt → List Value
  | .declare _ items => items.filterMap Item.initial
  | .assign a => a.value.literals
  | .step _ => []
  | .print segments => segments.flatMap Segment.literals
  | .read _ => []
  | .choose test body rest => test.literals ++ bodyLiterals body ++ rest.literals
  | .loop init test update body =>
    init.value.literals ++ test.literals ++ update.literals ++ bodyLiterals body

def Chain.literals : Chain → List Value
  | .done => []
  | .wala body => bodyLiterals body
  | .dili test body rest => test.literals ++ bodyLiterals body ++ rest.literals

def bodyLiterals : List Stmt → List Value
  | [] => []
  | s :: rest => s.literals ++ bodyLiterals rest

end

/-- The literals of a program, in its expressions and as initial values. -/
def Program.literals (p : Program) : List Value := bodyLiterals p

/-- Doubles among the values are numbers. -/
def FiniteAll (vs : List Value) : Prop := ∀ x, .tipik x ∈ vs → Number.isFinite x

theorem finiteAll_append {vs ws : List Value} :
    FiniteAll (vs ++ ws) ↔ FiniteAll vs ∧ FiniteAll ws := by
  simp only [FiniteAll, List.mem_append, or_imp, forall_and]

theorem FiniteAll.of_initial {items : List Item} (h : FiniteAll (items.filterMap Item.initial))
    {i : Item} (hi : i ∈ items) : FiniteAll i.initial.toList :=
  fun x hx => h x (List.mem_filterMap.2 ⟨i, hi, by simpa using hx⟩)

theorem FiniteAll.of_mem {α : Type} {f : α → List Value} {xs : List α}
    (h : FiniteAll (xs.flatMap f)) {x : α} (hx : x ∈ xs) : FiniteAll (f x) :=
  fun y hy => h y (List.mem_flatMap.2 ⟨x, hx, hy⟩)

end Bisaya
