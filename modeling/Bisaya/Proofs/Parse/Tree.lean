import Mathlib
import Bisaya.Stmt.Basic

namespace Bisaya

namespace Tree

inductive Op where
  | add | sub | mul | div | mod | eq | ne | lt | gt | le | ge | ug | o | dili
  deriving DecidableEq, Repr

def Op.ofKind? : Kind → Option Op
  | .mark .plus => some add
  | .mark .minus => some sub
  | .mark .asterisk => some mul
  | .mark .slash => some div
  | .mark .percent => some mod
  | .mark .equals => some eq
  | .mark .notEquals => some ne
  | .mark .less => some lt
  | .mark .greater => some gt
  | .mark .lessEquals => some le
  | .mark .greaterEquals => some ge
  | .keyword .ug => some ug
  | .keyword .o => some o
  | .keyword .dili => some dili
  | _ => none

/-- How tightly a token of this kind binds the operands around it: not at all if it is 0. -/
def precedence : Kind → ℕ
  | .keyword .o => 1
  | .keyword .ug => 2
  | .mark .equals | .mark .notEquals => 3
  | .mark .less | .mark .greater | .mark .lessEquals | .mark .greaterEquals => 4
  | .mark .plus | .mark .minus => 5
  | .mark .asterisk | .mark .slash | .mark .percent => 6
  | _ => 0

/-- Every operator may stand before an operand and between two. -/
inductive Expr where
  | lit (v : Value)
  | var (name : String)
  | unary (op : Op) (operand : Expr)
  | binary (op : Op) (left right : Expr)
  deriving DecidableEq

inductive Segment where
  | newline
  | escape (c : Char)
  | expr (e : Expr)
  deriving DecidableEq

mutual

/-- Statements as they are first read: the types leave it open which branches have a condition and
which statements may stand in the header of a loop. -/
inductive Stmt where
  | declare (ty : DataType) (items : List Item)
  | assign (targets : List String) (value : Expr)
  | increment (name : String) (op : Op)
  | print (segments : List Segment)
  | read (names : List String)
  | conditional (branches : List Branch)
  | loop (init : Stmt) (test : Expr) (update : Stmt) (body : List Stmt)

inductive Branch where
  | mk (condition : Option Expr) (body : List Stmt)

end

def Branch.condition : Branch → Option Expr
  | mk condition _ => condition

abbrev Program := List Stmt

end Tree

def UnOp.tree : UnOp → Tree.Op
  | plus => .add
  | minus => .sub
  | dili => .dili

def BinOp.tree : BinOp → Tree.Op
  | arith .add => .add
  | arith .sub => .sub
  | arith .mul => .mul
  | arith .div => .div
  | arith .mod => .mod
  | rel .eq => .eq
  | rel .ne => .ne
  | rel .lt => .lt
  | rel .gt => .gt
  | rel .le => .le
  | rel .ge => .ge
  | logic .ug => .ug
  | logic .o => .o

def Expr.tree : Expr → Tree.Expr
  | lit v => .lit v
  | var name => .var name
  | unary op e => .unary op.tree e.tree
  | binary op l r => .binary op.tree l.tree r.tree

def Segment.tree : Segment → Tree.Segment
  | newline => .newline
  | escape c => .escape c
  | expr e => .expr e.tree

def Assignment.tree (a : Assignment) : Tree.Stmt := .assign a.targets a.value.tree

def Step.tree (s : Step) : Tree.Stmt :=
  .increment s.name (match s.direction with | .up => .add | .down => .sub)

def Update.tree : Update → Tree.Stmt
  | assign a => a.tree
  | step s => s.tree

mutual

def Stmt.tree : Stmt → Tree.Stmt
  | .declare ty items => .declare ty items
  | .assign a => a.tree
  | .step s => s.tree
  | .print segments => .print (segments.map Segment.tree)
  | .read names => .read names
  | .choose test body rest => .conditional (.mk (some test.tree) (bodyTree body) :: rest.tree)
  | .loop init test update body => .loop init.tree test.tree update.tree (bodyTree body)

def Chain.tree : Chain → List Tree.Branch
  | .done => []
  | .wala body => [.mk none (bodyTree body)]
  | .dili test body rest => .mk (some test.tree) (bodyTree body) :: rest.tree

def bodyTree : List Stmt → List Tree.Stmt
  | [] => []
  | s :: rest => s.tree :: bodyTree rest

end

def Program.tree (p : Program) : Tree.Program := bodyTree p

theorem bodyTree_eq_map (ss : List Stmt) : bodyTree ss = ss.map Stmt.tree := by
  induction ss with
  | nil => rfl
  | cons s rest ih => rw [bodyTree, ih, List.map_cons]

theorem Tree.precedence_of_none {kind : Kind} (h : BinOp.ofKind? kind = none) :
    Tree.precedence kind = 0 := by
  revert h
  cases kind with
  | mark m => cases m <;> first | exact fun _ => rfl | rintro ⟨⟩
  | keyword k => cases k <;> first | exact fun _ => rfl | rintro ⟨⟩
  | _ => exact fun _ => rfl

theorem Tree.of_ofKind?_eq_some {kind : Kind} {op : BinOp} (h : BinOp.ofKind? kind = some op) :
    Tree.precedence kind = op.level ∧ Tree.Op.ofKind? kind = some op.tree := by
  revert h
  cases kind with
  | mark m => cases m <;> rintro ⟨⟩ <;> exact ⟨rfl, rfl⟩
  | keyword k => cases k <;> rintro ⟨⟩ <;> exact ⟨rfl, rfl⟩
  | _ => rintro ⟨⟩

section Injective

theorem UnOp.tree_injective : Function.Injective UnOp.tree := by
  intro op op' h
  cases op <;> cases op' <;> first | rfl | cases h

theorem BinOp.tree_injective : Function.Injective BinOp.tree := by
  rintro (op | op | op) (op' | op' | op') h <;> cases op <;> cases op' <;> first | rfl | cases h

theorem Expr.tree_injective : Function.Injective Expr.tree := by
  intro e e' h
  induction e generalizing e' with
  | lit v =>
    cases e' <;> cases h
    rfl
  | var name =>
    cases e' <;> cases h
    rfl
  | unary op e ih =>
    cases e' with
    | unary op' e' =>
      obtain ⟨hop, he⟩ := Tree.Expr.unary.inj h
      rw [UnOp.tree_injective hop, ih he]
    | _ => cases h
  | binary op l r ihl ihr =>
    cases e' with
    | binary op' l' r' =>
      obtain ⟨hop, hl, hr⟩ := Tree.Expr.binary.inj h
      rw [BinOp.tree_injective hop, ihl hl, ihr hr]
    | _ => cases h

theorem Segment.tree_injective : Function.Injective Segment.tree := by
  intro s s' h
  cases s with
  | newline => cases s' <;> first | rfl | cases h
  | escape c =>
    cases s' <;> cases h
    rfl
  | expr e =>
    cases s' with
    | expr e' => rw [Expr.tree_injective (Tree.Segment.expr.inj h)]
    | _ => cases h

theorem Assignment.tree_injective : Function.Injective Assignment.tree := by
  intro a a' h
  obtain ⟨htargets, hvalue⟩ := Tree.Stmt.assign.inj h
  cases a
  cases a'
  rw [Assignment.mk.injEq]
  exact ⟨htargets, Expr.tree_injective hvalue⟩

theorem Step.tree_injective : Function.Injective Step.tree := by
  rintro ⟨name, direction⟩ ⟨name', direction'⟩ h
  obtain ⟨rfl, hop⟩ := Tree.Stmt.increment.inj h
  cases direction <;> cases direction' <;> first | rfl | cases hop

theorem Update.tree_injective : Function.Injective Update.tree := by
  intro u u' h
  cases u <;> cases u'
  · rw [Assignment.tree_injective h]
  · cases h
  · cases h
  · rw [Step.tree_injective h]

mutual

theorem Stmt.eq_of_tree {s s' : Stmt} (h : s.tree = s'.tree) : s = s' := by
  cases s with
  | declare ty items =>
    cases s' <;> cases h
    rfl
  | assign a =>
    cases s' with
    | assign a' => rw [Assignment.tree_injective h]
    | _ => cases h
  | step x =>
    cases s' with
    | step x' => rw [Step.tree_injective h]
    | _ => cases h
  | print segments =>
    cases s' with
    | print segments' =>
      rw [List.map_injective_iff.2 Segment.tree_injective (Tree.Stmt.print.inj h)]
    | _ => cases h
  | read names =>
    cases s' <;> cases h
    rfl
  | choose test body rest =>
    cases s' with
    | choose test' body' rest' =>
      obtain ⟨hbranch, hrest⟩ := List.cons.inj (Tree.Stmt.conditional.inj h)
      obtain ⟨htest, hbody⟩ := Tree.Branch.mk.inj hbranch
      rw [Expr.tree_injective (Option.some.inj htest), eq_of_bodyTree hbody,
        Chain.eq_of_tree hrest]
    | _ => cases h
  | loop init test update body =>
    cases s' with
    | loop init' test' update' body' =>
      obtain ⟨hinit, htest, hupdate, hbody⟩ := Tree.Stmt.loop.inj h
      rw [Assignment.tree_injective hinit, Expr.tree_injective htest,
        Update.tree_injective hupdate, eq_of_bodyTree hbody]
    | _ => cases h

theorem Chain.eq_of_tree {c c' : Chain} (h : c.tree = c'.tree) : c = c' := by
  cases c with
  | done => cases c' <;> first | rfl | cases h
  | wala body =>
    cases c' with
    | wala body' =>
      obtain ⟨-, hbody⟩ := Tree.Branch.mk.inj (List.cons.inj h).1
      rw [eq_of_bodyTree hbody]
    | done => cases h
    | dili test body rest => cases (Tree.Branch.mk.inj (List.cons.inj h).1).1
  | dili test body rest =>
    cases c' with
    | dili test' body' rest' =>
      obtain ⟨hbranch, hrest⟩ := List.cons.inj h
      obtain ⟨htest, hbody⟩ := Tree.Branch.mk.inj hbranch
      rw [Expr.tree_injective (Option.some.inj htest), eq_of_bodyTree hbody,
        Chain.eq_of_tree hrest]
    | done => cases h
    | wala body => cases (Tree.Branch.mk.inj (List.cons.inj h).1).1

theorem eq_of_bodyTree {ss ss' : List Stmt} (h : bodyTree ss = bodyTree ss') : ss = ss' := by
  cases ss with
  | nil => cases ss' <;> first | rfl | cases h
  | cons s rest =>
    cases ss' with
    | nil => cases h
    | cons s' rest' =>
      obtain ⟨hs, hrest⟩ := List.cons.inj h
      rw [Stmt.eq_of_tree hs, eq_of_bodyTree hrest]

end

theorem bodyTree_injective : Function.Injective bodyTree := fun _ _ => eq_of_bodyTree

end Injective

end Bisaya
