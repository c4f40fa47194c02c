import Bisaya.Proofs.Parse.WellFormed
import Bisaya.Proofs.Run.Listing

namespace Bisaya

namespace Tree

def Expr.parts : Expr → List Expr
  | unary op e => unary op e :: e.parts
  | binary op l r => binary op l r :: (l.parts ++ r.parts)
  | e => [e]

/-- What holds of an expression in a program, whatever its operands are. -/
def Expr.Shaped : Expr → Prop
  | lit v => v.IsLiteral
  | var name => IsName name
  | unary op _ => op = .add ∨ op = .sub ∨ op = .dili
  | binary op _ _ => op ≠ .dili

def Segment.expr? : Segment → Option Expr
  | expr e => some e
  | _ => none

namespace Stmt

/-- The expressions of a statement that belong to no statement inside it. -/
def exprs : Stmt → List Expr
  | assign _ value => [value]
  | print segments => segments.filterMap Segment.expr?
  | conditional branches => branches.filterMap Branch.condition
  | loop _ test _ _ => [test]
  | _ => []

def names : Stmt → List String
  | declare _ items => items.map Item.name
  | assign targets _ => targets
  | increment name _ => [name]
  | read names => names
  | _ => []

/-- What holds of a statement in a program, whatever the expressions and bodies in it are. -/
def Shaped : Stmt → Prop
  | declare ty items => items ≠ [] ∧ ∀ i ∈ items, ∀ v, i.initial = some v → v.type? = some ty
  | assign targets _ => targets ≠ []
  | increment _ op => op = .add ∨ op = .sub
  | print segments => segments ≠ []
  | read names => names ≠ []
  | conditional branches =>
    branches ≠ [] ∧ ∀ k body, branches[k]? = some (.mk none body) →
      k + 1 = branches.length ∧ 1 ≤ k
  | loop init _ update _ =>
    (∃ targets value, init = assign targets value) ∧
      ((∃ targets value, update = assign targets value) ∨ ∃ name op, update = increment name op)

structure Proper (s : Stmt) : Prop where
  shaped : s.Shaped
  names : ∀ name ∈ s.names, IsName name
  exprs : ∀ e ∈ s.exprs, ∀ e' ∈ e.parts, e'.Shaped

end Stmt

mutual

/-- The statement and those inside it, those in the header of a loop too. -/
def Stmt.parts : Stmt → List Stmt
  | .conditional branches => .conditional branches :: branchParts branches
  | .loop init test update body =>
    .loop init test update body :: (init.parts ++ (update.parts ++ partsAll body))
  | s => [s]

def branchParts : List Branch → List Stmt
  | [] => []
  | .mk _ body :: rest => partsAll body ++ branchParts rest

def partsAll : List Stmt → List Stmt
  | [] => []
  | s :: rest => s.parts ++ partsAll rest

end

end Tree

theorem Expr.WellFormed.tree_shaped {e : Expr} (h : e.WellFormed) :
    ∀ e' ∈ e.tree.parts, e'.Shaped := by
  have hunary (op : UnOp) : op.tree = .add ∨ op.tree = .sub ∨ op.tree = .dili := by
    cases op <;> decide
  have hbinary (op : BinOp) : op.tree ≠ .dili := by
    rcases op with op | op | op <;> cases op <;> decide
  induction e with
  | lit v => exact List.forall_mem_singleton.2 h
  | var name => exact List.forall_mem_singleton.2 h
  | unary op e ih => exact List.forall_mem_cons.2 ⟨hunary op, ih h⟩
  | binary op l r ihl ihr =>
    exact List.forall_mem_cons.2 ⟨hbinary op, List.forall_mem_append.2 ⟨ihl h.1, ihr h.2⟩⟩

theorem Assignment.WellFormed.proper {a : Assignment} (h : a.WellFormed) : a.tree.Proper where
  shaped := h.ne_nil
  names := h.names
  exprs := List.forall_mem_singleton.2 h.value.tree_shaped

theorem Step.tree_proper {s : Step} (h : IsName s.name) : s.tree.Proper where
  shaped := by
    rw [tree, Tree.Stmt.Shaped]
    cases s.direction <;> decide
  names := List.forall_mem_singleton.2 h
  exprs := List.forall_mem_nil _

theorem Update.WellFormed.proper {u : Update} (h : u.WellFormed) : u.tree.Proper := by
  cases u with
  | assign a => exact Assignment.WellFormed.proper h
  | step s => exact Step.tree_proper h

theorem Segment.WellFormed.tree_shaped {s : Segment} (h : s.WellFormed) {e : Tree.Expr}
    (he : s.tree.expr? = some e) : ∀ e' ∈ e.parts, e'.Shaped := by
  cases s with
  | expr e' =>
    cases he
    exact Expr.WellFormed.tree_shaped h
  | newline => cases he
  | escape c => cases he

/-- Only the last branch of a chain may do without a condition. -/
theorem Chain.last_of_tree {c : Chain} {k : ℕ} {body : List Tree.Stmt}
    (h : c.tree[k]? = some (.mk none body)) : k + 1 = c.tree.length := by
  induction k generalizing c with
  | zero =>
    cases c with
    | done => cases h
    | wala body => rfl
    | dili test body rest => cases h
  | succ k ih =>
    cases c with
    | done => cases h
    | wala body => cases h
    | dili test body rest => exact congrArg Nat.succ (ih h)

theorem Chain.WellFormed.tree_shaped {c : Chain} (h : c.WellFormed) :
    ∀ e ∈ c.tree.filterMap Tree.Branch.condition, ∀ e' ∈ e.parts, e'.Shaped := by
  cases c with
  | done => exact List.forall_mem_nil _
  | wala body => exact List.forall_mem_nil _
  | dili test body rest =>
    exact List.forall_mem_cons.2 ⟨h.1.tree_shaped, Chain.WellFormed.tree_shaped h.2.2⟩

theorem Stmt.WellFormed.proper {s : Stmt} (h : s.WellFormed) : s.tree.Proper := by
  cases s with
  | declare ty items =>
    refine ⟨⟨h.1, fun i hi v hv => ((h.2 i hi).2 v hv).1⟩, ?_, List.forall_mem_nil _⟩
    exact List.forall_mem_map.2 fun i hi => (h.2 i hi).1
  | assign a => exact Assignment.WellFormed.proper h
  | step s => exact Step.tree_proper h
  | print segments =>
    refine ⟨fun hnil => h.1 (List.map_eq_nil_iff.1 hnil), List.forall_mem_nil _, fun e he => ?_⟩
    obtain ⟨segment, hmem, he⟩ := List.mem_filterMap.1 he
    obtain ⟨s, hs, rfl⟩ := List.mem_map.1 hmem
    exact (h.2 s hs).tree_shaped he
  | read names => exact ⟨h.1, h.2, List.forall_mem_nil _⟩
  | choose test body rest =>
    refine ⟨⟨List.cons_ne_nil _ _, fun k body' hk => ?_⟩, List.forall_mem_nil _, ?_⟩
    · cases k with
      | zero => cases hk
      | succ k => exact ⟨congrArg Nat.succ (Chain.last_of_tree hk), Nat.le_add_left 1 k⟩
    · exact List.forall_mem_cons.2 ⟨h.1.tree_shaped, h.2.2.tree_shaped⟩
  | loop init test update body =>
    refine ⟨⟨⟨_, _, rfl⟩, ?_⟩, List.forall_mem_nil _, ?_⟩
    · cases update with
      | assign a => exact .inl ⟨_, _, rfl⟩
      | step s => exact .inr ⟨_, _, rfl⟩
    · exact List.forall_mem_singleton.2 h.2.1.tree_shaped

theorem Update.parts_tree (u : Update) : u.tree.parts = [u.tree] := by
  cases u <;> rfl

mutual

theorem Stmt.WellFormed.parts_proper {s : Stmt} (h : s.WellFormed) :
    ∀ t ∈ s.tree.parts, t.Proper := by
  cases s with
  | choose test body rest =>
    refine List.forall_mem_cons.2 ⟨Stmt.WellFormed.proper h, List.forall_mem_append.2 ⟨?_, ?_⟩⟩
    · exact partsAll_proper h.2.1
    · exact Chain.WellFormed.parts_proper h.2.2
  | loop init test update body =>
    refine List.forall_mem_cons.2 ⟨Stmt.WellFormed.proper h, List.forall_mem_append.2 ⟨?_, ?_⟩⟩
    · exact List.forall_mem_singleton.2 h.1.proper
    · rw [Update.parts_tree]
      exact List.forall_mem_cons.2 ⟨h.2.2.1.proper, partsAll_proper h.2.2.2⟩
  | declare ty items => exact List.forall_mem_singleton.2 (Stmt.WellFormed.proper h)
  | assign a => exact List.forall_mem_singleton.2 (Stmt.WellFormed.proper h)
  | step s => exact List.forall_mem_singleton.2 (Stmt.WellFormed.proper h)
  | print segments => exact List.forall_mem_singleton.2 (Stmt.WellFormed.proper h)
  | read names => exact List.forall_mem_singleton.2 (Stmt.WellFormed.proper h)

theorem Chain.WellFormed.parts_proper {c : Chain} (h : c.WellFormed) :
    ∀ t ∈ Tree.branchParts c.tree, t.Proper := by
  cases c with
  | done => exact List.forall_mem_nil _
  | wala body => exact List.forall_mem_append.2 ⟨partsAll_proper h, List.forall_mem_nil _⟩
  | dili test body rest =>
    refine List.forall_mem_append.2 ⟨?_, ?_⟩
    · exact partsAll_proper h.2.1
    · exact Chain.WellFormed.parts_proper h.2.2

theorem partsAll_proper {p : List Stmt} (h : bodyWellFormed p) :
    ∀ t ∈ Tree.partsAll (bodyTree p), t.Proper := by
  cases p with
  | nil => exact List.forall_mem_nil _
  | cons s p =>
    refine List.forall_mem_append.2 ⟨?_, ?_⟩
    · exact Stmt.WellFormed.parts_proper h.1
    · exact partsAll_proper h.2

end

/-- A declaration whose initial values have its type fails at most for a name that is taken, and
keeps the variables declared before it. -/
theorem Run.declare_cases {ty : DataType} {items : List Item}
    (h : ∀ i ∈ items, ∀ v, i.initial = some v → v.type? = some ty) (m : Machine) :
    (∃ env, Run.declare ty items m = .done { m with env := env }) ∨
      ∃ i ∈ items, ∃ env x,
        Run.declare ty items m = .failed (.duplicate i.name) { m with env := env } ∧
          env.get? i.name = some x := by
  induction items generalizing m with
  | nil => exact .inl ⟨m.env, rfl⟩
  | cons i items ih =>
    obtain ⟨hi, hitems⟩ := List.forall_mem_cons.1 h
    rw [declare]
    obtain ⟨-, -, env, hdeclare, -⟩ | ⟨⟨x, hx⟩, hdeclare⟩ | ⟨-, got, hgot, hne, -⟩ :=
      m.env.declare_cases i.name ty i.initial
    · rw [hdeclare]
      obtain hdone | ⟨j, hj, hfailed⟩ := ih hitems { m with env := env }
      · exact .inl hdone
      · exact .inr ⟨j, List.mem_cons_of_mem i hj, hfailed⟩
    · rw [hdeclare]
      exact .inr ⟨i, List.mem_cons_self, m.env, x, rfl, hx⟩
    · -- no initial value, or one of the type
      cases hinitial : i.initial with
      | none =>
        rw [hinitial] at hgot
        cases hgot
      | some v =>
        rw [hinitial] at hgot
        exact absurd (Option.some.inj (hgot.symm.trans (hi v hinitial))) hne

theorem Tree.of_parse {source : String} {p : Tree.Program} (h : Tree.parse source = .ok p) :
    ∃ q, Bisaya.parse source = .ok q ∧ p = q.tree := by
  rw [parse_tree] at h
  cases hq : Bisaya.parse source with
  | error e =>
    rw [hq] at h
    cases h
  | ok q =>
    rw [hq] at h
    exact ⟨q, rfl, (Except.ok.inj h).symm⟩

/-- The statements of a tree that was read, at any depth, and what its declarations can come to
wherever they run. -/
theorem parse_shaped {source : String} {p : Tree.Program} (h : Tree.parse source = .ok p) :
    (∃ q, parse source = .ok q ∧ p = q.tree) ∧
    (∀ s ∈ Tree.partsAll p, s.Shaped ∧ (∀ name ∈ s.names, IsName name) ∧
      ∀ e ∈ s.exprs, ∀ e' ∈ e.parts, e'.Shaped) ∧
    ∀ ty items, .declare ty items ∈ Tree.partsAll p → ∀ n m,
      (∃ env, (Stmt.declare ty items).exec n m = .done { m with env := env }) ∨
        ∃ i ∈ items, ∃ env x,
          (Stmt.declare ty items).exec n m = .failed (.duplicate i.name) { m with env := env } ∧
            env.get? i.name = some x := by
  obtain ⟨q, hq, rfl⟩ := Tree.of_parse h
  have hparts : ∀ s ∈ Tree.partsAll q.tree, s.Proper := partsAll_proper (parse_wellFormed hq)
  refine ⟨⟨q, hq, rfl⟩, fun s hs => ?_, fun ty items hs n m => ?_⟩
  · exact ⟨(hparts s hs).shaped, (hparts s hs).names, (hparts s hs).exprs⟩
  · rw [Stmt.exec]
    exact Run.declare_cases (hparts _ hs).shaped.2 m

def branchSource : String :=
  "SUGOD MUGNA NUMERO x=-5,y KUNG(x<1)\x7bMUGNA LETRA s='OO'\x7dKUNG WALA\x7bIPAKITA:DILI&-x\x7d" ++
    "KATAPUSAN"

def branchTree : Tree.Program :=
  [.declare .numero [⟨"x", some (.numero (-5))⟩, ⟨"y", none⟩],
    .conditional [.mk (some (.binary .lt (.var "x") (.lit (.numero 1))))
        [.declare .letra [⟨"s", some (.letra "OO")⟩]],
      .mk none [.print [.expr (.lit (.tinuod false)), .expr (.unary .sub (.var "x"))]]]]

/-- A declaration inside a conditional. -/
theorem parse_shaped_branchSource : Tree.parse branchSource = .ok branchTree ∧
    Tree.Stmt.declare .letra [⟨"s", some (.letra "OO")⟩] ∈ Tree.partsAll branchTree ∧
    ∀ n m, (∃ env, (Stmt.declare .letra [⟨"s", some (.letra "OO")⟩]).exec n m =
        .done { m with env := env }) ∨
      ∃ i ∈ [Item.mk "s" (some (.letra "OO"))], ∃ env x,
        (Stmt.declare .letra [⟨"s", some (.letra "OO")⟩]).exec n m =
          .failed (.duplicate i.name) { m with env := env } ∧ env.get? i.name = some x := by
  have hparse : Tree.parse branchSource = .ok branchTree := by cbv
  have hmem : Tree.Stmt.declare .letra [⟨"s", some (.letra "OO")⟩] ∈ Tree.partsAll branchTree := by
    simp [branchTree, Tree.partsAll, Tree.branchParts, Tree.Stmt.parts]
  exact ⟨hparse, hmem, (parse_shaped hparse).2.2 _ _ hmem⟩

end Bisaya
