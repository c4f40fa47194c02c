import Bisaya.Stmt.Basic

namespace Bisaya

/-- Whether two lists have equal length and agree place by place. -/
def allAgree {α : Type} (agree : α → α → Bool) : List α → List α → Bool
  | [], [] => true
  | a :: as, b :: bs => agree a b && allAgree agree as bs
  | _, _ => false

def Item.agrees (i j : Item) : Bool :=
  i.name == j.name &&
    match i.initial, j.initial with
    | some v, some w => v.agrees w
    | none, none => true
    | _, _ => false

def Assignment.agrees (a b : Assignment) : Bool := a.targets == b.targets && a.value.agrees b.value

def Update.agrees : Update → Update → Bool
  | assign a, assign b => a.agrees b
  | step s, step t => s == t
  | _, _ => false

def Segment.agrees : Segment → Segment → Bool
  | newline, newline => true
  | escape a, escape b => a == b
  | expr e, expr f => e.agrees f
  | _, _ => false

mutual

def Stmt.agrees : Stmt → Stmt → Bool
  | .declare ty items, .declare ty' items' => ty == ty' && allAgree Item.agrees items items'
  | .assign a, .assign b => a.agrees b
  | .step s, .step t => s == t
  | .print segments, .print segments' => allAgree Segment.agrees segments segments'
  | .read names, .read names' => names == names'
  | .choose test body rest, .choose test' body' rest' =>
    test.agrees test' && stmtsAgree body body' && rest.agrees rest'
  | .loop init test update body, .loop init' test' update' body' =>
    init.agrees init' && test.agrees test' && update.agrees update' && stmtsAgree body body'
  | _, _ => false

def Chain.agrees : Chain → Chain → Bool
  | .done, .done => true
  | .wala body, .wala body' => stmtsAgree body body'
  | .dili test body rest, .dili test' body' rest' =>
    test.agrees test' && stmtsAgree body body' && rest.agrees rest'
  | _, _ => false

def stmtsAgree : List Stmt → List Stmt → Bool
  | [], [] => true
  | s :: ss, t :: ts => s.agrees t && stmtsAgree ss ts
  | _, _ => false

end

def Program.agrees (p q : Program) : Bool := stmtsAgree p q

end Bisaya
