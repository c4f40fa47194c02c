import Std.Data.TreeMap
import Bisaya.Error

namespace Bisaya

structure Variable where
  ty : DataType
  value : Value
  deriving DecidableEq

structure Env where
  vars : Std.TreeMap String Variable

namespace Env

def empty : Env := ⟨∅⟩

def get? (env : Env) (name : String) : Option Variable := env.vars[name]?

def lookup (env : Env) (name : String) : Except RuntimeError Variable :=
  match env.get? name with
  | some x => .ok x
  | none => .error (.undefined name)

/-- Stores a variable if its value fits its type. -/
def put (env : Env) (name : String) (x : Variable) : Except RuntimeError Env :=
  match x.value.type? with
  | none => .ok ⟨env.vars.insert name x⟩
  | some got =>
    if got = x.ty then .ok ⟨env.vars.insert name x⟩ else .error (.assignmentType name x.ty got)

/-- A name is declared once; without an initial value it is not set. -/
def declare (env : Env) (name : String) (ty : DataType) (initial : Option Value) :
    Except RuntimeError Env :=
  match env.get? name with
  | some _ => .error (.duplicate name)
  | none => env.put name ⟨ty, initial.getD .null⟩

def assign (env : Env) (name : String) (v : Value) : Except RuntimeError Env := do
  let x ← env.lookup name
  env.put name ⟨x.ty, v⟩

def toList (env : Env) : List (String × Variable) := env.vars.toList

def size (env : Env) : Nat := env.vars.size

@[simp] theorem get?_empty (name : String) : empty.get? name = none := by simp [empty, get?]

theorem get?_of_put {env env' : Env} {name : String} {x : Variable} (h : env.put name x = .ok env')
    (a : String) : env'.get? a = if name = a then some x else env.get? a := by
  have h' : env' = ⟨env.vars.insert name x⟩ := by
    unfold put at h
    split at h
    · exact (Except.ok.inj h).symm
    · split at h
      · exact (Except.ok.inj h).symm
      · cases h
  subst h'
  simp [get?, Std.TreeMap.getElem?_insert]

end Env
end Bisaya
