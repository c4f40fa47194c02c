import Bisaya.Proofs.Run.Storing
import Bisaya.Proofs.Text.ByteOrder
import Bisaya.Run.Session

namespace Bisaya

/-- What a session may ask of the variables alone. -/
inductive Operation where
  | declare (name : String) (ty : DataType) (initial : Option Value)
  | assign (name : String) (v : Value)
  | get (name : String)
  | lookup (name : String)
  | list
  | count

def Operation.request : Operation → Request
  | declare name ty initial => .declare name ty initial
  | assign name v => .assign name v
  | get name => .get name
  | lookup name => .lookup name
  | list => Request.variables
  | count => Request.size

structure Exchange where
  operation : Operation
  reply : Reply

namespace Exchange

def declared? : Exchange → Option (String × DataType)
  | ⟨.declare name ty _, .ok⟩ => some (name, ty)
  | _ => none

def stored? : Exchange → Option (String × Value)
  | ⟨.declare name _ initial, .ok⟩ => some (name, initial.getD .null)
  | ⟨.assign name v, .ok⟩ => some (name, v)
  | _ => none

end Exchange

def declarations (log : List Exchange) : List (String × DataType) :=
  log.filterMap Exchange.declared?

def stores (log : List Exchange) : List (String × Value) := log.filterMap Exchange.stored?

/-- The last value that was stored under the name. -/
def lastStored? (log : List Exchange) (name : String) : Option Value :=
  (((stores log).filter fun s => s.1 = name).map Prod.snd).getLast?

namespace Env

def names (env : Env) : List String := env.toList.map Prod.fst

/-- The list of the variables is in order, by code points and by bytes, and has their number. -/
structure Ordered (env : Env) : Prop where
  increasing : env.names.Pairwise fun a b => a < b ∧ Text.bytes a < Text.bytes b
  size : env.size = env.toList.length

/-- The variables are those that the exchanges tell of. -/
structure Accords (env : Env) (log : List Exchange) : Prop where
  once : ((declarations log).map Prod.fst).Nodup
  names : ∀ name, name ∈ env.names ↔ name ∈ (declarations log).map Prod.fst
  entry : ∀ name x, (name, x) ∈ env.toList →
    (name, x.ty) ∈ declarations log ∧ lastStored? log name = some x.value

/-- The replies that the list of the variables calls for. A name that is taken is found out before
the initial value is looked at. -/
inductive Calls (env : Env) : Operation → Reply → Prop where
  | declare {name : String} {ty : DataType} {initial : Option Value} (hname : name ∉ env.names)
      (hfits : (initial.getD .null).Fits ty) : Calls env (.declare name ty initial) .ok
  | duplicate {name : String} (ty : DataType) (initial : Option Value) (hname : name ∈ env.names) :
      Calls env (.declare name ty initial) (.error (.run (.duplicate name)))
  | initialType {name : String} {ty got : DataType} {initial : Option Value}
      (hname : name ∉ env.names) (hgot : (initial.getD .null).type? = some got) (hne : got ≠ ty) :
      Calls env (.declare name ty initial) (.error (.run (.assignmentType name ty got)))
  | assign {name : String} {x : Variable} {v : Value} (hx : (name, x) ∈ env.toList)
      (hfits : v.Fits x.ty) : Calls env (.assign name v) .ok
  | assignType {name : String} {x : Variable} {v : Value} {got : DataType}
      (hx : (name, x) ∈ env.toList) (hgot : v.type? = some got) (hne : got ≠ x.ty) :
      Calls env (.assign name v) (.error (.run (.assignmentType name x.ty got)))
  | assignUndeclared {name : String} (v : Value) (hname : name ∉ env.names) :
      Calls env (.assign name v) (.error (.run (.undefined name)))
  | get {name : String} {x : Variable} (hx : (name, x) ∈ env.toList) :
      Calls env (.get name) (.value x.value)
  | getUndeclared {name : String} (hname : name ∉ env.names) :
      Calls env (.get name) (.error (.run (.undefined name)))
  | lookup {name : String} {x : Variable} (hx : (name, x) ∈ env.toList) :
      Calls env (.lookup name) (.variable name x)
  | lookupUndeclared {name : String} (hname : name ∉ env.names) :
      Calls env (.lookup name) (.error (.run (.undefined name)))
  | list : Calls env .list (Reply.variables env.toList)
  | count : Calls env .count (.size env.toList.length)

variable {env env' : Env} {name : String} {log : List Exchange}

theorem mem_toList {x : Variable} : (name, x) ∈ env.toList ↔ env.get? name = some x :=
  Std.TreeMap.mem_toList_iff_getElem?_eq_some

theorem mem_names : name ∈ env.names ↔ ∃ x, env.get? name = some x := by
  simp [names, mem_toList]

theorem not_mem_names : name ∉ env.names ↔ env.get? name = none := by
  rw [mem_names, Option.eq_none_iff_forall_ne_some, not_exists]

theorem ordered (env : Env) : env.Ordered := by
  refine ⟨?_, Std.TreeMap.length_toList.symm⟩
  refine List.pairwise_map.2 (Std.TreeMap.ordered_keys_toList.imp fun h => ?_)
  have hlt := compare_lt_iff_lt.1 h
  exact ⟨hlt, (Text.bytes_lt_bytes_iff _ _).2 hlt⟩

/-- A declaration adds a variable, or finds its name taken, or its value of another type. -/
theorem declare_cases (env : Env) (name : String) (ty : DataType) (initial : Option Value) :
    (env.get? name = none ∧ (initial.getD .null).Fits ty ∧
      ∃ env', env.declare name ty initial = .ok env' ∧
        env.put name ⟨ty, initial.getD .null⟩ = .ok env') ∨
    (∃ x, env.get? name = some x) ∧ env.declare name ty initial = .error (.duplicate name) ∨
    env.get? name = none ∧ ∃ got, (initial.getD .null).type? = some got ∧ got ≠ ty ∧
      env.declare name ty initial = .error (.assignmentType name ty got) := by
  cases hx : env.get? name with
  | some x => exact .inr (.inl ⟨⟨x, rfl⟩, by rw [declare, hx]⟩)
  | none =>
    have hdeclare : env.declare name ty initial = env.put name ⟨ty, initial.getD .null⟩ := by
      rw [declare, hx]
    rw [hdeclare]
    by_cases hfits : (initial.getD .null).Fits ty
    · have hput := env.put_of_fits name (x := ⟨ty, initial.getD .null⟩) hfits
      exact .inl ⟨rfl, hfits, _, hput, hput⟩
    · obtain ⟨got, hgot, hne⟩ := Value.exists_of_not_fits hfits
      exact .inr (.inr ⟨rfl, got, hgot, hne, env.put_of_not_fits name hgot hne⟩)

end Env

section Log

variable {log : List Exchange} {x : Exchange}

theorem declarations_concat (log : List Exchange) (x : Exchange) :
    declarations (log ++ [x]) = declarations log ++ x.declared?.toList := by
  rw [declarations, List.filterMap_append]
  cases h : x.declared? <;> simp [h, declarations]

theorem lastStored?_concat (log : List Exchange) (x : Exchange) (name : String) :
    lastStored? (log ++ [x]) name =
      ((x.stored?.filter fun s => s.1 = name).map Prod.snd).or (lastStored? log name) := by
  rw [lastStored?, stores, List.filterMap_append]
  cases h : x.stored? with
  | none => simp [h, lastStored?, stores]
  | some s => by_cases hname : s.1 = name <;> simp [h, hname, lastStored?, stores, Option.filter]

end Log

namespace Env

variable {env env' : Env} {name : String} {log : List Exchange} {ty : DataType} {v : Value}

theorem accords_empty : empty.Accords [] := by
  refine ⟨.nil, fun name => ?_, fun name x hx => ?_⟩
  · simp [mem_names, declarations]
  · simp [mem_toList] at hx

namespace Accords

/-- An exchange that stores nothing leaves the variables to those before it. -/
theorem concat (h : env.Accords log) {x : Exchange} (hdeclared : x.declared? = none)
    (hstored : x.stored? = none) : env.Accords (log ++ [x]) := by
  have hdecls : declarations (log ++ [x]) = declarations log := by
    rw [declarations_concat, hdeclared, Option.toList_none, List.append_nil]
  have hlast (name : String) : lastStored? (log ++ [x]) name = lastStored? log name := by
    rw [lastStored?_concat, hstored]
    rfl
  refine ⟨hdecls ▸ h.once, hdecls ▸ h.names, fun name y hy => ?_⟩
  rw [hdecls, hlast]
  exact h.entry name y hy

theorem declare (h : env.Accords log) (hfresh : env.get? name = none) (initial : Option Value)
    (hput : env.put name ⟨ty, initial.getD .null⟩ = .ok env') :
    env'.Accords (log ++ [⟨.declare name ty initial, .ok⟩]) := by
  have hdecls := declarations_concat log ⟨.declare name ty initial, .ok⟩
  have hnew : name ∉ (declarations log).map Prod.fst := by
    rw [← h.names, not_mem_names]
    exact hfresh
  constructor
  · rw [hdecls, List.map_append]
    exact h.once.append (List.nodup_singleton _) (by simpa [Exchange.declared?] using hnew)
  · intro a
    rw [mem_names, get?_of_put hput, hdecls, List.map_append, List.mem_append, ← h.names, mem_names]
    by_cases ha : name = a <;> simp [ha, Exchange.declared?, eq_comm]
  · intro a y hy
    rw [mem_toList, get?_of_put hput] at hy
    rw [hdecls, lastStored?_concat]
    split at hy
    · rename_i ha
      cases hy
      simp [ha, Exchange.declared?, Exchange.stored?]
    · rename_i ha
      obtain ⟨hty, hvalue⟩ := h.entry a y (mem_toList.2 hy)
      exact ⟨List.mem_append_left _ hty, by simpa [ha, Exchange.stored?] using hvalue⟩

theorem assign (h : env.Accords log) (hstored : env.Stored v [name] env') :
    env'.Accords (log ++ [⟨.assign name v, .ok⟩]) := by
  have hdecls : declarations (log ++ [⟨.assign name v, .ok⟩]) = declarations log := by
    rw [declarations_concat]
    exact List.append_nil _
  have hnames (a : String) : a ∈ env'.names ↔ a ∈ env.names := by
    have hty := hstored.map_ty a
    rw [mem_names, mem_names, ← Option.isSome_iff_exists, ← Option.isSome_iff_exists,
      ← Option.isSome_map, hty, Option.isSome_map]
  refine ⟨hdecls ▸ h.once, fun a => ?_, fun a y hy => ?_⟩
  · rw [hnames, hdecls, h.names]
  · rw [mem_toList] at hy
    rw [hdecls, lastStored?_concat]
    by_cases ha : a = name
    · subst ha
      obtain ⟨x, hx, hx'⟩ := hstored.targets a (by simp)
      obtain rfl := Option.some.inj (hx'.symm.trans hy)
      exact ⟨(h.entry a x (mem_toList.2 hx)).1, by simp [Exchange.stored?]⟩
    · rw [hstored.others a (by simpa using ha)] at hy
      obtain ⟨hty, hvalue⟩ := h.entry a y (mem_toList.2 hy)
      exact ⟨hty, by simpa [Ne.symm ha, Exchange.stored?] using hvalue⟩

end Accords

end Env

theorem Env.lookup_cases (env : Env) (name : String) :
    (∃ x, (name, x) ∈ env.toList ∧ env.lookup name = .ok x) ∨
      name ∉ env.names ∧ env.lookup name = .error (.undefined name) := by
  rw [not_mem_names, lookup]
  cases hx : env.get? name with
  | some x => exact .inl ⟨x, mem_toList.2 hx, rfl⟩
  | none => exact .inr ⟨rfl, rfl⟩

/-- What becomes of a session by one operation: the reply is the one that the variables call for, a
failure changes nothing, and the variables go on to accord with the exchanges. -/
structure Session.Serves (s : Session) (op : Operation) (r : Session × Reply) : Prop where
  calls : s.env.Calls op r.2
  failed : ∀ e, r.2 = .error e → r.1 = s
  accords : ∀ log, s.env.Accords log → r.1.env.Accords (log ++ [⟨op, r.2⟩])

namespace Session

variable (n : ℕ) (s : Session)

theorem Serves.unchanged {s : Session} {op : Operation} {reply : Reply} (h : s.env.Calls op reply)
    (hdeclared : (Exchange.mk op reply).declared? = none)
    (hstored : (Exchange.mk op reply).stored? = none) : s.Serves op (s, reply) :=
  ⟨h, fun _ _ => rfl, fun _ hlog => hlog.concat hdeclared hstored⟩

theorem serves_declare (name : String) (ty : DataType) (initial : Option Value) :
    s.Serves (.declare name ty initial) (s.change (s.env.declare name ty initial)) := by
  obtain ⟨hfresh, hfits, env', hdeclare, hput⟩ | ⟨hname, hdeclare⟩ |
    ⟨hfresh, got, hgot, hne, hdeclare⟩ := s.env.declare_cases name ty initial
  · rw [hdeclare]
    exact ⟨.declare (Env.not_mem_names.2 hfresh) hfits, fun e he => Reply.noConfusion he,
      fun log hlog => hlog.declare hfresh initial hput⟩
  · rw [hdeclare]
    exact .unchanged (.duplicate ty initial (Env.mem_names.2 hname)) rfl rfl
  · rw [hdeclare]
    exact .unchanged (.initialType (Env.not_mem_names.2 hfresh) hgot hne) rfl rfl

theorem serves_assign (name : String) (v : Value) :
    s.Serves (.assign name v) (s.change (s.env.assign name v)) := by
  obtain ⟨⟨x, hx, hfits⟩, env', hassign, hstored⟩ | ⟨e, hrefuses, hassign⟩ :=
    s.env.assign_cases name v
  · rw [hassign]
    exact ⟨.assign (Env.mem_toList.2 hx) hfits, fun e he => Reply.noConfusion he,
      fun log hlog => hlog.assign hstored⟩
  · rw [hassign]
    cases hrefuses with
    | undeclared hx => exact .unchanged (.assignUndeclared v (Env.not_mem_names.2 hx)) rfl rfl
    | mistyped hx hgot hne =>
      exact .unchanged (.assignType (Env.mem_toList.2 hx) hgot hne) rfl rfl

theorem perform_serves (op : Operation) : s.Serves op (s.perform n op.request) := by
  cases op with
  | declare name ty initial => exact s.serves_declare name ty initial
  | assign name v => exact s.serves_assign name v
  | get name =>
    rw [Operation.request, perform]
    obtain ⟨x, hx, hlookup⟩ | ⟨hname, hlookup⟩ := s.env.lookup_cases name
    · rw [hlookup]
      exact .unchanged (.get hx) rfl rfl
    · rw [hlookup]
      exact .unchanged (.getUndeclared hname) rfl rfl
  | lookup name =>
    rw [Operation.request, perform]
    obtain ⟨x, hx, hlookup⟩ | ⟨hname, hlookup⟩ := s.env.lookup_cases name
    · rw [hlookup]
      exact .unchanged (.lookup hx) rfl rfl
    · rw [hlookup]
      exact .unchanged (.lookupUndeclared hname) rfl rfl
  | list => exact .unchanged .list rfl rfl
  | count =>
    have hcount : s.env.Calls .count (.size s.env.size) := s.env.ordered.size ▸ .count
    exact .unchanged hcount rfl rfl

/-- The operations and the replies that a session gives to them one after the other. -/
def exchanges (ops : List Operation) : List Exchange :=
  List.zipWith Exchange.mk ops (s.performAll n (ops.map Operation.request)).2

theorem accords_performAll (ops : List Operation) {log : List Exchange} (h : s.env.Accords log) :
    (s.performAll n (ops.map Operation.request)).1.env.Accords (log ++ s.exchanges n ops) := by
  induction ops generalizing s log with
  | nil => exact (List.append_nil log).symm ▸ h
  | cons op ops ih =>
    have hstep := ih (s.perform n op.request).1 ((s.perform_serves n op).accords log h)
    rw [List.append_assoc] at hstep
    exact hstep

/-- After any operations, failures among them, the list of the variables is in the order of names
and accords with the exchanges so far, and it settles the reply to every further operation, of which
those that fail change nothing. -/
theorem performAll_serves (answers : List String) (ops : List Operation) :
    let s := ((start answers).performAll n (ops.map Operation.request)).1
    s.env.Ordered ∧ s.env.Accords ((start answers).exchanges n ops) ∧
      ∀ op, s.env.Calls op (s.perform n op.request).2 ∧
        ∀ e, (s.perform n op.request).2 = .error e → (s.perform n op.request).1 = s := by
  intro s
  refine ⟨s.env.ordered, ?_, fun op => ?_⟩
  · exact (start answers).accords_performAll n ops Env.accords_empty
  · exact ⟨(s.perform_serves n op).calls, (s.perform_serves n op).failed⟩

end Session
end Bisaya
