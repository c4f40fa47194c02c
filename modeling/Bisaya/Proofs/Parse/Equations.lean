import Mathlib
import Bisaya.Parse.Stmt

namespace Bisaya.Parse

variable {α : Type}

theorem nextIs_cons (kind : Kind) (t : Token) (rest : List Token) :
    nextIs kind (t :: rest) = decide (t.kind = kind) := rfl

theorem separated_nil {sep : Kind} {item : List Token → Read (α × List Token)}
    (hnil : item [] = .error .endOfTokens) (n : ℕ) :
    separated sep item n [] = .error .endOfTokens := by
  cases n with
  | zero => rfl
  | succ n =>
    rw [separated, hnil]
    rfl

theorem name_cons (t : Token) (rest : List Token) : name (t :: rest) =
    if t.kind = .ident then .ok (t.literal, rest) else .error (.ofExpected [.ident] t) := by
  rw [name, expect]
  simp only [List.mem_singleton]
  split <;> rfl

theorem climb_zero (level : ℕ) (left : Expr) (ts : List Token) :
    climb 0 level left ts = .error .endOfTokens := by
  cases ts <;> rfl

theorem climb_nil (n level : ℕ) (left : Expr) : climb n level left [] = .error .endOfTokens := by
  cases n <;> rfl

theorem dataType_eq (ts : List Token) : dataType ts =
    expect (DataType.all.map typeKind) ts >>= fun x =>
      (DataType.all.find? (x.1.kind = typeKind ·)).elim
        (.error (.ofExpected (DataType.all.map typeKind) x.1)) fun ty => .ok (ty, x.2) := by
  cases ts with
  | nil => rfl
  | cons t rest =>
    rw [dataType, expect]
    cases hty : DataType.all.find? (t.kind = typeKind ·) with
    | none =>
      have hmem : t.kind ∉ DataType.all.map typeKind := by
        simpa [eq_comm (a := t.kind)] using hty
      rw [if_neg hmem]
      rfl
    | some ty =>
      have hkind : t.kind = typeKind ty := of_decide_eq_true (List.find?_some hty :)
      have hmem : t.kind ∈ DataType.all.map typeKind :=
        List.mem_map.2 ⟨ty, List.mem_of_find?_eq_some hty, hkind.symm⟩
      rw [if_pos hmem]
      change _ = Option.elim (DataType.all.find? (t.kind = typeKind ·)) _ _
      rw [hty]
      rfl

def magnitude (name : String) (ty : DataType) (negative : Bool) :
    List Token → Read (Value × List Token)
  | [] => .error .endOfTokens
  | t :: rest => literal name ty negative t >>= fun v => .ok (v, rest)

theorem initial_cons (name : String) (ty : DataType) (t : Token) (rest : List Token) :
    initial name ty (t :: rest) =
      if isNumeric ty && (t.kind = .mark .minus || t.kind = .mark .plus) then
        magnitude name ty (t.kind = .mark .minus) rest
      else magnitude name ty false (t :: rest) := by
  cases rest <;> rfl

/-- What follows the separator `sep` in an assignment: one more target, or the value. -/
def assigned (commas : Bool) (targets : List String) (sep : Kind) :
    List Token → Read (Assignment × List Token)
  | [] => .error .endOfTokens
  | t :: rest =>
    if t.kind = .ident ∧ (sep = .mark .comma ∨ (separators commas).any (nextIs · rest)) then
      assignment commas (targets ++ [t.literal]) rest
    else if sep = .mark .comma then .error (.ofExpected [.ident] t)
    else expr (t :: rest) >>= fun x => .ok (⟨targets, x.1⟩, x.2)

theorem assignment_cons (commas : Bool) (targets : List String) (sep : Token)
    (rest : List Token) : assignment commas targets (sep :: rest) =
      if sep.kind ∈ separators commas then assigned commas targets sep.kind rest
      else .error (.ofExpected (separators commas) sep) := by
  cases rest <;> rfl

/-- The target behind a separator, if there is one. -/
def targetBehind (commas : Bool) (sep : Kind) (ts : List Token) :
    Read (Option String × List Token) :=
  if sep = .mark .comma then name ts >>= fun x => .ok (some x.1, x.2)
  else if nextIs .ident ts && (separators commas).any (nextIs · ts.tail) then
    name ts >>= fun x => .ok (some x.1, x.2)
  else .ok (none, ts)

def target (commas : Bool) (ts : List Token) : Read (Option String × List Token) :=
  expect (separators commas) ts >>= fun x => targetBehind commas x.1.kind x.2

theorem assigned_eq (commas : Bool) (targets : List String) (sep : Kind) (ts : List Token) :
    assigned commas targets sep ts = targetBehind commas sep ts >>= fun x =>
      x.1.elim (expr x.2 >>= fun y => .ok (⟨targets, y.1⟩, y.2)) fun name =>
        assignment commas (targets ++ [name]) x.2 := by
  rw [targetBehind]
  cases ts with
  | nil => split <;> rfl
  | cons t rest =>
    rw [assigned, name_cons]
    by_cases hcomma : sep = .mark .comma
    · rw [if_pos hcomma, if_pos hcomma]
      by_cases hname : t.kind = .ident
      · rw [if_pos ⟨hname, .inl hcomma⟩, if_pos hname]
        rfl
      · rw [if_neg fun h => hname h.1, if_neg hname]
        rfl
    · rw [if_neg hcomma, if_neg hcomma]
      by_cases hname : t.kind = .ident ∧ (separators commas).any (nextIs · rest)
      · rw [if_pos ⟨hname.1, .inr hname.2⟩, if_pos (by simp [nextIs_cons, hname]), if_pos hname.1]
        rfl
      · rw [if_neg (by simpa [hcomma] using hname), if_neg (by simpa [nextIs_cons] using hname)]
        rfl

theorem assignment_eq (commas : Bool) (targets : List String) (ts : List Token) :
    assignment commas targets ts = target commas ts >>= fun x =>
      x.1.elim (expr x.2 >>= fun y => .ok (⟨targets, y.1⟩, y.2)) fun name =>
        assignment commas (targets ++ [name]) x.2 := by
  cases ts with
  | nil => rfl
  | cons sep rest =>
    rw [assignment_cons, target, expect]
    split
    · exact assigned_eq commas targets sep.kind rest
    · rfl

def Continues (ts : List Token) : Prop :=
  ∃ k t rest, ts = k :: t :: rest ∧ k.kind = .keyword .kung ∧
    (t.kind = .keyword .dili ∨ t.kind = .keyword .wala)

theorem not_continues_of_kind {k : Token} (hk : k.kind ≠ .keyword .kung) (rest : List Token) :
    ¬ Continues (k :: rest) := by
  rintro ⟨k', t, more, heq, hkung, -⟩
  obtain ⟨rfl, -⟩ := List.cons.inj heq
  exact hk hkung

theorem chain_stops {ts : List Token} (h : ¬ Continues ts) (inner : Inner) (n : ℕ) :
    chain inner n ts = .ok (.done, ts) := by
  fun_cases chain inner n ts with
  | case1 n k t rest hk => exact absurd ⟨k, t, rest, rfl, hk.1, .inl hk.2⟩ h
  | case2 n k t rest _ hk => exact absurd ⟨k, t, rest, rfl, hk.1, .inr hk.2⟩ h
  | case3 => rfl
  | case4 => rfl

theorem stmts_nil (k : ℕ) (frame : Frame) : stmts k frame [] = .error .endOfTokens := by
  cases k <;> rfl

/-- If `r` succeeds, then with a result and a rest that satisfy `Q`. -/
def Ensures (r : Read (α × List Token)) (Q : α → List Token → Prop) : Prop :=
  ∀ a rest, r = .ok (a, rest) → Q a rest

section Ensures

variable {β : Type} {r : Read (α × List Token)} {Q : α → List Token → Prop}

theorem Ensures.error (e : ParseError) : Ensures (.error e) Q := by
  intro a rest h
  cases h

theorem Ensures.ok {a : α} {rest : List Token} (h : Q a rest) : Ensures (.ok (a, rest)) Q := by
  intro a' rest' h'
  cases h'
  exact h

theorem Ensures.bind {f : α × List Token → Read (β × List Token)} {R : β → List Token → Prop}
    (hr : Ensures r Q) (hf : ∀ a rest, Q a rest → Ensures (f (a, rest)) R) :
    Ensures (r >>= f) R := by
  intro b rest h
  cases r with
  | error e => cases h
  | ok x => exact hf x.1 x.2 (hr x.1 x.2 rfl) b rest h

theorem Ensures.bind_congr {f g : α × List Token → Read β} (hr : Ensures r Q)
    (h : ∀ a rest, Q a rest → f (a, rest) = g (a, rest)) : r >>= f = r >>= g := by
  cases r with
  | error e => rfl
  | ok x => exact h x.1 x.2 (hr x.1 x.2 rfl)

theorem exists_of_bind_eq_ok {g : α × List Token → Read β} {b : β} (h : r >>= g = .ok b) :
    ∃ a mid, r = .ok (a, mid) ∧ g (a, mid) = .ok b := by
  cases r with
  | error e => cases h
  | ok x => exact ⟨x.1, x.2, rfl, h⟩

end Ensures

theorem program_ok {ts : List Token} {p : Program} (h : program ts = .ok p) :
    ∃ start rest last more, ts = start :: rest ∧ start.kind = .keyword .sugod ∧
      stmts rest.length .program rest = .ok (p, last :: more) ∧ last.kind = .eof := by
  revert h
  fun_cases program ts with
  | case1 | case3 => rintro ⟨⟩
  | case2 start rest hstart =>
    intro h
    cases hread : stmts rest.length .program rest with
    | error e =>
      rw [hread] at h
      cases h
    | ok x =>
      obtain ⟨body, after⟩ := x
      rw [hread] at h
      cases after with
      | nil => cases h
      | cons last more =>
        change (if last.kind = .eof then .ok body else .error (ParseError.ofUnexpected last)) =
          Except.ok p at h
        split at h
        · rename_i hlast
          cases h
          exact ⟨start, rest, last, more, rfl, hstart, hread, hlast⟩
        · cases h

theorem program_eq {start last : Token} {rest more : List Token} {p : Program}
    (hstart : start.kind = .keyword .sugod)
    (hread : stmts rest.length .program rest = .ok (p, last :: more)) (hlast : last.kind = .eof) :
    program (start :: rest) = .ok p := by
  rw [program, if_pos hstart, hread]
  exact if_pos hlast

/-- `rest` is what remains of `ts` when some of its first tokens are taken. -/
structure Leaves (rest ts : List Token) : Prop where
  suffix : rest <:+ ts
  shorter : rest.length < ts.length

/-- The kinds of tokens that no statement holds. -/
def foreignKinds : List Kind :=
  [.eof, .illegal, .mark .lbracket, .mark .rbracket, .keyword .sugod, .keyword .katapusan]

/-- The kinds of tokens that begin a statement, or that none holds. -/
def edgeKinds : List Kind :=
  [.ident, .keyword .mugna, .keyword .ipakita, .keyword .dawat, .keyword .kung, .keyword .alang] ++
    foreignKinds

end Bisaya.Parse
