import Mathlib
import Bisaya.Expr.Eval

namespace Bisaya

abbrev Context := String → Option DataType

def DataType.IsNumber (ty : DataType) : Prop := ty = numero ∨ ty = tipik

/-- Operands that can be compared: numbers, texts, and truth values for equality. -/
inductive Rel.Compares (op : Rel) : DataType → DataType → Prop where
  | numbers {l r : DataType} (hl : l.IsNumber) (hr : r.IsNumber) : Compares op l r
  | texts : Compares op .letra .letra
  | truths (h : op = .eq ∨ op = .ne) : Compares op .tinuod .tinuod

inductive HasType (Γ : Context) : Expr → DataType → Prop where
  | lit {v : Value} {ty : DataType} (h : v.type? = some ty) : HasType Γ (.lit v) ty
  | var {name : String} {ty : DataType} (h : Γ name = some ty) : HasType Γ (.var name) ty
  | sign {op : UnOp} {e : Expr} {ty : DataType} (hop : op ≠ .dili) (hty : ty.IsNumber)
      (he : HasType Γ e ty) : HasType Γ (.unary op e) ty
  | dili {e : Expr} (he : HasType Γ e .tinuod) : HasType Γ (.unary .dili e) .tinuod
  | numero {op : Arith} {l r : Expr} (hl : HasType Γ l .numero) (hr : HasType Γ r .numero) :
      HasType Γ (.binary (.arith op) l r) .numero
  | tipik {op : Arith} {l r : Expr} {tl tr : DataType} (hl : HasType Γ l tl) (hr : HasType Γ r tr)
      (htl : tl.IsNumber) (htr : tr.IsNumber) (h : tl = .tipik ∨ tr = .tipik) :
      HasType Γ (.binary (.arith op) l r) .tipik
  | join {l r : Expr} {tl tr : DataType} (hl : HasType Γ l tl) (hr : HasType Γ r tr)
      (h : tl = .letra ∨ tr = .letra) : HasType Γ (.binary (.arith .add) l r) .letra
  | compare {op : Rel} {l r : Expr} {tl tr : DataType} (hl : HasType Γ l tl) (hr : HasType Γ r tr)
      (h : op.Compares tl tr) : HasType Γ (.binary (.rel op) l r) .tinuod
  | logic {op : Logic} {l r : Expr} (hl : HasType Γ l .tinuod) (hr : HasType Γ r .tinuod) :
      HasType Γ (.binary (.logic op) l r) .tinuod

/-- The environment has the variables of the context and no others, and their values fit. -/
def Env.Models (env : Env) (Γ : Context) : Prop :=
  ∀ name, match Γ name with
    | none => env.get? name = none
    | some ty => ∃ v, env.get? name = some ⟨ty, v⟩ ∧ v.Fits ty

theorem Env.Models.var {env : Env} {Γ : Context} (h : env.Models Γ) {name : String} {ty : DataType}
    (hname : Γ name = some ty) : ∃ v, env.get? name = some ⟨ty, v⟩ ∧ v.Fits ty := by
  have hmodels := h name
  rwa [hname] at hmodels

theorem Env.Models.fresh {env : Env} {Γ : Context} (h : env.Models Γ) {name : String}
    (hname : Γ name = none) : env.get? name = none := by
  have hmodels := h name
  rwa [hname] at hmodels

/-- Errors that the values cause: an operand that is not set, or a result that does not exist. -/
def RuntimeError.OfValues : RuntimeError → Prop
  | unset _ | divisionByZero | overflow _ => True
  | _ => False

theorem Env.lookup_of_get? {env : Env} {name : String} {x : Variable}
    (h : env.get? name = some x) : env.lookup name = .ok x := by rw [lookup, h]

/-- The result is as stated, or the values do not allow one. -/
def Results {α : Type} (P : α → Prop) : Except RuntimeError α → Prop
  | .ok a => P a
  | .error e => e.OfValues

theorem Results.bind {α β : Type} {P : α → Prop} {Q : β → Prop} {r : Except RuntimeError α}
    {f : α → Except RuntimeError β} (hr : Results P r) (hf : ∀ a, P a → Results Q (f a)) :
    Results Q (r >>= f) := by
  cases r with
  | ok a => exact hf a hr
  | error e => exact hr

theorem Results.imp {α : Type} {P Q : α → Prop} {r : Except RuntimeError α} (hr : Results P r)
    (h : ∀ a, P a → Q a) : Results Q r := by
  cases r with
  | ok a => exact h a hr
  | error e => exact hr

namespace Value

def Of (ty : DataType) (v : Value) : Prop := v.type? = some ty

theorem Fits.null_or_of {v : Value} {ty : DataType} (h : v.Fits ty) : v = null ∨ v.Of ty := by
  rcases h with h | h
  · cases v with
    | null => exact Or.inl rfl
    | _ => cases h
  · exact Or.inr h

theorem Of.fits {v : Value} {ty : DataType} (h : v.Of ty) : v.Fits ty := Or.inr h

theorem Of.numero {v : Value} (h : v.Of .numero) : ∃ n, v = numero n := by
  cases v with
  | numero n => exact ⟨n, rfl⟩
  | _ => cases h

theorem Of.tipik {v : Value} (h : v.Of .tipik) : ∃ x, v = tipik x := by
  cases v with
  | tipik x => exact ⟨x, rfl⟩
  | _ => cases h

theorem Of.letra {v : Value} (h : v.Of .letra) : ∃ s, v = letra s := by
  cases v with
  | letra s => exact ⟨s, rfl⟩
  | _ => cases h

theorem Of.tinuod {v : Value} (h : v.Of .tinuod) : ∃ b, v = tinuod b := by
  cases v with
  | tinuod b => exact ⟨b, rfl⟩
  | _ => cases h

end Value

namespace Arith

variable (op : Arith) {v w : Value} {l r : DataType}

theorem onNumero_results (a b : Numero) : Results (Value.Of .numero) (op.onNumero a b) := by
  unfold onNumero
  split
  · trivial
  · split
    · rfl
    · trivial

theorem onTipik_results (x y : Tipik) : Results (Value.Of .tipik) (op.onTipik x y) := by
  unfold onTipik
  split
  · trivial
  · rfl

/-- An operand that is not set is reported, so that only values of the types matter. -/
theorem apply_of_set {P : Value → Prop} (hv : v.Fits l) (hw : w.Fits r)
    (h : v.Of l → w.Of r → Results P (op.apply v w)) : Results P (op.apply v w) := by
  rcases hv.null_or_of with rfl | hv
  · trivial
  rcases hw.null_or_of with rfl | hw
  · cases v <;> trivial
  exact h hv hw

theorem apply_numero (hv : v.Fits .numero) (hw : w.Fits .numero) :
    Results (Value.Of .numero) (op.apply v w) := by
  refine op.apply_of_set hv hw fun hv hw => ?_
  obtain ⟨a, rfl⟩ := hv.numero
  obtain ⟨b, rfl⟩ := hw.numero
  exact op.onNumero_results a b

theorem apply_tipik (hl : l.IsNumber) (hr : r.IsNumber) (h : l = .tipik ∨ r = .tipik)
    (hv : v.Fits l) (hw : w.Fits r) : Results (Value.Of .tipik) (op.apply v w) := by
  refine op.apply_of_set hv hw fun hv hw => ?_
  rcases hl with rfl | rfl <;> rcases hr with rfl | rfl
  · simp at h
  · obtain ⟨a, rfl⟩ := hv.numero
    obtain ⟨y, rfl⟩ := hw.tipik
    exact op.onTipik_results _ y
  · obtain ⟨x, rfl⟩ := hv.tipik
    obtain ⟨b, rfl⟩ := hw.numero
    exact op.onTipik_results x _
  · obtain ⟨x, rfl⟩ := hv.tipik
    obtain ⟨y, rfl⟩ := hw.tipik
    exact op.onTipik_results x y

theorem apply_letra (h : l = .letra ∨ r = .letra) (hv : v.Fits l) (hw : w.Fits r) :
    Results (Value.Of .letra) (add.apply v w) := by
  refine add.apply_of_set hv hw fun hv hw => ?_
  rcases h with rfl | rfl
  · obtain ⟨s, rfl⟩ := hv.letra
    cases w with
    | null => trivial
    | _ => rfl
  · obtain ⟨s, rfl⟩ := hw.letra
    cases v with
    | null => trivial
    | _ => rfl

end Arith

theorem Rel.apply_tinuod (op : Rel) {v w : Value} {l r : DataType} (h : op.Compares l r)
    (hv : v.Fits l) (hw : w.Fits r) : Results (Value.Of .tinuod) (op.apply v w) := by
  rcases hv.null_or_of with rfl | hv
  · trivial
  rcases hw.null_or_of with rfl | hw
  · cases v <;> trivial
  cases h with
  | numbers hl hr =>
    rcases hl with rfl | rfl <;> rcases hr with rfl | rfl
    · obtain ⟨a, rfl⟩ := hv.numero
      obtain ⟨b, rfl⟩ := hw.numero
      rfl
    · obtain ⟨a, rfl⟩ := hv.numero
      obtain ⟨y, rfl⟩ := hw.tipik
      rfl
    · obtain ⟨x, rfl⟩ := hv.tipik
      obtain ⟨b, rfl⟩ := hw.numero
      rfl
    · obtain ⟨x, rfl⟩ := hv.tipik
      obtain ⟨y, rfl⟩ := hw.tipik
      rfl
  | texts =>
    obtain ⟨s, rfl⟩ := hv.letra
    obtain ⟨t, rfl⟩ := hw.letra
    rfl
  | truths hop =>
    obtain ⟨a, rfl⟩ := hv.tinuod
    obtain ⟨b, rfl⟩ := hw.tinuod
    rcases hop with rfl | rfl <;> rfl

theorem Logic.truth_results (op : Logic) {v : Value} (hv : v.Fits .tinuod) :
    Results (fun _ => True) (op.truth v) := by
  rcases hv.null_or_of with rfl | hv
  · trivial
  · obtain ⟨b, rfl⟩ := hv.tinuod
    trivial

theorem UnOp.apply_number {op : UnOp} (hop : op ≠ .dili) {v : Value} {ty : DataType}
    (hty : ty.IsNumber) (hv : v.Fits ty) : Results (Value.Of ty) (op.apply v) := by
  rcases hv.null_or_of with rfl | hv
  · trivial
  rcases hty with rfl | rfl
  · obtain ⟨n, rfl⟩ := hv.numero
    cases op with
    | dili => exact absurd rfl hop
    | plus => rfl
    | minus =>
      simp only [apply, Value.type?]
      cases Numero.ofInt? (-n.toInt) with
      | some m => rfl
      | none => trivial
  · obtain ⟨x, rfl⟩ := hv.tipik
    cases op with
    | dili => exact absurd rfl hop
    | plus => rfl
    | minus => rfl

theorem UnOp.apply_dili {v : Value} (hv : v.Fits .tinuod) :
    Results (Value.Of .tinuod) (dili.apply v) := by
  rcases hv.null_or_of with rfl | hv
  · trivial
  · obtain ⟨b, rfl⟩ := hv.tinuod
    rfl

/-- What an expression of type `ty` may evaluate to. -/
inductive Expr.Gives (env : Env) (ty : DataType) (e : Expr) : Value → Prop where
  | set {v : Value} (h : v.Of ty) : Gives env ty e v
  | unset {name : String} (he : e = .var name) (h : env.get? name = some ⟨ty, .null⟩) :
      Gives env ty e .null

theorem Expr.Gives.fits {env : Env} {ty : DataType} {e : Expr} {v : Value}
    (h : e.Gives env ty v) : v.Fits ty := by
  cases h with
  | set h => exact h.fits
  | unset _ _ => exact Or.inl rfl

/-- An expression that has a type evaluates to a value of it, if the values allow that. -/
theorem HasType.eval {Γ : Context} {env : Env} (henv : env.Models Γ) {e : Expr} {ty : DataType}
    (h : HasType Γ e ty) : Results (e.Gives env ty) (e.eval env) := by
  induction h with
  | lit h => exact .set h
  | @var name ty h =>
    obtain ⟨v, hget, hv⟩ := henv.var h
    rw [Expr.eval, Env.lookup_of_get? hget]
    rcases hv.null_or_of with rfl | hv
    · exact .unset rfl hget
    · exact .set hv
  | sign hop hty _ ih =>
    exact ih.bind fun v hv => (UnOp.apply_number hop hty hv.fits).imp fun _ => .set
  | dili _ ih => exact ih.bind fun v hv => (UnOp.apply_dili hv.fits).imp fun _ => .set
  | numero _ _ ihl ihr =>
    exact ihl.bind fun v hv => ihr.bind fun w hw =>
      (Arith.apply_numero _ hv.fits hw.fits).imp fun _ => .set
  | tipik _ _ htl htr h ihl ihr =>
    exact ihl.bind fun v hv => ihr.bind fun w hw =>
      (Arith.apply_tipik _ htl htr h hv.fits hw.fits).imp fun _ => .set
  | join _ _ h ihl ihr =>
    exact ihl.bind fun v hv => ihr.bind fun w hw =>
      (Arith.apply_letra h hv.fits hw.fits).imp fun _ => .set
  | compare _ _ h ihl ihr =>
    exact ihl.bind fun v hv => ihr.bind fun w hw =>
      (Rel.apply_tinuod _ h hv.fits hw.fits).imp fun _ => .set
  | @logic op l r _ _ ihl ihr =>
    rw [Expr.eval]
    refine ihl.bind fun v hv => (op.truth_results hv.fits).bind fun a _ => ?_
    split
    · -- the left operand decides
      exact .set rfl
    · exact ihr.bind fun w hw => (op.truth_results hw.fits).bind fun b _ => .set rfl

/-- A condition is true or false, or the values do not allow it to be; or it is a lone variable
that is not set. -/
theorem HasType.test {Γ : Context} {env : Env} (henv : env.Models Γ) {e : Expr}
    (h : HasType Γ e .tinuod) : Results (fun _ => True) (e.test env) ∨
      e.test env = .error (.notBoolean none) ∧
        ∃ name, e = .var name ∧ env.get? name = some ⟨.tinuod, .null⟩ := by
  have heval := h.eval henv
  rw [Expr.test]
  cases hr : e.eval env with
  | error err =>
    rw [hr] at heval
    exact Or.inl heval
  | ok v =>
    rw [hr] at heval
    cases heval with
    | set hv =>
      obtain ⟨b, rfl⟩ := hv.tinuod
      exact Or.inl trivial
    | unset he hget => exact Or.inr ⟨rfl, _, he, hget⟩

end Bisaya
