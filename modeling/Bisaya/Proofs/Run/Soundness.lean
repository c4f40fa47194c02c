import Bisaya.Proofs.Expr.Typing
import Bisaya.Proofs.Run.Journal

namespace Bisaya

namespace Context

def declare (Γ : Context) (name : String) (ty : DataType) : Context :=
  fun a => if name = a then some ty else Γ a

def declareAll (Γ : Context) (ty : DataType) (items : List Item) : Context :=
  items.foldl (fun Γ i => Γ.declare i.name ty) Γ

end Context

/-- The names are fresh, also among each other, and the initial values have the type. -/
def Declarable (ty : DataType) : Context → List Item → Prop
  | _, [] => True
  | Γ, i :: items => Γ i.name = none ∧ (∀ v, i.initial = some v → v.Of ty) ∧
      Declarable ty (Γ.declare i.name ty) items

def Assignment.WellTyped (Γ : Context) (a : Assignment) : Prop :=
  ∃ ty, HasType Γ a.value ty ∧ ∀ name ∈ a.targets, Γ name = some ty

def Step.WellTyped (Γ : Context) (s : Step) : Prop := ∃ ty, Γ s.name = some ty ∧ ty.IsNumber

def Update.WellTyped (Γ : Context) : Update → Prop
  | assign a => a.WellTyped Γ
  | step s => s.WellTyped Γ

def Segment.WellTyped (Γ : Context) : Segment → Prop
  | expr e => ∃ ty, HasType Γ e ty
  | _ => True

mutual

/-- A statement inside a program; a declaration has its place among the outermost ones only. -/
def Stmt.WellTyped (Γ : Context) : Stmt → Prop
  | .declare .. => False
  | .assign a => a.WellTyped Γ
  | .step s => s.WellTyped Γ
  | .print segments => ∀ s ∈ segments, s.WellTyped Γ
  | .read names => ∀ name ∈ names, ∃ ty, Γ name = some ty
  | .choose test body rest => HasType Γ test .tinuod ∧ bodyWellTyped Γ body ∧ rest.WellTyped Γ
  | .loop init test update body => init.WellTyped Γ ∧ HasType Γ test .tinuod ∧
      update.WellTyped Γ ∧ bodyWellTyped Γ body

def Chain.WellTyped (Γ : Context) : Chain → Prop
  | .done => True
  | .wala body => bodyWellTyped Γ body
  | .dili test body rest => HasType Γ test .tinuod ∧ bodyWellTyped Γ body ∧ rest.WellTyped Γ

def bodyWellTyped (Γ : Context) : List Stmt → Prop
  | [] => True
  | s :: rest => s.WellTyped Γ ∧ bodyWellTyped Γ rest

end

/-- The outermost statements, where each declaration adds to what those after it may use. -/
def WellTypedFrom (Γ : Context) : List Stmt → Prop
  | [] => True
  | .declare ty items :: rest => Declarable ty Γ items ∧ WellTypedFrom (Γ.declareAll ty items) rest
  | s :: rest => s.WellTyped Γ ∧ WellTypedFrom Γ rest

def Program.WellTyped (p : Program) : Prop := WellTypedFrom (fun _ => none) p

namespace Env

theorem put_of_fits (env : Env) (name : String) {x : Variable} (h : x.value.Fits x.ty) :
    env.put name x = .ok ⟨env.vars.insert name x⟩ := by
  unfold put
  split
  · rfl
  · rename_i got hgot
    rcases h with h | h
    · rw [hgot] at h
      cases h
    · rw [if_pos (Option.some.inj (hgot.symm.trans h))]

theorem assign_of_get? {env : Env} {name : String} {x : Variable} (h : env.get? name = some x)
    (v : Value) : env.assign name v = env.put name ⟨x.ty, v⟩ := by
  rw [assign, lookup_of_get? h]
  rfl

theorem Models.put {env env' : Env} {Γ : Context} (henv : env.Models Γ) {name : String}
    {ty : DataType} {v : Value} (hv : v.Fits ty) (hput : env.put name ⟨ty, v⟩ = .ok env') :
    env'.Models (Γ.declare name ty) := by
  intro a
  rw [Context.declare, get?_of_put hput]
  by_cases ha : name = a
  · rw [if_pos ha, if_pos ha]
    exact ⟨v, rfl, hv⟩
  · rw [if_neg ha, if_neg ha]
    exact henv a

theorem Models.declare {env : Env} {Γ : Context} (henv : env.Models Γ) {name : String}
    (hname : Γ name = none) {ty : DataType} {initial : Option Value}
    (hinitial : ∀ v, initial = some v → v.Of ty) :
    ∃ env', env.declare name ty initial = .ok env' ∧ env'.Models (Γ.declare name ty) := by
  have hfits : (initial.getD .null).Fits ty := by
    cases initial with
    | none => exact Or.inl rfl
    | some v => exact (hinitial v rfl).fits
  have hput := env.put_of_fits name (x := ⟨ty, initial.getD .null⟩) hfits
  exact ⟨_, by rw [Env.declare, henv.fresh hname]; exact hput, henv.put hfits hput⟩

theorem Models.assign {env : Env} {Γ : Context} (henv : env.Models Γ) {name : String}
    {ty : DataType} (hname : Γ name = some ty) {v : Value} (hv : v.Fits ty) :
    ∃ env', env.assign name v = .ok env' ∧ env'.Models Γ := by
  obtain ⟨old, hget, -⟩ := henv.var hname
  have hput := env.put_of_fits name (x := ⟨ty, v⟩) hv
  -- the context gives the name this type already
  have hsame : Γ.declare name ty = Γ := by
    funext a
    rw [Context.declare]
    by_cases ha : name = a
    · rw [if_pos ha, ← ha, hname]
    · rw [if_neg ha]
  refine ⟨_, (assign_of_get? hget v).trans hput, ?_⟩
  rw [← hsame]
  exact henv.put hv hput

end Env

theorem Entry.read?_of {ty : DataType} {raw : String} {v : Value}
    (h : Entry.read? ty raw = some v) : v.Of ty := by
  cases ty with
  | numero =>
    obtain ⟨n, -, rfl⟩ := Option.map_eq_some_iff.1 h
    rfl
  | tipik =>
    obtain ⟨x, -, rfl⟩ := Option.map_eq_some_iff.1 h
    rfl
  | letra =>
    obtain rfl := Option.some.inj h
    rfl
  | tinuod =>
    obtain ⟨b, -, rfl⟩ := Option.map_eq_some_iff.1 h
    rfl

/-- A number moved by one stays of its type. -/
theorem Run.stepped_results {Γ : Context} {env : Env} (henv : env.Models Γ) {s : Step}
    {ty : DataType} (hname : Γ s.name = some ty) (hty : ty.IsNumber) :
    Results (Value.Of ty) (Run.stepped env s) := by
  obtain ⟨v, hget, hv⟩ := henv.var hname
  have hone : (Value.numero 1).Fits .numero := Or.inr rfl
  rw [Run.stepped, Env.lookup_of_get? hget]
  rcases hv.null_or_of with rfl | hset
  · trivial
  rcases hty with rfl | rfl
  · obtain ⟨n, rfl⟩ := hset.numero
    exact Arith.apply_numero _ hv hone
  · obtain ⟨x, rfl⟩ := hset.tipik
    exact Arith.apply_tipik _ (Or.inr rfl) (Or.inl rfl) (Or.inl rfl) hv hone

theorem render_results {Γ : Context} {env : Env} (henv : env.Models Γ) {segments : List Segment}
    (h : ∀ s ∈ segments, s.WellTyped Γ) : Results (fun _ => True) (render env segments) := by
  have hsegment (s : Segment) (hs : s.WellTyped Γ) :
      Results (fun _ => True) (Segment.eval env s) := by
    cases s with
    | expr e =>
      obtain ⟨ty, he⟩ := hs
      exact (he.eval henv).bind fun _ _ => trivial
    | _ => trivial
  have hsegments : Results (fun _ => True) (segments.mapM (Segment.eval env)) := by
    induction segments with
    | nil => trivial
    | cons s segments ih =>
      rw [List.mapM_cons]
      refine (hsegment s (h s (List.mem_cons_self ..))).bind fun _ _ => ?_
      exact (ih fun t ht => h t (List.mem_cons_of_mem s ht)).bind fun _ _ => trivial
  exact hsegments.bind fun _ _ => trivial

/-- Errors of the values and of the answers. -/
def RuntimeError.OfRun : RuntimeError → Prop
  | unset _ | divisionByZero | overflow _ | invalidInput .. | noInput _ => True
  | _ => False

theorem RuntimeError.OfValues.ofRun {e : RuntimeError} (h : e.OfValues) : e.OfRun := by
  cases e <;> trivial

namespace Journal

/-- The run fails only with errors of the values or the answers, or at a condition that is a lone
variable and not set; where it ends without an error, `Q` holds. -/
inductive Safe (Q : Machine → Prop) : Journal → Prop where
  | done {m : Machine} (h : Q m) : Safe Q (done m)
  | failed {e : RuntimeError} (m : Machine) (h : e.OfRun) : Safe Q (failed e m)
  | unfinished (m : Machine) : Safe Q (unfinished m)
  | asks (name : String) (m : Machine) {resume : String → Journal}
      (h : ∀ raw, Safe Q (resume raw)) : Safe Q (asks name m resume)
  | note (event : Event) {next : Journal} (h : Safe Q next) : Safe Q (note event next)
  | unset {m : Machine} {name : String} (h : m.env.get? name = some ⟨.tinuod, .null⟩) :
      Safe Q (note ⟨m.env, .test (.var name)⟩ (failed (.notBoolean none) m))

theorem Safe.andThen {P Q : Machine → Prop} {j : Journal} {next : Machine → Journal}
    (hj : Safe P j) (hnext : ∀ m, P m → Safe Q (next m)) : Safe Q (j.andThen next) := by
  induction hj with
  | done h => exact hnext _ h
  | failed m h => exact .failed m h
  | unfinished m => exact .unfinished m
  | asks name m _ ih => exact .asks name m ih
  | note event _ ih => exact .note event ih
  | unset h => exact .unset h

abbrev Keeps (Γ : Context) (m : Machine) : Prop := m.env.Models Γ

variable {Γ : Context} {m : Machine}

theorem safe_declare {ty : DataType} {items : List Item} (h : Declarable ty Γ items)
    (hm : Keeps Γ m) : Safe (Keeps (Γ.declareAll ty items)) (declare ty items m) := by
  induction items generalizing Γ m with
  | nil => exact .done hm
  | cons i items ih =>
    obtain ⟨hfresh, hinitial, hitems⟩ := h
    obtain ⟨env, henv, hmodels⟩ := Env.Models.declare hm hfresh hinitial
    have hchange : change m (.declare i.name ty i.initial) =
        note ⟨m.env, .declare i.name ty i.initial⟩ (.done { m with env := env }) := by
      rw [change, Action.apply, henv]
    rw [declare, hchange]
    exact .note _ (ih hitems hmodels)

theorem safe_assignment {name : String} {ty : DataType} (hname : Γ name = some ty) {v : Value}
    (hv : v.Fits ty) (hm : Keeps Γ m) : Safe (Keeps Γ) (change m (.assign name v)) := by
  obtain ⟨env, henv, hmodels⟩ := Env.Models.assign hm hname hv
  rw [change, Action.apply, henv]
  exact .note _ (.done hmodels)

theorem safe_store {names : List String} {ty : DataType} (h : ∀ name ∈ names, Γ name = some ty)
    {v : Value} (hv : v.Fits ty) (hm : Keeps Γ m) : Safe (Keeps Γ) (store v names m) := by
  induction names generalizing m with
  | nil => exact .done hm
  | cons name names ih =>
    refine (safe_assignment (h name (List.mem_cons_self ..)) hv hm).andThen fun m hm => ?_
    exact ih (fun a ha => h a (List.mem_cons_of_mem name ha)) hm

theorem safe_assign {a : Assignment} (h : a.WellTyped Γ) (hm : Keeps Γ m) :
    Safe (Keeps Γ) (assign a m) := by
  obtain ⟨ty, hvalue, htargets⟩ := h
  have heval := hvalue.eval hm
  unfold assign
  cases hr : a.value.eval m.env with
  | ok v =>
    rw [hr] at heval
    exact safe_store (fun name hname => htargets name (List.mem_reverse.1 hname))
      (Expr.Gives.fits heval) hm
  | error e =>
    rw [hr] at heval
    exact .failed m (RuntimeError.OfValues.ofRun heval)

theorem safe_step {s : Step} (h : s.WellTyped Γ) (hm : Keeps Γ m) :
    Safe (Keeps Γ) (step s m) := by
  obtain ⟨ty, hname, hty⟩ := h
  have hstepped := Run.stepped_results hm hname hty
  unfold step
  cases hr : Run.stepped m.env s with
  | ok v =>
    rw [hr] at hstepped
    exact safe_assignment hname (Value.Of.fits hstepped) hm
  | error e =>
    rw [hr] at hstepped
    exact .failed m (RuntimeError.OfValues.ofRun hstepped)

theorem safe_update {u : Update} (h : u.WellTyped Γ) (hm : Keeps Γ m) :
    Safe (Keeps Γ) (update u m) := by
  cases u with
  | assign a => exact safe_assign h hm
  | step s => exact safe_step h hm

theorem safe_print {segments : List Segment} (h : ∀ s ∈ segments, s.WellTyped Γ)
    (hm : Keeps Γ m) : Safe (Keeps Γ) (print segments m) := by
  have hrender := render_results hm h
  unfold print
  cases hr : render m.env segments with
  | ok lines => exact .done hm
  | error e =>
    rw [hr] at hrender
    exact .failed m (RuntimeError.OfValues.ofRun hrender)

theorem safe_read {names : List String} (h : ∀ name ∈ names, ∃ ty, Γ name = some ty)
    (hm : Keeps Γ m) : Safe (Keeps Γ) (read names m) := by
  induction names generalizing m with
  | nil => exact .done hm
  | cons name names ih =>
    obtain ⟨ty, hname⟩ := h name (List.mem_cons_self ..)
    obtain ⟨old, hget, -⟩ := Env.Models.var hm hname
    rw [read, Env.lookup_of_get? hget]
    refine .asks name m fun raw => ?_
    cases hr : Entry.read? ty raw with
    | none => exact .failed m trivial
    | some v =>
      refine (safe_assignment hname (Entry.read?_of hr).fits hm).andThen fun m hm => ?_
      exact ih (fun a ha => h a (List.mem_cons_of_mem name ha)) hm

theorem safe_branch {Q : Machine → Prop} {test : Expr} (h : HasType Γ test .tinuod)
    {yes no : Machine → Journal} (hm : Keeps Γ m) (hyes : Safe Q (yes m)) (hno : Safe Q (no m)) :
    Safe Q (branch test yes no m) := by
  unfold branch
  rcases h.test hm with htest | ⟨htest, name, rfl, hget⟩
  · refine .note _ ?_
    cases hr : test.test m.env with
    | error e =>
      rw [hr] at htest
      exact .failed m (RuntimeError.OfValues.ofRun htest)
    | ok b =>
      cases b with
      | true => exact hyes
      | false => exact hno
  · rw [htest]
    exact .unset hget

theorem safe_rounds {test : Expr} (h : HasType Γ test .tinuod) {body change : Machine → Journal}
    (hbody : ∀ m, Keeps Γ m → Safe (Keeps Γ) (body m))
    (hchange : ∀ m, Keeps Γ m → Safe (Keeps Γ) (change m)) (n : Nat) (hm : Keeps Γ m) :
    Safe (Keeps Γ) (rounds test body change n m) := by
  induction n generalizing m with
  | zero => exact .unfinished m
  | succ n ih =>
    refine safe_branch h hm ?_ (.done hm)
    exact (hbody m hm).andThen fun m hm => (hchange m hm).andThen fun m hm => ih hm

end Journal

mutual

theorem Stmt.safe_journal {Γ : Context} (n : Nat) (s : Stmt) (h : s.WellTyped Γ) {m : Machine}
    (hm : Journal.Keeps Γ m) : (s.journal n m).Safe (Journal.Keeps Γ) := by
  cases s with
  | declare ty items => exact h.elim
  | assign a => exact Journal.safe_assign h hm
  | step s => exact Journal.safe_step h hm
  | print segments => exact Journal.safe_print h hm
  | read names => exact Journal.safe_read h hm
  | choose test body rest =>
    obtain ⟨htest, hbody, hrest⟩ := h
    exact Journal.safe_branch htest hm (safe_journalAll n body hbody hm)
      (Chain.safe_journal n rest hrest hm)
  | loop init test update body =>
    obtain ⟨hinit, htest, hupdate, hbody⟩ := h
    refine (Journal.safe_assign hinit hm).andThen fun m hm => ?_
    exact Journal.safe_rounds htest (fun m hm => safe_journalAll n body hbody hm)
      (fun m hm => Journal.safe_update hupdate hm) n hm

theorem Chain.safe_journal {Γ : Context} (n : Nat) (c : Chain) (h : c.WellTyped Γ) {m : Machine}
    (hm : Journal.Keeps Γ m) : (c.journal n m).Safe (Journal.Keeps Γ) := by
  cases c with
  | done => exact .done hm
  | wala body => exact safe_journalAll n body h hm
  | dili test body rest =>
    obtain ⟨htest, hbody, hrest⟩ := h
    exact Journal.safe_branch htest hm (safe_journalAll n body hbody hm)
      (Chain.safe_journal n rest hrest hm)

theorem safe_journalAll {Γ : Context} (n : Nat) (ss : List Stmt) (h : bodyWellTyped Γ ss)
    {m : Machine} (hm : Journal.Keeps Γ m) : (journalAll n ss m).Safe (Journal.Keeps Γ) := by
  cases ss with
  | nil => exact .done hm
  | cons s ss =>
    obtain ⟨hs, hss⟩ := h
    exact (Stmt.safe_journal n s hs hm).andThen fun m hm => safe_journalAll n ss hss hm

end

theorem safe_program {Γ : Context} (n : Nat) {p : List Stmt} (h : WellTypedFrom Γ p) {m : Machine}
    (hm : Journal.Keeps Γ m) : (journalAll n p m).Safe fun _ => True := by
  induction p generalizing Γ m with
  | nil => exact .done trivial
  | cons s p ih =>
    -- only a declaration changes the context for what follows
    have hstmt (hs : s.WellTyped Γ ∧ WellTypedFrom Γ p) :
        (journalAll n (s :: p) m).Safe fun _ => True :=
      (Stmt.safe_journal n s hs.1 hm).andThen fun m hm => ih hs.2 hm
    cases s with
    | declare ty items =>
      obtain ⟨hitems, hp⟩ := h
      exact (Journal.safe_declare hitems hm).andThen fun m hm => ih hp hm
    | _ => exact hstmt h

/-- How a safe run fails: at a condition that is not set, that condition is the last thing noted. -/
theorem Journal.Safe.failure {Q : Machine → Prop} {j : Journal} (h : j.Safe Q)
    (answers : List String) {e : RuntimeError}
    (hfailed : (j.run.play answers).outcome = .failed e) :
    e.OfRun ∨ e = .notBoolean none ∧ ∃ name,
      (j.events answers).getLast? =
        some ⟨(j.run.play answers).machine.env, .test (.var name)⟩ ∧
      (j.run.play answers).machine.env.get? name = some ⟨.tinuod, .null⟩ := by
  induction h generalizing answers with
  | done h => cases hfailed
  | failed m h =>
    obtain rfl := Outcome.failed.inj hfailed
    exact Or.inl h
  | unfinished m => cases hfailed
  | asks name m _ ih =>
    cases answers with
    | nil =>
      obtain rfl := Outcome.failed.inj hfailed
      exact Or.inl trivial
    | cons a answers => exact ih a answers hfailed
  | note event _ ih =>
    -- a note in front leaves the last one as it is, since there is one
    rcases ih answers hfailed with h | ⟨he, name, hlast, hget⟩
    · exact Or.inl h
    · refine Or.inr ⟨he, name, ?_, hget⟩
      rw [events, List.getLast?_cons, hlast]
      rfl
  | unset hget =>
    obtain rfl := Outcome.failed.inj hfailed
    exact Or.inr ⟨rfl, _, rfl, hget⟩

/-- A run of a well typed program fails only because a value is not set, does not exist or does not
fit in, or because an answer is missing or no value of its type; or at a condition that is a lone
variable and not set. -/
theorem failure_of_wellTyped {p : Program} (h : p.WellTyped) (n : Nat) (answers : List String)
    {e : RuntimeError} (hfailed : ((execAll n p .start).play answers).outcome = .failed e) :
    e.OfRun ∨ e = .notBoolean none ∧ ∃ name,
      ((journalAll n p .start).events answers).getLast? =
        some ⟨((execAll n p .start).play answers).machine.env, .test (.var name)⟩ ∧
      ((execAll n p .start).play answers).machine.env.get? name = some ⟨.tinuod, .null⟩ := by
  have hstart : Journal.Keeps (fun _ => none) .start := fun name => Env.get?_empty name
  have hsafe := safe_program n h hstart
  rw [← run_journalAll] at hfailed ⊢
  exact hsafe.failure answers hfailed

def countThenTest : Program :=
  [.declare .numero [⟨"k", some (.numero 1)⟩], .declare .tinuod [⟨"t", none⟩],
    .loop ⟨["k"], .lit (.numero 0)⟩
      (.binary (.rel .lt) (.var "k") (.lit (.numero 2))) (.step ⟨"k", .up⟩)
      [.print [.expr (.binary (.arith .add) (.var "k") (.lit (.letra ",")))]],
    .choose (.var "t") [.read ["k"]] .done]

theorem failure_of_countThenTest :
    countThenTest.WellTyped ∧
    ((execAll 3 countThenTest .start).play []).outcome = .failed (.notBoolean none) ∧
    ∃ name, ((journalAll 3 countThenTest .start).events []).getLast? =
        some ⟨((execAll 3 countThenTest .start).play []).machine.env, .test (.var name)⟩ ∧
      ((execAll 3 countThenTest .start).play []).machine.env.get? name =
        some ⟨.tinuod, .null⟩ := by
  have htyped : countThenTest.WellTyped := by
    let Γ : Context := (Context.declare (fun _ => none) "k" .numero).declare "t" .tinuod
    have hk : Γ "k" = some .numero := rfl
    have hloop : HasType Γ (.binary (.rel .lt) (.var "k") (.lit (.numero 2))) .tinuod :=
      .compare (.var hk) (.lit rfl) (.numbers (Or.inl rfl) (Or.inl rfl))
    have hline : HasType Γ (.binary (.arith .add) (.var "k") (.lit (.letra ","))) .letra :=
      .join (.var hk) (.lit rfl) (Or.inr rfl)
    refine ⟨⟨rfl, ?_, trivial⟩, ⟨rfl, ?_, trivial⟩, ⟨⟨.numero, .lit rfl, ?_⟩, hloop,
      ⟨.numero, hk, Or.inl rfl⟩, ?_, trivial⟩, ⟨.var rfl, ⟨?_, trivial⟩, trivial⟩, trivial⟩
    · rintro v ⟨⟩
      rfl
    · rintro v ⟨⟩
    · rintro name hname
      rw [List.mem_singleton.1 hname]
      exact hk
    · simpa [Stmt.WellTyped, Segment.WellTyped] using ⟨_, hline⟩
    · simpa [Stmt.WellTyped] using ⟨_, hk⟩
  have hfailed :
      ((execAll 3 countThenTest .start).play []).outcome = .failed (.notBoolean none) := by cbv
  rcases failure_of_wellTyped htyped 3 [] hfailed with h | ⟨-, h⟩
  · exact h.elim
  · exact ⟨htyped, hfailed, h⟩

end Bisaya
