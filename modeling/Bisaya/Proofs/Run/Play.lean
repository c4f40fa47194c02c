import Mathlib
import Bisaya.Run.Script

namespace Bisaya

/-- Goes on, if the run succeeded, with what it left. -/
def Ending.followedBy (e : Ending) (next : Machine → List String → Ending) : Ending :=
  match e.outcome with
  | .done =>
    let e' := next e.machine e.remaining
    { e' with asked := e.asked ++ e'.asked }
  | _ => e

theorem Ending.followedBy_of_done (e : Ending) (h : e.outcome = .done)
    (next : Machine → List String → Ending) :
    e.followedBy next = { next e.machine e.remaining with
      asked := e.asked ++ (next e.machine e.remaining).asked } := by
  rw [followedBy, h]

namespace Run

theorem play_andThen (r : Run) (next : Machine → Run) (answers : List String) :
    (r.andThen next).play answers =
      (r.play answers).followedBy fun m rest => (next m).play rest := by
  induction r generalizing answers with
  | done m => rfl
  | failed e m => rfl
  | unfinished m => rfl
  | asks name m resume ih =>
    cases answers with
    | nil => rfl
    | cons a answers =>
      simp only [andThen, play, ih]
      generalize (resume a).play answers = e
      obtain ⟨outcome, m', asked, rest⟩ := e
      cases outcome <;> rfl

/-- The second run is the first, except that it may go on where the first comes to its bound. -/
inductive ExtendsTo : Run → Run → Prop where
  | done (m : Machine) : ExtendsTo (done m) (done m)
  | failed (e : RuntimeError) (m : Machine) : ExtendsTo (failed e m) (failed e m)
  | unfinished (m : Machine) (r : Run) : ExtendsTo (unfinished m) r
  | asks (name : String) (m : Machine) {resume resume' : String → Run}
      (h : ∀ raw, ExtendsTo (resume raw) (resume' raw)) :
      ExtendsTo (asks name m resume) (asks name m resume')

theorem ExtendsTo.refl (r : Run) : ExtendsTo r r := by
  induction r with
  | done m => exact .done m
  | failed e m => exact .failed e m
  | unfinished m => exact .unfinished m _
  | asks name m _ ih => exact .asks name m ih

theorem ExtendsTo.andThen {r r' : Run} {next next' : Machine → Run} (h : ExtendsTo r r')
    (hnext : ∀ m, ExtendsTo (next m) (next' m)) :
    ExtendsTo (r.andThen next) (r'.andThen next') := by
  induction h with
  | done m => exact hnext m
  | failed e m => exact .failed e m
  | unfinished m r => exact .unfinished m _
  | asks name m _ ih => exact .asks name m ih

/-- A run that ends does not come to its bound. -/
theorem ExtendsTo.play_eq {r r' : Run} (h : ExtendsTo r r') (answers : List String)
    (hends : (r.play answers).outcome ≠ .unfinished) : r'.play answers = r.play answers := by
  induction h generalizing answers with
  | done m => rfl
  | failed e m => rfl
  | unfinished m r => exact absurd rfl hends
  | asks name m _ ih =>
    cases answers with
    | nil => rfl
    | cons a answers => simp only [play, ih a answers hends]

theorem ExtendsTo.branch (test : Expr) {yes yes' no no' : Machine → Run}
    (hyes : ∀ m, ExtendsTo (yes m) (yes' m)) (hno : ∀ m, ExtendsTo (no m) (no' m)) (m : Machine) :
    ExtendsTo (branch test yes no m) (branch test yes' no' m) := by
  unfold Run.branch
  cases test.test m.env with
  | error e => exact .failed e m
  | ok b =>
    cases b with
    | true => exact hyes m
    | false => exact hno m

theorem ExtendsTo.rounds (test : Expr) {body body' : Machine → Run} (change : Machine → Run)
    (hbody : ∀ m, ExtendsTo (body m) (body' m)) {n n' : Nat} (hn : n ≤ n') (m : Machine) :
    ExtendsTo (rounds test body change n m) (rounds test body' change n' m) := by
  induction n generalizing n' m with
  | zero => exact .unfinished m _
  | succ n ih =>
    obtain ⟨n', rfl⟩ := Nat.exists_eq_add_one.2 (Nat.zero_lt_of_lt hn)
    refine .branch test (fun m => (hbody m).andThen fun m => ?_) (fun m => .refl _) m
    exact (ExtendsTo.refl (change m)).andThen (ih (Nat.le_of_succ_le_succ hn))

end Run

mutual

theorem Stmt.exec_extends {n n' : Nat} (hn : n ≤ n') (s : Stmt) (m : Machine) :
    (s.exec n m).ExtendsTo (s.exec n' m) := by
  cases s with
  | declare ty items => exact .refl _
  | assign a => exact .refl _
  | step s => exact .refl _
  | print segments => exact .refl _
  | read names => exact .refl _
  | choose test body rest =>
    exact .branch test (execAll_extends hn body) (Chain.exec_extends hn rest) m
  | loop init test update body =>
    exact (Run.ExtendsTo.refl (Run.assign init m)).andThen
      (.rounds test (Run.update update) (execAll_extends hn body) hn)

theorem Chain.exec_extends {n n' : Nat} (hn : n ≤ n') (c : Chain) (m : Machine) :
    (c.exec n m).ExtendsTo (c.exec n' m) := by
  cases c with
  | done => exact .refl _
  | wala body => exact execAll_extends hn body m
  | dili test body rest =>
    exact .branch test (execAll_extends hn body) (Chain.exec_extends hn rest) m

theorem execAll_extends {n n' : Nat} (hn : n ≤ n') (ss : List Stmt) (m : Machine) :
    (execAll n ss m).ExtendsTo (execAll n' ss m) := by
  cases ss with
  | nil => exact .refl _
  | cons s ss => exact (Stmt.exec_extends hn s m).andThen (execAll_extends hn ss)

end

/-- More rounds change nothing in an interpretation that ends. -/
theorem interpret_mono {n k : Nat} (hn : n ≤ k) {source : String} {answers : List String}
    {ending : Ending} (h : interpret n source answers = .ok ending)
    (hends : ending.outcome ≠ .unfinished) : interpret k source answers = .ok ending := by
  unfold interpret at h ⊢
  cases hparse : parse source with
  | error e =>
    rw [hparse] at h
    cases h
  | ok program =>
    rw [hparse] at h
    cases h
    exact congrArg Except.ok ((execAll_extends hn program .start).play_eq answers hends)

end Bisaya
