import Bisaya.Proofs.Run.Frame
import Bisaya.Proofs.Run.Play
import Bisaya.Proofs.Run.Soundness

namespace Bisaya

def Machine.set (m : Machine) (name : String) (k : Numero) : Machine :=
  { m with env := ⟨m.env.vars.insert name ⟨.numero, .numero k⟩⟩ }

/-- Runs of a block in a row, one for each of the numbers, which is stored under the name before the
block runs. -/
def passes (n : ℕ) (body : List Stmt) (name : String) : List ℤ → Machine → Run
  | [], m => .done m
  | z :: zs, m => (execAll n body (m.set name (.ofInt z))).andThen (passes n body name zs)

def countTest (i : String) (last : Expr) : Expr := .binary (.rel .le) (.var i) last

/-- `ALANG SA (i = first, i <= last, i++)` -/
def countedLoop (i : String) (first last : Expr) (body : List Stmt) : Stmt :=
  .loop ⟨[i], first⟩ (countTest i last) (.step ⟨i, .up⟩) body

/-- The bound does not mention the counter, and the block writes neither the counter nor a name in
the bound. -/
structure Counts (i : String) (last : Expr) (body : List Stmt) : Prop where
  counter_not_mem : i ∉ last.names
  bound_kept : ∀ name ∈ (footprintAll body).targets, name ∉ last.names
  counter_kept : i ∉ (footprintAll body).targets

theorem Numero.toInt_ofInt {z : ℤ} (h : Numero.InRange z) : (Int64.ofInt z).toInt = z :=
  Int64.toInt_ofInt_of_le h.1 h.2

theorem range_eq_cons {a b : ℤ} (h : a < b) : Int.range a b = a :: Int.range (a + 1) b := by
  have hlength : (b - a).toNat = (b - (a + 1)).toNat + 1 := by omega
  unfold Int.range
  rw [hlength, List.range_succ_eq_map, List.map_cons, List.map_map]
  congr 1
  · simp
  · apply List.map_congr_left
    intro j _
    simp only [Function.comp_apply]
    omega

theorem range_eq_append {a b : ℤ} (h : a ≤ b) : Int.range a (b + 1) = Int.range a b ++ [b] := by
  have hlength : (b + 1 - a).toNat = (b - a).toNat + 1 := by omega
  unfold Int.range
  rw [hlength, List.range_succ, List.map_append, List.map_singleton]
  congr 2
  omega

section Machines

variable {m : Machine} {i : String} {k : Numero}

theorem Machine.get?_set (m : Machine) (i : String) (k : Numero) (name : String) :
    (m.set i k).env.get? name =
      if i = name then some ⟨.numero, .numero k⟩ else m.env.get? name := by
  simp [set, Env.get?, Std.TreeMap.getElem?_insert]

theorem Expr.eval_set {e : Expr} (h : i ∉ e.names) (k : Numero) :
    e.eval (m.set i k).env = e.eval m.env := by
  apply Expr.eval_congr
  intro name hname
  rw [Machine.get?_set, if_neg]
  rintro rfl
  exact h hname

theorem change_assign_numero {x : Value} (h : m.env.get? i = some ⟨.numero, x⟩) (k : Numero) :
    Run.change m (m.env.assign i (.numero k)) = .done (m.set i k) := by
  rw [Env.assign_of_get? h, Env.put_of_fits _ _ (Or.inr rfl)]
  rfl

theorem assign_counter {x : Value} (h : m.env.get? i = some ⟨.numero, x⟩) {first : Expr}
    (hfirst : first.eval m.env = .ok (.numero k)) :
    Run.assign ⟨[i], first⟩ m = .done (m.set i k) := by
  rw [Run.assign, hfirst]
  change (Run.change m (m.env.assign i (.numero k))).andThen (Run.store _ []) = _
  rw [change_assign_numero h]
  rfl

theorem test_count {b : Numero} {last : Expr} (h : m.env.get? i = some ⟨.numero, .numero k⟩)
    (hlast : last.eval m.env = .ok (.numero b)) :
    (countTest i last).test m.env = .ok (decide (k.toInt ≤ b.toInt)) := by
  rw [countTest, Expr.test, Expr.eval, Expr.eval, Env.lookup_of_get? h, hlast]
  change Except.ok (Rel.le.holds (some (compare k.toInt b.toInt))) = _
  rcases lt_trichotomy k.toInt b.toInt with hlt | heq | hgt
  · simp [Rel.holds, compare_lt_iff_lt.2 hlt, hlt.le]
  · simp [Rel.holds, heq]
  · simp [Rel.holds, compare_gt_iff_gt.2 hgt, hgt]

theorem step_counter (h : m.env.get? i = some ⟨.numero, .numero k⟩) :
    Run.step ⟨i, .up⟩ m =
      if Numero.InRange (k.toInt + 1) then .done (m.set i (.ofInt (k.toInt + 1)))
      else .failed (.overflow (.binary (.arith .add))) m := by
  have hstepped : Run.stepped m.env ⟨i, .up⟩ =
      if Numero.InRange (k.toInt + 1) then .ok (.numero (.ofInt (k.toInt + 1)))
      else .error (.overflow (.binary (.arith .add))) := by
    rw [Run.stepped, Env.lookup_of_get? h]
    rfl
  rw [Run.step, hstepped]
  split
  · exact change_assign_numero h _
  · rfl

end Machines

structure Machine.IsAt (m : Machine) (i : String) (k : Numero) (last : Expr) (b : Numero) :
    Prop where
  counter : m.env.get? i = some ⟨.numero, .numero k⟩
  bound : last.eval m.env = .ok (.numero b)

section Rounds

variable {n : ℕ} {i : String} {last : Expr} {body : List Stmt} {m m' : Machine} {k b : Numero}

theorem isAt_set (hcounts : Counts i last body) (hlast : last.eval m.env = .ok (.numero b))
    (k : Numero) : (m.set i k).IsAt i k last b := by
  constructor
  · rw [Machine.get?_set, if_pos rfl]
  · rw [Expr.eval_set hcounts.counter_not_mem, hlast]

/-- A block that the loop may have does not move the counter or the bound. -/
theorem Machine.IsAt.keep (hm : m.IsAt i k last b) (hcounts : Counts i last body)
    (hkept : ∀ name ∉ (footprintAll body).targets, m'.env.get? name = m.env.get? name) :
    m'.IsAt i k last b := by
  constructor
  · rw [hkept i hcounts.counter_kept, hm.counter]
  · have hagrees : m.env.Agrees last.names m'.env := by
      intro name hname
      apply hkept
      intro hwritten
      exact hcounts.bound_kept name hwritten hname
    rw [Expr.eval_congr hagrees, hm.bound]

theorem rounds_of_le {body change : Machine → Run} (hm : m.IsAt i k last b)
    (hle : k.toInt ≤ b.toInt) :
    Run.rounds (countTest i last) body change (n + 1) m =
      (body m).andThen fun m => (change m).andThen
        (Run.rounds (countTest i last) body change n) := by
  rw [Run.rounds, Run.branch, test_count hm.counter hm.bound, decide_eq_true hle]

theorem rounds_of_lt {body change : Machine → Run} (hm : m.IsAt i k last b)
    (hlt : b.toInt < k.toInt) :
    Run.rounds (countTest i last) body change (n + 1) m = .done m := by
  rw [Run.rounds, Run.branch, test_count hm.counter hm.bound, decide_eq_false (by omega)]

theorem execAll_keeps (n : ℕ) (body : List Stmt) (m : Machine) :
    Run.Coupled (Coupling.keeping (footprintAll body) m.env).Rel (execAll n body m)
      (execAll n body m) :=
  execAll_coupled _ n body (Footprint.le_refl _) ⟨rfl, fun _ _ => rfl⟩

/-- One round runs the block once. What comes after it finds the counter and the bound where they
were. -/
theorem round_eq (hcounts : Counts i last body) (hlast : last.eval m.env = .ok (.numero b)) {z : ℤ}
    (hz : Numero.InRange z) (hzb : z ≤ b.toInt) {bound : ℕ} {next : Machine → Run}
    (hnext : ∀ m', m'.IsAt i (.ofInt z) last b →
      (Run.step ⟨i, .up⟩ m').andThen
        (Run.rounds (countTest i last) (execAll n body) (Run.step ⟨i, .up⟩) bound) = next m') :
    Run.rounds (countTest i last) (execAll n body) (Run.step ⟨i, .up⟩) (bound + 1)
        (m.set i (.ofInt z)) =
      (execAll n body (m.set i (.ofInt z))).andThen next := by
  have hat := isAt_set hcounts hlast (.ofInt z)
  rw [rounds_of_le hat (by rwa [Numero.toInt_ofInt hz])]
  apply (execAll_keeps n body _).andThen_eq And.left
  intro m' hkept
  exact hnext m' (hat.keep hcounts hkept.2)

/-- The rounds of a counted loop are the passes over the numbers that are left and one step more. -/
theorem rounds_eq_passes (hcounts : Counts i last body)
    (hlast : last.eval m.env = .ok (.numero b)) {z : ℤ} (hz : Numero.InRange z)
    (hzb : z ≤ b.toInt) {bound : ℕ} (hbound : b.toInt + 1 - z < bound) :
    Run.rounds (countTest i last) (execAll n body) (Run.step ⟨i, .up⟩) bound
        (m.set i (.ofInt z)) =
      (passes n body i (Int.range z (b.toInt + 1)) m).andThen (Run.step ⟨i, .up⟩) := by
  rw [range_eq_cons (by omega), passes, Run.andThen_assoc]
  induction hleft : (b.toInt - z).toNat generalizing z m bound with
  | zero =>
    obtain ⟨bound, rfl⟩ : ∃ k, bound = k + 2 := ⟨bound - 2, by omega⟩
    apply round_eq hcounts hlast hz hzb
    intro m' hat
    obtain rfl : z = b.toInt := by omega
    have hnone : Int.range (b.toInt + 1) (b.toInt + 1) = [] := by simp [Int.range]
    rw [hnone, passes, Run.andThen, step_counter hat.counter, Numero.toInt_ofInt hz]
    split
    · rename_i hnext
      -- the counter has left the bound behind
      refine rounds_of_lt (isAt_set hcounts hat.bound _) ?_
      rw [Numero.toInt_ofInt hnext]
      omega
    · rfl
  | succ c ih =>
    obtain ⟨bound, rfl⟩ : ∃ k, bound = k + 1 := ⟨bound - 1, by omega⟩
    apply round_eq hcounts hlast hz hzb
    intro m' hat
    have hnext : Numero.InRange (z + 1) := by
      have hb := b.inRange_toInt
      unfold Numero.InRange at hz hb ⊢
      omega
    rw [step_counter hat.counter, Numero.toInt_ofInt hz, if_pos hnext, range_eq_cons (by omega),
      passes, Run.andThen_assoc]
    exact ih hat.bound hnext (by omega) (by omega) (by omega)

theorem passes_append (n : ℕ) (body : List Stmt) (i : String) (zs zs' : List ℤ) (m : Machine) :
    passes n body i (zs ++ zs') m = (passes n body i zs m).andThen (passes n body i zs') := by
  induction zs generalizing m with
  | nil => rfl
  | cons z zs ih =>
    rw [List.cons_append, passes, passes, Run.andThen_assoc]
    congr 1
    funext m
    exact ih m

/-- After the passes the counter holds the last number. -/
theorem get?_passes (hkept : i ∉ (footprintAll body).targets) {zs : List ℤ} {z : ℤ}
    {answers : List String}
    (hdone : ((passes n body i (zs ++ [z]) m).play answers).outcome = .done) :
    ((passes n body i (zs ++ [z]) m).play answers).machine.env.get? i =
      some ⟨.numero, .numero (.ofInt z)⟩ := by
  rw [passes_append, Run.play_andThen, Ending.followedBy] at hdone ⊢
  cases hfirst : ((passes n body i zs m).play answers).outcome with
  | done =>
    rw [hfirst] at hdone
    simp only [passes, Run.andThen_done]
    generalize (passes n body i zs m).play answers = first
    obtain ⟨-, -, -, -, hget⟩ :=
      (execAll_keeps n body (first.machine.set i (.ofInt z))).play first.remaining
    rw [hget i hkept, Machine.get?_set, if_pos rfl]
  | failed e | unfinished =>
    rw [hfirst] at hdone
    exact Outcome.noConfusion (hfirst.symm.trans hdone)

end Rounds

/-- A counted loop from `a` to `b`, with a block that succeeds each time it runs. If `a` is greater
than `b` the block does not run. Else it runs once for each number from `a` to `b` in order, after
which the counter holds `b + 1`; but if `b` is the greatest number, the loop overflows after the
last run with the counter still at `b`. All else is as those runs leave it. -/
theorem Stmt.exec_countedLoop {i : String} {first last : Expr} {body : List Stmt} {m : Machine}
    {x : Value} {a b : Numero} (hi : m.env.get? i = some ⟨.numero, x⟩)
    (hfirst : first.eval m.env = .ok (.numero a)) (hlast : last.eval m.env = .ok (.numero b))
    (hcounts : Counts i last body) {n : ℕ}
    (hn : (Int.range a.toInt (b.toInt + 1)).length < n) (answers : List String)
    (hruns : ((passes n body i (Int.range a.toInt (b.toInt + 1)) m).play answers).outcome =
      .done) :
    let runs := (passes n body i (Int.range a.toInt (b.toInt + 1)) m).play answers
    let ending := ((countedLoop i first last body).exec n m).play answers
    (b.toInt < a.toInt → ending = ⟨.done, m.set i a, [], answers⟩) ∧
    (a.toInt ≤ b.toInt → b.toInt < 2 ^ 63 - 1 →
      ending = ⟨.done, runs.machine.set i (.ofInt (b.toInt + 1)), runs.asked, runs.remaining⟩) ∧
    (a.toInt ≤ b.toInt → b.toInt = 2 ^ 63 - 1 →
      ending = ⟨.failed (.overflow (.binary (.arith .add))), runs.machine, runs.asked,
        runs.remaining⟩ ∧
      runs.machine.env.get? i = some ⟨.numero, .numero b⟩) := by
  intro runs ending
  have hending : ending = (Run.rounds (countTest i last) (execAll n body) (Run.step ⟨i, .up⟩) n
      (m.set i a)).play answers := by
    show ((Run.assign ⟨[i], first⟩ m).andThen _).play answers = _
    rw [assign_counter hi hfirst]
    rfl
  -- the passes end with `b`, where the last one leaves the counter
  have hcounter (hle : a.toInt ≤ b.toInt) :
      runs.machine.env.get? i = some ⟨.numero, .numero b⟩ := by
    have hget := @get?_passes n i body m hcounts.counter_kept (Int.range a.toInt b.toInt) b.toInt
      answers
    rw [← range_eq_append hle, Int64.ofInt_toInt] at hget
    exact hget hruns
  have hpasses (hle : a.toInt ≤ b.toInt) :
      ending = runs.followedBy fun m answers => (Run.step ⟨i, .up⟩ m).play answers := by
    have hlength : (Int.range a.toInt (b.toInt + 1)).length = (b.toInt + 1 - a.toInt).toNat := by
      simp [Int.range]
    have hbound : b.toInt + 1 - a.toInt < n := by omega
    have hrounds := rounds_eq_passes (n := n) hcounts hlast a.inRange_toInt hle hbound
    rw [Int64.ofInt_toInt] at hrounds
    rw [hending, hrounds, Run.play_andThen]
  refine ⟨?_, ?_, ?_⟩
  · intro hlt
    obtain ⟨n, rfl⟩ := Nat.exists_eq_add_one.2 (Nat.zero_lt_of_lt hn)
    rw [hending, rounds_of_lt (isAt_set hcounts hlast a) hlt]
    rfl
  · intro hle hsmall
    have hrange : Numero.InRange (b.toInt + 1) := by
      have hb := b.inRange_toInt
      unfold Numero.InRange at hb ⊢
      omega
    rw [hpasses hle, runs.followedBy_of_done hruns, step_counter (hcounter hle), if_pos hrange]
    simp [Run.play]
  · intro hle hgreatest
    have hrange : ¬ Numero.InRange (b.toInt + 1) := by
      unfold Numero.InRange
      omega
    rw [hpasses hle, runs.followedBy_of_done hruns, step_counter (hcounter hle), if_neg hrange]
    exact ⟨by simp [Run.play], hcounter hle⟩

/-- Asks for a text and prints it behind the counter. -/
def askAndNumber : List Stmt :=
  [.read ["x"], .print [.expr (.var "i"), .escape ':', .expr (.var "x")]]

/-- A loop over the last two of all numbers takes two answers and then overflows. -/
theorem Stmt.exec_countedLoop_greatest :
    let k := Variable.mk .numero (.numero Int64.maxValue)
    let env : Env := ⟨.ofList [("i", .mk .numero .null), ("k", k), ("x", .mk .letra .null)]⟩
    let m : Machine := ⟨env, #[]⟩
    let first : Expr := .binary (.arith .sub) (.var "k") (.lit (.numero 1))
    let ending := ((countedLoop "i" first (.var "k") askAndNumber).exec 3 m).play ["a", "b", "c"]
    Counts "i" (.var "k") askAndNumber ∧
      ending.outcome = .failed (.overflow (.binary (.arith .add))) ∧
      ending.machine.env.get? "i" = some ⟨.numero, .numero Int64.maxValue⟩ ∧
      ending.asked = ["x", "x"] ∧ ending.remaining = ["c"] := by
  intro k env m first ending
  have hcounts : Counts "i" (.var "k") askAndNumber := ⟨by decide, by decide, by decide⟩
  have hfirst : first.eval m.env = .ok (.numero 0x7FFFFFFFFFFFFFFE) := by rfl
  let runs := (passes 3 askAndNumber "i"
    (Int.range (0x7FFFFFFFFFFFFFFE : Numero).toInt (Int64.maxValue.toInt + 1)) m).play
      ["a", "b", "c"]
  have hruns : runs.outcome = .done := by decide +kernel
  obtain ⟨-, -, hend⟩ := Stmt.exec_countedLoop (x := .null) (b := Int64.maxValue) (by decide) hfirst
    (by rfl) hcounts (by decide) ["a", "b", "c"] hruns
  obtain ⟨hending, hcounter⟩ := hend (by decide) (by decide)
  change ending = ⟨_, runs.machine, runs.asked, runs.remaining⟩ at hending
  rw [hending]
  dsimp only
  exact ⟨hcounts, rfl, hcounter, by decide +kernel, by decide +kernel⟩

end Bisaya
