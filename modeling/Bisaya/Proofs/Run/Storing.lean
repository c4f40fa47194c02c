import Bisaya.Proofs.Run.Soundness

namespace Bisaya

theorem Value.exists_of_not_fits {v : Value} {ty : DataType} (h : ¬ v.Fits ty) :
    ∃ got, v.type? = some got ∧ got ≠ ty := by
  rw [Fits, not_or] at h
  obtain ⟨got, hgot⟩ := Option.ne_none_iff_exists'.1 h.1
  refine ⟨got, hgot, ?_⟩
  rintro rfl
  exact h.2 hgot

namespace Env

/-- The name is declared, and its variable may hold the value. -/
def Accepts (env : Env) (name : String) (v : Value) : Prop :=
  ∃ x, env.get? name = some x ∧ v.Fits x.ty

/-- The error that names a variable which cannot hold the value. -/
inductive Refuses (env : Env) (name : String) (v : Value) : RuntimeError → Prop where
  | undeclared (h : env.get? name = none) : Refuses env name v (.undefined name)
  | mistyped {x : Variable} {got : DataType} (h : env.get? name = some x)
      (hgot : v.type? = some got) (hne : got ≠ x.ty) :
      Refuses env name v (.assignmentType name x.ty got)

/-- The names hold the value now, with the types they had, and all else is as it was. -/
structure Stored (env : Env) (v : Value) (names : List String) (env' : Env) : Prop where
  targets : ∀ name ∈ names, ∃ x, env.get? name = some x ∧ env'.get? name = some ⟨x.ty, v⟩
  others : ∀ name ∉ names, env'.get? name = env.get? name

variable {env env' env'' : Env} {name : String} {v : Value}

theorem Refuses.not_accepts {e : RuntimeError} (h : env.Refuses name v e) :
    ¬ env.Accepts name v := by
  rintro ⟨x, hx, hfits⟩
  cases h with
  | undeclared hnone =>
    rw [hnone] at hx
    cases hx
  | mistyped hy hgot hne =>
    obtain rfl := Option.some.inj (hy.symm.trans hx)
    rcases hfits with hnull | hty
    · rw [hgot] at hnull
      cases hnull
    · exact hne (Option.some.inj (hgot.symm.trans hty))

namespace Stored

theorem nil (env : Env) (v : Value) : env.Stored v [] env := ⟨nofun, fun _ _ => rfl⟩

theorem append {names names' : List String} (h : env.Stored v names env')
    (h' : env'.Stored v names' env'') : env.Stored v (names ++ names') env'' := by
  constructor
  · intro a ha
    by_cases hlater : a ∈ names'
    · obtain ⟨y, hy, hstored⟩ := h'.targets a hlater
      by_cases hearlier : a ∈ names
      · -- stored twice: the second time finds the type that the first one kept
        obtain ⟨x, hx, hx'⟩ := h.targets a hearlier
        obtain rfl := Option.some.inj (hx'.symm.trans hy)
        exact ⟨x, hx, hstored⟩
      · exact ⟨y, (h.others a hearlier).symm.trans hy, hstored⟩
    · obtain ⟨x, hx, hx'⟩ := h.targets a ((List.mem_append.1 ha).resolve_right hlater)
      exact ⟨x, hx, (h'.others a hlater).trans hx'⟩
  · intro a ha
    rw [List.mem_append, not_or] at ha
    rw [h'.others a ha.2, h.others a ha.1]

theorem reverse {names : List String} (h : env.Stored v names env') :
    env.Stored v names.reverse env' :=
  ⟨fun a ha => h.targets a (List.mem_reverse.1 ha), fun a ha => h.others a (by simpa using ha)⟩

variable {names : List String} {w : Value}

/-- A name is declared afterwards just if it was before, and with the same type. -/
theorem map_ty (h : env.Stored v names env') (name : String) :
    (env'.get? name).map Variable.ty = (env.get? name).map Variable.ty := by
  by_cases hname : name ∈ names
  · obtain ⟨x, hx, hx'⟩ := h.targets name hname
    rw [hx, hx']
    rfl
  · rw [h.others name hname]

theorem accepts_iff (h : env.Stored v names env') :
    env'.Accepts name w ↔ env.Accepts name w := by
  have hiff (env : Env) :
      env.Accepts name w ↔ ∃ ty, (env.get? name).map Variable.ty = some ty ∧ w.Fits ty := by
    simp [Accepts]
  rw [hiff, hiff, h.map_ty]

theorem refuses {e : RuntimeError} (h : env.Stored v names env') (he : env'.Refuses name w e) :
    env.Refuses name w e := by
  have hty := h.map_ty name
  cases he with
  | undeclared hnone =>
    rw [hnone] at hty
    exact .undeclared (Option.map_eq_none_iff.1 hty.symm)
  | mistyped hx hgot hne =>
    rw [hx] at hty
    obtain ⟨y, hy, hxy⟩ := Option.map_eq_some_iff.1 hty.symm
    rw [← hxy]
    exact .mistyped hy hgot (hxy ▸ hne)

end Stored

theorem put_of_not_fits (env : Env) (name : String) {x : Variable} {got : DataType}
    (hgot : x.value.type? = some got) (hne : got ≠ x.ty) :
    env.put name x = .error (.assignmentType name x.ty got) := by
  rw [put, hgot]
  exact if_neg hne

/-- One assignment stores its value, or names the variable that cannot hold it. -/
theorem assign_cases (env : Env) (name : String) (v : Value) :
    (env.Accepts name v ∧ ∃ env', env.assign name v = .ok env' ∧ env.Stored v [name] env') ∨
      ∃ e, env.Refuses name v e ∧ env.assign name v = .error e := by
  cases hx : env.get? name with
  | none =>
    refine .inr ⟨_, .undeclared hx, ?_⟩
    rw [assign, lookup, hx]
    rfl
  | some x =>
    have hassign := assign_of_get? hx v
    by_cases hfits : v.Fits x.ty
    · have hput := env.put_of_fits name (x := ⟨x.ty, v⟩) hfits
      refine .inl ⟨⟨x, hx, hfits⟩, _, hassign.trans hput, ?_, ?_⟩
      · intro a ha
        obtain rfl := List.mem_singleton.1 ha
        exact ⟨x, hx, by rw [get?_of_put hput, if_pos rfl]⟩
      · intro a ha
        rw [get?_of_put hput, if_neg (Ne.symm (by simpa using ha))]
    · obtain ⟨got, hgot, hne⟩ := Value.exists_of_not_fits hfits
      exact .inr ⟨_, .mistyped hx hgot hne, hassign.trans (env.put_of_not_fits name hgot hne)⟩

end Env

/-- Stores in a row stop at the first name that cannot hold the value, and the names before it keep
what was stored. -/
theorem Run.store_cases (v : Value) (names : List String) (m : Machine) :
    ((∀ name ∈ names, m.env.Accepts name v) ∧
      ∃ env, Run.store v names m = .done { m with env := env } ∧ m.env.Stored v names env) ∨
    ∃ before name after e env, names = before ++ name :: after ∧
      (∀ a ∈ before, m.env.Accepts a v) ∧ m.env.Refuses name v e ∧
      Run.store v names m = .failed e { m with env := env } ∧ m.env.Stored v before env := by
  induction names generalizing m with
  | nil => exact .inl ⟨nofun, m.env, rfl, .nil m.env v⟩
  | cons name names ih =>
    rw [Run.store]
    obtain ⟨haccepts, env, hassign, hstored⟩ | ⟨e, hrefuses, hassign⟩ := m.env.assign_cases name v
    swap
    · rw [hassign]
      exact .inr ⟨[], name, names, e, m.env, rfl, nofun, hrefuses, rfl, .nil m.env v⟩
    rw [hassign]
    show (_ ∧ ∃ env', Run.store v names { m with env := env } = _ ∧ _) ∨
      ∃ before name' after e env', _ ∧ _ ∧ _ ∧ Run.store v names { m with env := env } = _ ∧ _
    -- the first store changes no type, so that the other names are accepted as before
    have hall {seen : List String} (h : ∀ a ∈ seen, env.Accepts a v) :
        ∀ a ∈ name :: seen, m.env.Accepts a v := by
      intro a ha
      rcases List.mem_cons.1 ha with rfl | ha
      · exact haccepts
      · exact hstored.accepts_iff.1 (h a ha)
    obtain ⟨hrest, env', hrun, hstored'⟩ |
        ⟨before, name', after, e, env', hnames, hbefore, hrefuses, hrun, hstored'⟩ :=
      ih { m with env := env }
    · exact .inl ⟨hall hrest, env', hrun, hstored.append hstored'⟩
    · refine .inr ⟨name :: before, name', after, e, env', ?_, hall hbefore,
        hstored.refuses hrefuses, hrun, hstored.append hstored'⟩
      rw [hnames, List.cons_append]

/-- An assignment `t₁ = … = tₙ = e` that cannot evaluate `e` changes nothing. Else it succeeds just
if every target can hold the value, and then all targets do. If it fails, it names the last target
that cannot hold the value, exactly the targets behind that one hold it, and nothing else has
changed. -/
theorem Stmt.exec_assign (n : ℕ) (a : Assignment) (m : Machine) (answers : List String) :
    let ending := ((Stmt.assign a).exec n m).play answers
    (∀ e, a.value.eval m.env = .error e → ending = ⟨.failed e, m, [], answers⟩) ∧
    ∀ v, a.value.eval m.env = .ok v →
      (ending.outcome = .done ↔ ∀ t ∈ a.targets, m.env.Accepts t v) ∧
      (ending.outcome = .done → ∃ env, m.env.Stored v a.targets env ∧
        ending = ⟨.done, ⟨env, m.output⟩, [], answers⟩) ∧
      (ending.outcome ≠ .done → ∃ before t after e env, a.targets = before ++ t :: after ∧
        m.env.Refuses t v e ∧ (∀ u ∈ after, m.env.Accepts u v) ∧ m.env.Stored v after env ∧
        ending = ⟨.failed e, ⟨env, m.output⟩, [], answers⟩) := by
  intro ending
  have hending : ending = (Run.assign a m).play answers := rfl
  rw [hending, Run.assign]
  refine ⟨fun e he => by rw [he]; rfl, fun v hv => ?_⟩
  simp only [hv]
  obtain ⟨hall, env, hrun, hstored⟩ |
      ⟨before, t, after, e, env, htargets, hbefore, hrefuses, hrun, hstored⟩ :=
    Run.store_cases v a.targets.reverse m
  · rw [hrun]
    have hall' : ∀ t ∈ a.targets, m.env.Accepts t v :=
      fun t ht => hall t (List.mem_reverse.2 ht)
    refine ⟨⟨fun _ => hall', fun _ => rfl⟩, fun _ => ⟨env, ?_, rfl⟩, fun h => absurd rfl h⟩
    rw [← List.reverse_reverse a.targets]
    exact hstored.reverse
  · -- what is stored before the refusal stands behind the refused target
    have hsplit : a.targets = after.reverse ++ t :: before.reverse := by
      rw [← List.reverse_reverse a.targets, htargets]
      simp
    have hnot : ¬ ∀ u ∈ a.targets, m.env.Accepts u v := by
      intro h
      exact hrefuses.not_accepts (h t (by simp [hsplit]))
    rw [hrun]
    have hfailed : ((Run.failed e { m with env := env }).play answers).outcome ≠ .done :=
      Outcome.noConfusion
    refine ⟨⟨fun h => absurd h hfailed, fun h => absurd h hnot⟩, fun h => absurd h hfailed,
      fun _ => ?_⟩
    exact ⟨after.reverse, t, before.reverse, e, env, hsplit, hrefuses,
      fun u hu => hbefore u (List.mem_reverse.1 hu), hstored.reverse, rfl⟩

/-- `y = s = x = x = x + 1` with a text `s`: `x` is stored twice and `y` not at all. -/
theorem Stmt.exec_assign_text :
    let x := Variable.mk .numero (.numero 4)
    let env : Env := ⟨.ofList [("s", .mk .letra .null), ("x", x), ("y", .mk .numero .null)]⟩
    let a : Assignment :=
      ⟨["y", "s", "x", "x"], .binary (.arith .add) (.var "x") (.lit (.numero 1))⟩
    let ending := ((Stmt.assign a).exec 0 ⟨env, #[]⟩).play []
    a.value.eval env = .ok (.numero 5) ∧ (¬ ∀ t ∈ a.targets, env.Accepts t (.numero 5)) ∧
      ending.outcome = .failed (.assignmentType "s" .letra .numero) ∧
      ending.machine.env.get? "x" = some ⟨.numero, .numero 5⟩ ∧
      ending.machine.env.get? "y" = some ⟨.numero, .null⟩ := by
  intro x env a ending
  have hvalue : a.value.eval env = .ok (.numero 5) := by rfl
  have hfailed : ending.outcome = .failed (.assignmentType "s" .letra .numero) := by decide +kernel
  refine ⟨hvalue, fun hall => ?_, hfailed, by decide +kernel, by decide +kernel⟩
  obtain ⟨hiff, -⟩ := (Stmt.exec_assign 0 a ⟨env, #[]⟩ []).2 _ hvalue
  have hdone : ending.outcome = .done := hiff.2 hall
  rw [hfailed] at hdone
  cases hdone

end Bisaya
