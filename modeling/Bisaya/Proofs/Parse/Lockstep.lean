import Bisaya.Proofs.Parse.Tracing

namespace Bisaya

namespace Parse

/-- Tokens that differ at most in their places, and are related by `P`. -/
structure Paired (P : Token → Token → Prop) (t t' : Token) : Prop where
  pair : P t t'
  kind : t'.kind = t.kind
  literal : t'.literal = t.literal

def SamePlace (ts ts' : List Token) (t t' : Token) : Prop :=
  ∃ i : ℕ, ts[i]? = some t ∧ ts'[i]? = some t'

/-- Errors that differ at most in the places they name, which are those of paired tokens. -/
inductive ErrorsAlike (P : Token → Token → Prop) : ParseError → ParseError → Prop where
  | endOfTokens : ErrorsAlike P .endOfTokens .endOfTokens
  | expected (kinds : List Kind) {t t' : Token} (h : Paired P t t') :
      ErrorsAlike P (.expected kinds t) (.expected kinds t')
  | unexpected {t t' : Token} (h : Paired P t t') : ErrorsAlike P (.unexpected t) (.unexpected t')
  | illegal {t t' : Token} (h : Paired P t t') : ErrorsAlike P (.illegal t) (.illegal t')
  | missingStart {t t' : Token} (h : Paired P t t') :
      ErrorsAlike P (.missingStart t) (.missingStart t')
  | missingEnd {t t' : Token} (h : Paired P t t') :
      ErrorsAlike P (.missingEnd t.position) (.missingEnd t'.position)
  | unclosedBlock {t t' : Token} (h : Paired P t t') :
      ErrorsAlike P (.unclosedBlock t.position) (.unclosedBlock t'.position)
  | invalidNumber {t t' : Token} (h : Paired P t t') :
      ErrorsAlike P (.invalidNumber t) (.invalidNumber t')
  | invalidClause (clause : Clause) {t t' : Token} (h : Paired P t t') :
      ErrorsAlike P (.invalidClause clause t.position) (.invalidClause clause t'.position)
  | literalMismatch (name : String) (ty : DataType) {t t' : Token} (h : Paired P t t') :
      ErrorsAlike P (.literalMismatch name ty t) (.literalMismatch name ty t')

theorem ErrorsAlike.unless_illegal {P : Token → Token → Prop} {t t' : Token} (ht : Paired P t t')
    {e e' : ParseError} (h : ErrorsAlike P e e') :
    ErrorsAlike P (if t.kind = .illegal then .illegal t else e)
      (if t'.kind = .illegal then .illegal t' else e') := by
  rw [ht.kind]
  split
  · exact .illegal ht
  · exact h

end Parse

open Parse (standsAlone startsStatement Paired SamePlace ErrorsAlike)

theorem Complaint.errorsAlike (c : Complaint) {P : Token → Token → Prop} {t t' : Token}
    (h : Paired P t t') : ErrorsAlike P (c.error t) (c.error t') := by
  cases c with
  | expected kinds => exact .unless_illegal h (.expected kinds h)
  | unexpected => exact .unless_illegal h (.unexpected h)
  | start => exact .unless_illegal h (.missingStart h)
  | unended => exact .missingEnd h
  | unclosed => exact .unclosedBlock h
  | number => exact .invalidNumber h
  | clause clause => exact .invalidClause clause h
  | mismatch name ty => exact .unless_illegal h (.literalMismatch name ty h)

/-- The lists have the same tokens at positions that may differ; but behind a `DILI` a line ends in
both or in neither. -/
structure Alike (ts us : List Token) : Prop where
  seen : ∀ k : ℕ, us[k]?.map (·.seen k) = ts[k]?.map (·.seen k)
  line : ∀ (k : ℕ) {t t' next next' : Token}, t.kind = .keyword .dili → ts[k]? = some t →
    us[k]? = some t' → ts[k + 1]? = some next → us[k + 1]? = some next' →
      (t'.position.line < next'.position.line ↔ t.position.line < next.position.line)

namespace Alike

variable {ts us : List Token}

theorem cases (h : Alike ts us) (k : ℕ) : (ts[k]? = none ∧ us[k]? = none) ∨
    ∃ t t', ts[k]? = some t ∧ us[k]? = some t' ∧ t'.seen k = t.seen k ∧
      Paired (SamePlace ts us) t t' := by
  have hseen := h.seen k
  cases ht : ts[k]? with
  | none =>
    rw [ht] at hseen
    exact .inl ⟨rfl, by simpa using hseen⟩
  | some t =>
    rw [ht] at hseen
    obtain ⟨t', ht', hsame⟩ := Option.map_eq_some_iff.1 hseen
    exact .inr ⟨t, t', rfl, ht', hsame, ⟨k, ht, ht'⟩, congrArg Seen.kind hsame,
      congrArg Seen.literal hsame⟩

theorem any_kind (h : Alike ts us) (p : Kind → Bool) (k : ℕ) :
    us[k]?.any (fun t => p t.kind) = ts[k]?.any fun t => p t.kind := by
  obtain ⟨hnone, hnone'⟩ | ⟨t, t', ht, ht', -, hpaired⟩ := h.cases k
  · rw [hnone, hnone']
  · rw [ht, ht', Option.any_some, Option.any_some, hpaired.kind]

theorem startsStatement_drop (h : Alike ts us) (k : ℕ) :
    startsStatement (us.drop k) = startsStatement (ts.drop k) := by
  simp only [startsStatement, ← any_kind_eq_nextIs]
  rw [h.any_kind (decide <| · = _), h.any_kind (decide <| · = _), h.any_kind (decide <| · = _)]

/-- The only place where positions are looked at. -/
theorem standsAlone_drop (h : Alike ts us) {k : ℕ} {t t' : Token} (hkind : t.kind = .keyword .dili)
    (ht : ts[k]? = some t) (ht' : us[k]? = some t') :
    standsAlone t' (us.drop (k + 1)) = standsAlone t (ts.drop (k + 1)) := by
  obtain ⟨hnone, hdrop⟩ | ⟨next, hsome, hdrop⟩ := drop_cases ts (k + 1) <;>
    obtain ⟨hnone', hdrop'⟩ | ⟨next', hsome', hdrop'⟩ := drop_cases us (k + 1)
  · rw [hdrop, hdrop']
    rfl
  · have hseen := h.seen (k + 1)
    rw [hnone, hsome'] at hseen
    cases hseen
  · have hseen := h.seen (k + 1)
    rw [hnone', hsome] at hseen
    cases hseen
  · have hseen := h.seen (k + 1)
    rw [hsome, hsome'] at hseen
    have hnext : next'.kind = next.kind := congrArg Seen.kind (Option.some.inj hseen)
    have hline := h.line k hkind ht ht' hsome hsome'
    simp only [hdrop, hdrop', standsAlone, Parse.isBare, hnext, hline, h.startsStatement_drop]

theorem holds (h : Alike ts us) (q : Look) (k : ℕ) : q.holds us k = q.holds ts k := by
  cases q with
  | next kind => exact h.any_kind (decide <| · = kind) k
  | target commas =>
    exact congrArg₂ and (h.any_kind (decide <| · = .ident) k)
      (h.any_kind (decide <| · ∈ Parse.separators commas) (k + 1))
  | clause word =>
    exact congrArg₂ and (h.any_kind (decide <| · = .keyword .kung) k)
      (h.any_kind (decide <| · = .keyword word) (k + 1))
  | bare =>
    cases k with
    | zero => rfl
    | succ k =>
      obtain ⟨hnone, hnone'⟩ | ⟨t, t', ht, ht', -, hpaired⟩ := h.cases k
      · rw [Look.holds, Look.holds, hnone, hnone']
        rfl
      · rw [Look.holds, Look.holds, ht, ht', Option.any_some, Option.any_some, hpaired.kind]
        by_cases hkind : t.kind = .keyword .dili
        · rw [h.standsAlone_drop hkind ht ht']
        · simp only [decide_eq_false hkind, Bool.false_and]

end Alike

/-- Two walks that end at the same place, with the same result or with errors that are alike. -/
inductive EndAlike (P : Token → Token → Prop) {α : Type} :
    Option (Except ParseError α × ℕ) → Option (Except ParseError α × ℕ) → Prop where
  | none : EndAlike P none none
  | ok (a : α) (j : ℕ) : EndAlike P (some (.ok a, j)) (some (.ok a, j))
  | error {e e' : ParseError} (h : ErrorsAlike P e e') (j : ℕ) :
      EndAlike P (some (.error e, j)) (some (.error e', j))

/-- A reader walks in step over lists that are alike. -/
theorem Reader.walk_alike {ts us : List Token} (h : Alike ts us) {α : Type} (s : Reader α) (i : ℕ) :
    EndAlike (SamePlace ts us) (s.walk ts i) (s.walk us i) := by
  induction s generalizing i with
  | done a => exact .ok a i
  | fail c place =>
    rw [walk, walk]
    obtain ⟨hnone, hnone'⟩ | ⟨t, t', ht, ht', -, hpaired⟩ := h.cases place
    · rw [hnone, hnone']
      exact .error .endOfTokens i
    · rw [ht, ht']
      exact .error (c.errorsAlike hpaired) i
  | stop => exact .none
  | next k ih =>
    rw [walk, walk]
    obtain ⟨hnone, hnone'⟩ | ⟨t, t', ht, ht', hseen, hpaired⟩ := h.cases i
    · rw [hnone, hnone']
      exact .error .endOfTokens i
    · rw [ht, ht']
      dsimp only
      rw [hseen, hpaired.kind]
      exact ih _ _
  | peek k ih =>
    rw [walk, walk]
    obtain ⟨hnone, hnone'⟩ | ⟨t, t', ht, ht', hseen, -⟩ := h.cases i
    · rw [hnone, hnone']
      exact .error .endOfTokens i
    · rw [ht, ht']
      dsimp only
      rw [hseen]
      exact ih _ _
  | want kinds k ih =>
    rw [walk, walk]
    obtain ⟨hnone, hnone'⟩ | ⟨t, t', ht, ht', hseen, hpaired⟩ := h.cases i
    · rw [hnone, hnone']
      exact .error .endOfTokens i
    · rw [ht, ht']
      dsimp only
      rw [hseen, hpaired.kind]
      split
      · exact ih _ _
      · exact .error (Complaint.errorsAlike (.expected kinds) hpaired) i
  | look q k ih =>
    rw [walk, walk, h.holds]
    exact ih _ _

end Bisaya
