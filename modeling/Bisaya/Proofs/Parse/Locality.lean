import Bisaya.Proofs.Parse.Tracing

namespace Bisaya

open Parse (nextIs startsStatement standsAlone)

variable {ts us : List Token} {α β γ : Type} {i j k : ℕ}

theorem Parse.startsStatement_congr (h : us[k]? = ts[k]?) :
    startsStatement (us.drop k) = startsStatement (ts.drop k) := by
  simp only [startsStatement, ← any_kind_eq_nextIs, h]

theorem Parse.standsAlone_congr (h : us[k]? = ts[k]?)
    (hbehind : startsStatement (us.drop (k + 1)) = startsStatement (ts.drop (k + 1)))
    (dili : Token) : standsAlone dili (us.drop k) = standsAlone dili (ts.drop k) := by
  obtain ⟨hnone, hdrop⟩ | ⟨t, hsome, hdrop⟩ := drop_cases ts k
  · have hnil : us.drop k = [] :=
      List.drop_eq_nil_of_le (List.getElem?_eq_none_iff.1 (h.trans hnone))
    rw [hdrop, hnil]
  · obtain ⟨hnone', -⟩ | ⟨t', hsome', hdrop'⟩ := drop_cases us k
    · rw [h, hsome] at hnone'
      cases hnone'
    · rw [h, hsome] at hsome'
      cases hsome'
      rw [hdrop, hdrop', standsAlone, standsAlone, Parse.isBare, Parse.isBare, hbehind]

/-- What is asked about the tokens from a place on is told by the one before it and the next two. -/
theorem Look.holds_congr (q : Look) (h : ∀ k ≤ i + 1, us[k]? = ts[k]?) :
    q.holds us i = q.holds ts i := by
  cases q with
  | next kind => rw [holds, holds, h i (by omega)]
  | target commas => rw [holds, holds, h i (by omega), h (i + 1) le_rfl]
  | clause word => rw [holds, holds, h i (by omega), h (i + 1) le_rfl]
  | bare =>
    cases i with
    | zero => rfl
    | succ i =>
      have hstarts := Parse.startsStatement_congr (h (i + 2) le_rfl)
      simp only [holds, h i (by omega), Parse.standsAlone_congr (h (i + 1) (by omega)) hstarts]

namespace Reader

/-- A walk that succeeds depends on the tokens up to the place where it ends, and on what it is told
there and before. -/
theorem walk_congr {s : Reader α} {a : α} (h : s.walk ts i = some (.ok a, j))
    (hsame : ∀ k ≤ j, us[k]? = ts[k]?)
    (hlook : ∀ (q : Look), ∀ k ≤ j, q.holds us k = q.holds ts k) :
    s.walk us i = some (.ok a, j) := by
  have hle := (passes_of_walk h).le
  induction s generalizing i with
  | done b => exact h
  | fail | stop => cases h
  | next k ih =>
    obtain ⟨t, ht, h⟩ := walk_next_eq_ok.1 h
    exact walk_next_eq_ok.2 ⟨t, (hsame i hle).trans ht, ih _ h (passes_of_walk h).le⟩
  | peek k ih =>
    obtain ⟨t, ht, h⟩ := walk_peek_eq_ok.1 h
    exact walk_peek_eq_ok.2 ⟨t, (hsame i hle).trans ht, ih _ h hle⟩
  | want kinds k ih =>
    obtain ⟨t, ht, hkind, h⟩ := walk_want_eq_ok.1 h
    exact walk_want_eq_ok.2 ⟨t, (hsame i hle).trans ht, hkind, ih _ h (passes_of_walk h).le⟩
  | look q k ih =>
    rw [walk] at h ⊢
    rw [hlook q i hle]
    exact ih _ h hle

end Reader

end Bisaya
