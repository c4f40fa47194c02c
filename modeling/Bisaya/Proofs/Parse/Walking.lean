import Bisaya.Proofs.Parse.Equations
import Bisaya.Proofs.Parse.Reader

namespace Bisaya

def Token.seen (t : Token) (place : ℕ) : Seen := ⟨t.kind, t.literal, place⟩

@[simp] theorem Token.seen_kind (t : Token) (place : ℕ) : (t.seen place).kind = t.kind := rfl

@[simp] theorem Token.seen_literal (t : Token) (place : ℕ) :
    (t.seen place).literal = t.literal := rfl

@[simp] theorem Token.seen_place (t : Token) (place : ℕ) : (t.seen place).place = place := rfl

/-- Whether `DILI` before these tokens stands alone. -/
def Parse.standsAlone (dili : Token) : List Token → Bool
  | [] => false
  | next :: more => isBare dili next more

def Look.holds (ts : List Token) : Look → ℕ → Bool
  | next kind, i => ts[i]?.any (·.kind = kind)
  | target commas, i =>
    ts[i]?.any (·.kind = .ident) && ts[i + 1]?.any (·.kind ∈ Parse.separators commas)
  | clause word, i =>
    ts[i]?.any (·.kind = .keyword .kung) && ts[i + 1]?.any (·.kind = .keyword word)
  | bare, 0 => false
  | bare, i + 1 => ts[i]?.any fun dili =>
      dili.kind = .keyword .dili && Parse.standsAlone dili (ts.drop (i + 1))

theorem Look.bare_holds {ts : List Token} {i : ℕ} {dili : Token}
    (hkind : dili.kind = .keyword .dili) (h : ts[i]? = some dili) :
    Look.bare.holds ts (i + 1) = Parse.standsAlone dili (ts.drop (i + 1)) := by
  rw [holds, h, Option.any_some, decide_eq_true hkind, Bool.true_and]

namespace Reader

/-- From a place of the cursor to a result or an error and the place where the cursor is then. The
cursor never moves past an end mark. A reader that comes to its bound has no result at all. -/
def walk {α : Type} (ts : List Token) : Reader α → ℕ → Option (Except ParseError α × ℕ)
  | done a, i => some (.ok a, i)
  | fail c place, i => some (.error ((ts[place]?.map c.error).getD .endOfTokens), i)
  | stop, _ => none
  | next k, i =>
    match ts[i]? with
    | some t => (k (t.seen i)).walk ts (if t.kind = .eof then i else i + 1)
    | none => some (.error .endOfTokens, i)
  | peek k, i =>
    match ts[i]? with
    | some t => (k (t.seen i)).walk ts i
    | none => some (.error .endOfTokens, i)
  | want kinds k, i =>
    match ts[i]? with
    | some t =>
      if t.kind ∈ kinds then (k (t.seen i)).walk ts (if t.kind = .eof then i else i + 1)
      else some (.error (.ofExpected kinds t), i)
    | none => some (.error .endOfTokens, i)
  | look q k, i => (k (q.holds ts i)).walk ts i

/-- Whether there is no result before a token is taken. A reader that takes an end mark fails. -/
def Takes {α : Type} : Reader α → Prop
  | done _ => False
  | fail .. | stop => True
  | next k => ∀ t, t.kind = .eof → ∃ c place, k t = fail c place
  | peek k => ∀ t, (k t).Takes
  | want kinds _ => .eof ∉ kinds
  | look _ k => ∀ b, (k b).Takes

end Reader

/-- The cursor may go from `i` to `j`: there are tokens up to `j`, and none on the way is an end
mark. -/
structure Passes (ts : List Token) (i j : ℕ) : Prop where
  le : i ≤ j
  bound : i < j → j ≤ ts.length
  clear : ∀ k t, i ≤ k → k < j → ts[k]? = some t → t.kind ≠ .eof

variable {ts : List Token} {α β γ δ : Type} {i j k : ℕ} {t : Token}

theorem Passes.refl (ts : List Token) (i : ℕ) : Passes ts i i :=
  ⟨le_rfl, fun h => by omega, fun k t hk hk' => by omega⟩

theorem Passes.trans (h : Passes ts i j) (h' : Passes ts j k) : Passes ts i k := by
  refine ⟨h.le.trans h'.le, fun hlt => ?_, fun m t hm hm' => ?_⟩
  · rcases h'.le.eq_or_lt with rfl | hjk
    · exact h.bound hlt
    · exact h'.bound hjk
  · rcases lt_or_ge m j with hmj | hmj
    · exact h.clear m t hm hmj
    · exact h'.clear m t hmj hm'

theorem Passes.token (ht : ts[i]? = some t) (hkind : t.kind ≠ .eof) : Passes ts i (i + 1) := by
  refine ⟨i.le_succ, fun _ => (List.getElem?_eq_some_iff.1 ht).1, fun k u hk hk' hu => ?_⟩
  obtain rfl : i = k := by omega
  rw [ht] at hu
  cases hu
  exact hkind

theorem Passes.taken (ht : ts[i]? = some t) : Passes ts i (if t.kind = .eof then i else i + 1) := by
  split
  · exact .refl ts i
  · rename_i hkind
    exact .token ht hkind

namespace Reader

def after (x : Option (Except ParseError α × ℕ)) (f : α → ℕ → Option (Except ParseError β × ℕ)) :
    Option (Except ParseError β × ℕ) :=
  match x with
  | none => none
  | some (.error e, j) => some (.error e, j)
  | some (.ok a, j) => f a j

theorem walk_bind (s : Reader α) (f : α → Reader β) (i : ℕ) :
    (s >>= f).walk ts i = after (s.walk ts i) fun a => (f a).walk ts := by
  change (s.bind f).walk ts i = _
  induction s generalizing i with
  | done | fail | stop => rfl
  | next k ih =>
    rw [bind, walk, walk]
    cases ts[i]? with
    | none => rfl
    | some t => exact ih _ _
  | peek k ih =>
    rw [bind, walk, walk]
    cases ts[i]? with
    | none => rfl
    | some t => exact ih _ _
  | want kinds k ih =>
    rw [bind, walk, walk]
    cases ts[i]? with
    | none => rfl
    | some t =>
      by_cases hkind : t.kind ∈ kinds
      · simp only [if_pos hkind]
        exact ih _ _
      · simp only [if_neg hkind]
        rfl
  | look q k ih => exact ih _ _

/-- Wherever a walk ends, the cursor has moved over tokens only, and over no end mark. -/
theorem passes_of_walk {s : Reader α} {r : Except ParseError α} (h : s.walk ts i = some (r, j)) :
    Passes ts i j := by
  induction s generalizing i with
  | done | fail =>
    cases h
    exact .refl ts _
  | stop => cases h
  | next k ih =>
    rw [walk] at h
    split at h
    · rename_i t ht
      exact (Passes.taken ht).trans (ih _ h)
    · cases h
      exact .refl ts _
  | want kinds k ih =>
    rw [walk] at h
    split at h
    · rename_i t ht
      split at h
      · exact (Passes.taken ht).trans (ih _ h)
      · cases h
        exact .refl ts _
    · cases h
      exact .refl ts _
  | peek k ih =>
    rw [walk] at h
    split at h
    · exact ih _ h
    · cases h
      exact .refl ts _
  | look q k ih => exact ih _ h

section Succeeds

variable {a : α}

theorem walk_next_eq_ok {k : Seen → Reader α} : (next k).walk ts i = some (.ok a, j) ↔
    ∃ t, ts[i]? = some t ∧
      (k (t.seen i)).walk ts (if t.kind = .eof then i else i + 1) = some (.ok a, j) := by
  rw [walk]
  cases ts[i]? <;> simp

theorem walk_peek_eq_ok {k : Seen → Reader α} : (peek k).walk ts i = some (.ok a, j) ↔
    ∃ t, ts[i]? = some t ∧ (k (t.seen i)).walk ts i = some (.ok a, j) := by
  rw [walk]
  cases ts[i]? <;> simp

theorem walk_want_eq_ok {kinds : List Kind} {k : Seen → Reader α} :
    (want kinds k).walk ts i = some (.ok a, j) ↔ ∃ t, ts[i]? = some t ∧ t.kind ∈ kinds ∧
      (k (t.seen i)).walk ts (if t.kind = .eof then i else i + 1) = some (.ok a, j) := by
  rw [walk]
  cases ts[i]? with
  | none => simp
  | some t => by_cases hkind : t.kind ∈ kinds <;> simp [hkind]

theorem walk_take_eq_ok {f : Seen → Reader α} : (take >>= f).walk ts i = some (.ok a, j) ↔
    ∃ t, ts[i]? = some t ∧
      (f (t.seen i)).walk ts (if t.kind = .eof then i else i + 1) = some (.ok a, j) :=
  walk_next_eq_ok

theorem walk_token_eq_ok {f : Seen → Reader α} : (token >>= f).walk ts i = some (.ok a, j) ↔
    ∃ t, ts[i]? = some t ∧ (f (t.seen i)).walk ts i = some (.ok a, j) :=
  walk_peek_eq_ok

theorem walk_expect_eq_ok {kinds : List Kind} {f : Seen → Reader α} :
    (expect kinds >>= f).walk ts i = some (.ok a, j) ↔ ∃ t, ts[i]? = some t ∧ t.kind ∈ kinds ∧
      (f (t.seen i)).walk ts (if t.kind = .eof then i else i + 1) = some (.ok a, j) :=
  walk_want_eq_ok

theorem walk_bind_eq_ok {s : Reader β} {f : β → Reader α} :
    (s >>= f).walk ts i = some (.ok a, j) ↔
      ∃ b m, s.walk ts i = some (.ok b, m) ∧ (f b).walk ts m = some (.ok a, j) := by
  rw [walk_bind]
  rcases s.walk ts i with _ | ⟨_ | b, m⟩ <;> simp [after]

theorem walk_pure_eq_ok {b : α} :
    (pure b : Reader α).walk ts i = some (.ok a, j) ↔ b = a ∧ i = j := by
  change some (Except.ok b, i) = _ ↔ _
  simp

end Succeeds

/-- What succeeds behind a token that is no end mark ends at a later place. -/
theorem lt_of_walk {s : Reader α} {r : Except ParseError α} (hkind : t.kind ≠ .eof)
    (h : s.walk ts (if t.kind = .eof then i else i + 1) = some (r, j)) : i < j := by
  rw [if_neg hkind] at h
  exact (passes_of_walk h).le

theorem Takes.lt {s : Reader α} (hs : s.Takes) {a : α} (h : s.walk ts i = some (.ok a, j)) :
    i < j := by
  induction s with
  | done => exact hs.elim
  | fail | stop => cases h
  | next k ih =>
    obtain ⟨t, -, h⟩ := walk_next_eq_ok.1 h
    refine lt_of_walk (fun hkind => ?_) h
    obtain ⟨c, place, hk⟩ := hs (t.seen i) hkind
    rw [hk] at h
    cases h
  | peek k ih =>
    obtain ⟨t, -, h⟩ := walk_peek_eq_ok.1 h
    exact ih _ (hs _) h
  | want kinds k ih =>
    obtain ⟨t, -, hmem, h⟩ := walk_want_eq_ok.1 h
    exact lt_of_walk (fun hkind => hs (hkind ▸ hmem)) h
  | look q k ih => exact ih _ (hs _) h

theorem Takes.bind {s : Reader α} (hs : s.Takes) (f : α → Reader β) : (s >>= f).Takes := by
  change (s.bind f).Takes
  induction s with
  | done => exact hs.elim
  | fail | stop => trivial
  | next k ih =>
    intro t ht
    obtain ⟨c, place, hk⟩ := hs t ht
    exact ⟨c, place, congrArg (Reader.bind · f) hk⟩
  | peek k ih => exact fun t => ih t (hs t)
  | want kinds k ih => exact hs
  | look q k ih => exact fun b => ih b (hs b)

end Reader

open Parse (Read Ensures Leaves nextIs nextIs_cons)
open Reader (take token expect ask)

/-- The end of a walk that comes to what a reading gives, seen through `f`, with the cursor in front
of the tokens that the reading leaves. -/
inductive Ends (ts : List Token) (f : α → β) :
    Option (Except ParseError β × ℕ) → Read (α × List Token) → Prop where
  | ok (a : α) (j : ℕ) : Ends ts f (some (.ok (f a), j)) (.ok (a, ts.drop j))
  | error (e : ParseError) (j : ℕ) : Ends ts f (some (.error e, j)) (.error e)

namespace Ends

variable {f : α → β} {r : Read (α × List Token)}

theorem pure (a : α) : Ends ts f ((Pure.pure (f a) : Reader β).walk ts i) (.ok (a, ts.drop i)) :=
  .ok a i

theorem fail {place : ℕ} (ht : ts[place]? = some t) (c : Complaint) :
    Ends ts f ((Reader.fail c place).walk ts i) (.error (c.error t)) := by
  rw [Reader.walk, ht]
  exact .error _ _

theorem bind {s : Reader β} {g : β → Reader δ} {f' : γ → δ}
    {h : α × List Token → Read (γ × List Token)} (hs : Ends ts f (s.walk ts i) r)
    (hg : ∀ a j, r = .ok (a, ts.drop j) → Passes ts i j → (s.Takes → i < j) →
      Ends ts f' ((g (f a)).walk ts j) (h (a, ts.drop j))) :
    Ends ts f' ((s >>= g).walk ts i) (r >>= h) := by
  rw [Reader.walk_bind]
  cases hw : s.walk ts i with
  | none =>
    rw [hw] at hs
    cases hs
  | some x =>
    rw [hw] at hs
    cases hs with
    | ok a j => exact hg a j rfl (Reader.passes_of_walk hw) fun htakes => htakes.lt hw
    | error e j => exact .error e j

/-- The last step makes one result of another, in the reader and in the reading. -/
theorem map {s : Reader β} (hs : Ends ts f (s.walk ts i) r) (g : α → γ) {f' : γ → δ} {g' : β → δ}
    (hg : ∀ a, g' (f a) = f' (g a)) :
    Ends ts f' ((s >>= fun b => Pure.pure (g' b)).walk ts i) (r >>= fun x => .ok (g x.1, x.2)) := by
  refine hs.bind fun a j _ _ _ => ?_
  rw [hg]
  exact .pure (g a)

theorem relabel {x : Option (Except ParseError β × ℕ)} (h : Ends ts f x r) {f' : γ → β}
    {g : α × List Token → Read (γ × List Token)}
    (hg : ∀ a rest, ∃ c, g (a, rest) = .ok (c, rest) ∧ f a = f' c) : Ends ts f' x (r >>= g) := by
  cases h with
  | ok a j =>
    obtain ⟨c, hc, hf⟩ := hg a (ts.drop j)
    rw [hf]
    change Ends ts f' _ (g (a, ts.drop j))
    rw [hc]
    exact .ok c j
  | error e j => exact .error e j

theorem of_ok {x : Option (Except ParseError β × ℕ)} {a : α} {rest : List Token}
    (h : Ends ts f x (.ok (a, rest))) : ∃ j, x = some (.ok (f a), j) ∧ rest = ts.drop j := by
  cases h with
  | ok a j => exact ⟨j, rfl, rfl⟩

theorem exists_ok {x : Option (Except ParseError β × ℕ)} (h : Ends ts f x r) {b : β}
    (hx : x = some (.ok b, j)) : ∃ a, b = f a ∧ r = .ok (a, ts.drop j) := by
  cases h with
  | ok a j' =>
    obtain ⟨hb, rfl⟩ := Prod.mk.inj (Option.some.inj hx)
    exact ⟨a, (Except.ok.inj hb).symm, rfl⟩
  | error e j' => cases hx

theorem eq_ok {x : Option (Except ParseError β × ℕ)} (h : Ends ts f x r)
    (hf : Function.Injective f) {a : α} (hx : x = some (.ok (f a), j)) :
    r = .ok (a, ts.drop j) := by
  obtain ⟨a', ha, hr⟩ := h.exists_ok hx
  rw [hr, hf ha]

theorem eq_error {x : Option (Except ParseError β × ℕ)} (h : Ends ts f x r) {e : ParseError}
    (hx : x = some (.error e, j)) : r = .error e := by
  cases h with
  | ok a j' => cases hx
  | error e' j' =>
    cases hx
    rfl

theorem unique {x : Option (Except ParseError β × ℕ)} {r' : Read (α × List Token)}
    (h : Ends ts f x r) (h' : Ends ts f x r') (hf : Function.Injective f) : r = r' := by
  cases h with
  | ok a j => exact (h'.eq_ok hf rfl).symm
  | error e j =>
    cases h'
    rfl

theorem suffix {s : Reader β} (h : Ends ts f (s.walk ts i) r) :
    Ensures r fun _ rest => rest <:+ ts.drop i := by
  rintro a rest rfl
  obtain ⟨j, hwalk, rfl⟩ := h.of_ok
  exact List.drop_suffix_drop_left ts (Reader.passes_of_walk hwalk).le

/-- A reader that does not succeed before it takes a token leaves fewer of them. -/
theorem leaves {s : Reader β} (h : Ends ts f (s.walk ts i) r) (hs : s.Takes) :
    Ensures r fun _ rest => Leaves rest (ts.drop i) := by
  intro a rest hr
  refine ⟨h.suffix a rest hr, ?_⟩
  subst hr
  obtain ⟨j, hwalk, rfl⟩ := h.of_ok
  have hlt := hs.lt hwalk
  have hbound := (Reader.passes_of_walk hwalk).bound hlt
  rw [List.length_drop, List.length_drop]
  omega

theorem walk_eq {x : Option (Except ParseError β × ℕ)} (h : Ends ts f x r) :
    ∃ j, x = some ((r.map Prod.fst).map f, j) := by
  cases h with
  | ok a j => exact ⟨j, rfl⟩
  | error e j => exact ⟨j, rfl⟩

end Ends

theorem drop_eq_cons (h : ts[i]? = some t) : ts.drop i = t :: ts.drop (i + 1) := by
  obtain ⟨hi, rfl⟩ := List.getElem?_eq_some_iff.1 h
  exact List.drop_eq_getElem_cons hi

theorem drop_cases (ts : List Token) (i : ℕ) : (ts[i]? = none ∧ ts.drop i = []) ∨
    ∃ t, ts[i]? = some t ∧ ts.drop i = t :: ts.drop (i + 1) := by
  cases ht : ts[i]? with
  | none => exact .inl ⟨rfl, List.drop_eq_nil_of_le (List.getElem?_eq_none_iff.1 ht)⟩
  | some t => exact .inr ⟨t, rfl, drop_eq_cons ht⟩

section Steps

variable {g : Seen → Reader β} {f : α → β} {r : List Token → Read (α × List Token)}

theorem ends_none (h : ts[i]? = none) {s : Reader Seen} (hs : s = take ∨ s = token) :
    Ends ts f ((s >>= g).walk ts i) (.error .endOfTokens) := by
  rw [Reader.walk_bind]
  rcases hs with rfl | rfl
  · rw [take, Reader.walk, h]
    exact .error _ _
  · rw [token, Reader.walk, h]
    exact .error _ _

theorem walk_token (h : ts[i]? = some t) :
    (token >>= g).walk ts i = (g (t.seen i)).walk ts i := by
  rw [Reader.walk_bind, token, Reader.walk, h]
  rfl

theorem walk_take (h : ts[i]? = some t) :
    (take >>= g).walk ts i = (g (t.seen i)).walk ts (if t.kind = .eof then i else i + 1) := by
  rw [Reader.walk_bind, take, Reader.walk, h]
  rfl

theorem walk_ask (q : Look) (g : Bool → Reader β) :
    (ask q >>= g).walk ts i = (g (q.holds ts i)).walk ts i := rfl

theorem ends_token (hnil : r [] = .error .endOfTokens)
    (hcons : ∀ t, ts[i]? = some t → ts.drop i = t :: ts.drop (i + 1) →
      Ends ts f ((g (t.seen i)).walk ts i) (r (t :: ts.drop (i + 1)))) :
    Ends ts f ((token >>= g).walk ts i) (r (ts.drop i)) := by
  obtain ⟨hnone, hdrop⟩ | ⟨t, hsome, hdrop⟩ := drop_cases ts i
  · rw [hdrop, hnil]
    exact ends_none hnone (.inr rfl)
  · rw [hdrop, walk_token hsome]
    exact hcons t hsome hdrop

theorem ends_pass (hsome : ts[i]? = some t) (hkind : t.kind ≠ .eof) {r : Read (α × List Token)}
    (h : Ends ts f ((g (t.seen i)).walk ts (i + 1)) r) : Ends ts f ((take >>= g).walk ts i) r := by
  rw [walk_take hsome, if_neg hkind]
  exact h

/-- At an end mark the cursor stays, so that both have to fail there. -/
theorem ends_take (hnil : r [] = .error .endOfTokens)
    (heof : ∀ t rest, t.kind = .eof →
      ∃ c, r (t :: rest) = .error (c.error t) ∧ ∀ i, g (t.seen i) = .fail c i)
    (hcons : ∀ t, ts[i]? = some t → t.kind ≠ .eof →
      Ends ts f ((g (t.seen i)).walk ts (i + 1)) (r (t :: ts.drop (i + 1)))) :
    Ends ts f ((take >>= g).walk ts i) (r (ts.drop i)) := by
  obtain ⟨hnone, hdrop⟩ | ⟨t, hsome, hdrop⟩ := drop_cases ts i
  · rw [hdrop, hnil]
    exact ends_none hnone (.inl rfl)
  · rw [hdrop]
    by_cases hkind : t.kind = .eof
    · obtain ⟨c, hr, hg⟩ := heof t (ts.drop (i + 1)) hkind
      rw [hr, walk_take hsome, hg]
      exact .fail hsome c
    · exact ends_pass hsome hkind (hcons t hsome hkind)

theorem any_kind_eq_nextIs (kind : Kind) :
    ts[i]?.any (fun t => t.kind = kind) = nextIs kind (ts.drop i) := by
  obtain ⟨hnone, hdrop⟩ | ⟨t, hsome, hdrop⟩ := drop_cases ts i
  · rw [hnone, hdrop]
    rfl
  · rw [hsome, hdrop]
    rfl

theorem any_mem_eq_nextIs (kinds : List Kind) :
    ts[i]?.any (fun t => t.kind ∈ kinds) = kinds.any (nextIs · (ts.drop i)) := by
  obtain ⟨hnone, hdrop⟩ | ⟨t, hsome, hdrop⟩ := drop_cases ts i
  · rw [hnone, hdrop, Option.any_none]
    simp [nextIs]
  · rw [hsome, hdrop, Option.any_some, Bool.eq_iff_iff]
    simp [nextIs_cons]

theorem walk_next (kind : Kind) (g : Bool → Reader β) :
    (ask (.next kind) >>= g).walk ts i = (g (nextIs kind (ts.drop i))).walk ts i := by
  rw [walk_ask, Look.holds, any_kind_eq_nextIs]

theorem walk_target (commas : Bool) (g : Bool → Reader β) :
    (ask (.target commas) >>= g).walk ts i =
      (g (nextIs .ident (ts.drop i) &&
        (Parse.separators commas).any (nextIs · (ts.drop (i + 1))))).walk ts i := by
  rw [walk_ask, Look.holds, any_kind_eq_nextIs, any_mem_eq_nextIs]

theorem walk_clause (word : Keyword) (g : Bool → Reader β) :
    (ask (.clause word) >>= g).walk ts i =
      (g (nextIs (.keyword .kung) (ts.drop i) &&
        nextIs (.keyword word) (ts.drop (i + 1)))).walk ts i := by
  rw [walk_ask, Look.holds, any_kind_eq_nextIs, any_kind_eq_nextIs]

theorem nextIs_drop {kind : Kind} (h : nextIs kind (ts.drop i) = true) :
    ∃ t, ts[i]? = some t ∧ t.kind = kind ∧ ts.drop i = t :: ts.drop (i + 1) := by
  obtain ⟨-, hdrop⟩ | ⟨t, hsome, hdrop⟩ := drop_cases ts i
  · rw [hdrop] at h
    cases h
  · rw [hdrop] at h
    exact ⟨t, hsome, of_decide_eq_true h, hdrop⟩

theorem walk_expect {kinds : List Kind} (hsome : ts[i]? = some t) (hmem : t.kind ∈ kinds)
    (hkind : t.kind ≠ .eof) :
    (expect kinds >>= g).walk ts i = (g (t.seen i)).walk ts (i + 1) := by
  rw [Reader.walk_bind, expect, Reader.walk, hsome]
  simp only [if_pos hmem, if_neg hkind]
  rfl

theorem ends_known {kind : Kind} (hkind : kind ≠ .eof) (hnext : nextIs kind (ts.drop i) = true)
    {r : Read (α × List Token)}
    (h : ∀ t, t.kind = kind → ts.drop i = t :: ts.drop (i + 1) →
      Ends ts f ((g (t.seen i)).walk ts (i + 1)) r) :
    Ends ts f ((expect [kind] >>= g).walk ts i) r := by
  obtain ⟨t, hsome, ht, hdrop⟩ := nextIs_drop hnext
  rw [walk_expect hsome (List.mem_singleton.2 ht) (ht ▸ hkind)]
  exact h t ht hdrop

theorem expect_ends {kinds : List Kind} (heof : .eof ∉ kinds) :
    Ends ts (·.seen i) ((expect kinds).walk ts i) (Parse.expect kinds (ts.drop i)) := by
  rw [expect, Reader.walk]
  obtain ⟨hnone, hdrop⟩ | ⟨t, hsome, hdrop⟩ := drop_cases ts i
  · rw [hnone, hdrop]
    exact .error _ _
  · rw [hsome, hdrop, Parse.expect]
    by_cases hmem : t.kind ∈ kinds
    · have hkind : t.kind ≠ .eof := fun h => heof (h ▸ hmem)
      simp only [if_pos hmem, if_neg hkind]
      exact .ok t (i + 1)
    · simp only [if_neg hmem]
      exact .error _ _

end Steps

end Bisaya
