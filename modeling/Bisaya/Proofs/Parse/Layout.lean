import Bisaya.Proofs.Parse.Lockstep

namespace Bisaya.Parse

/-- For each token but the last, whether it is a `DILI` with the end of its line behind it. -/
def lineEnds (ts : List Token) : List Bool :=
  List.zipWith (fun t next => t.kind = .keyword .dili && t.position.line < next.position.line)
    ts ts.tail

/-- The lists have the same tokens at positions that may differ; but behind a `DILI` a line ends in
both or in neither. -/
structure Reformats (ts ts' : List Token) : Prop where
  kinds : ts'.map Token.kind = ts.map Token.kind
  literals : ts'.map Token.literal = ts.map Token.literal
  lineEnds : lineEnds ts' = lineEnds ts

theorem Reformats.alike {ts ts' : List Token} (h : Reformats ts ts') : Alike ts ts' where
  seen k := by
    have hkind := congrArg (·[k]?) h.kinds
    have hliteral := congrArg (·[k]?) h.literals
    simp only [List.getElem?_map] at hkind hliteral
    cases ht : ts[k]? with
    | none =>
      rw [ht] at hkind
      rw [Option.map_eq_none_iff.1 hkind]
    | some t =>
      rw [ht] at hkind hliteral
      obtain ⟨t', ht', hkind⟩ := Option.map_eq_some_iff.1 hkind
      rw [ht'] at hliteral ⊢
      have hliteral : t'.literal = t.literal := Option.some.inj hliteral
      simp only [Option.map_some, Token.seen, hkind, hliteral]
  line k := by
    intro t t' next next' hdili ht ht' hnext hnext'
    have hkinds := congrArg (·[k]?) h.kinds
    simp only [List.getElem?_map, ht, ht', Option.map_some, Option.some.injEq] at hkinds
    have hends := congrArg (·[k]?) h.lineEnds
    simp only [Parse.lineEnds, List.getElem?_zipWith, List.getElem?_tail, ht, ht', hnext, hnext',
      hkinds, hdili, decide_true, Bool.true_and, Option.some.injEq, decide_eq_decide] at hends
    exact hends

/-- What a program is read as does not depend on the positions of its tokens, the line ends behind
`DILI` apart. If the reading fails, it fails for the same reason at the same token. -/
theorem program_of_reformats {ts ts' : List Token} (h : Reformats ts ts') :
    (∃ p, program ts = .ok p ∧ program ts' = .ok p) ∨
      ∃ e e', program ts = .error e ∧ program ts' = .error e' ∧
        ErrorsAlike (SamePlace ts ts') e e' := by
  have hlength : ts'.length = ts.length := by simpa using congrArg List.length h.kinds
  have hwhole := Reader.program_ends (le_refl ts.length)
  have hwhole' := Reader.program_ends hlength.le
  have hsteps := (Reader.program ts.length).walk_alike h.alike 0
  rw [Reader.program_eq, Reader.program_eq]
  generalize (Reader.program ts.length).walk ts 0 = x at hwhole hsteps
  generalize (Reader.program ts.length).walk ts' 0 = x' at hwhole' hsteps
  generalize Reader.whole ts = r at hwhole ⊢
  generalize Reader.whole ts' = r' at hwhole' ⊢
  cases hwhole with
  | ok p j =>
    cases hsteps with
    | ok => exact .inl ⟨p, rfl, by rw [hwhole'.eq_ok bodyTree_injective rfl]; rfl⟩
  | error e j =>
    cases hsteps with
    | error halike =>
      cases hwhole' with
      | error => exact .inr ⟨e, _, rfl, rfl, halike⟩

def negations (lines : List ℕ) : List Token :=
  List.zipWith (fun t line => ⟨t.1, t.2, ⟨line, 1⟩⟩)
    [(.keyword .sugod, "SUGOD"), (.ident, "t"), (.mark .assign, "="), (.keyword .dili, "DILI"),
      (.ident, "u"), (.mark .assign, "="), (.keyword .dili, "DILI"), (.ident, "t"),
      (.keyword .katapusan, "KATAPUSAN"), (.eof, "EOF")] lines

/-- The first `DILI` has the end of its line behind it, and the second its operand. -/
theorem program_of_negations :
    let lines := [1, 2, 2, 2, 3, 3, 3, 3, 4, 4]
    let lines' := [1, 1, 5, 5, 7, 9, 9, 9, 9, 10]
    let p : Program := [.assign ⟨["t"], .lit (.tinuod false)⟩,
      .assign ⟨["u"], .unary .dili (.var "t")⟩]
    Reformats (negations lines) (negations lines') ∧
      program (negations lines) = .ok p ∧ program (negations lines') = .ok p := by
  intro lines lines' p
  have hreformats : Reformats (negations lines) (negations lines') := ⟨rfl, rfl, by decide⟩
  have hread : program (negations lines) = .ok p := rfl
  rcases program_of_reformats hreformats with ⟨q, hq, hread'⟩ | ⟨e, e', he, -⟩
  · obtain rfl : p = q := Except.ok.inj (hread.symm.trans hq)
    exact ⟨hreformats, hread, hread'⟩
  · cases hread.symm.trans he

end Bisaya.Parse
