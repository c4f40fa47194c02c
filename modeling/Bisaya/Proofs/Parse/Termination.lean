import Bisaya.Proofs.Parse.Tracing

namespace Bisaya.Reader

open Parse (Read)

variable {ts : List Token} {α β : Type} {i : ℕ}

/-- Under the bound `n` the walk ends wherever it starts, and if it does not fail then the cursor
has moved. -/
def Advances (ts : List Token) (n : ℕ) (s : Reader α) : Prop :=
  ∀ i, ts.length - i < n → ∃ r j, s.walk ts i = some (r, j) ∧ Passes ts i j ∧ ∀ a, r = .ok a → i < j

theorem Takes.advances {s : Reader β} (hs : s.Takes) {f : α → β} {r : Read (α × List Token)}
    (h : Ends ts f (s.walk ts i) r) :
    ∃ r j, s.walk ts i = some (r, j) ∧ Passes ts i j ∧ ∀ a, r = .ok a → i < j := by
  cases hw : s.walk ts i with
  | none =>
    rw [hw] at h
    cases h
  | some x =>
    obtain ⟨r', j⟩ := x
    refine ⟨r', j, rfl, passes_of_walk hw, fun a ha => ?_⟩
    rw [ha] at hw
    exact hs.lt hw

theorem stmt_advances (ts : List Token) (n : ℕ) : Advances ts n (stmt n (stmts n)) := by
  intro i hi
  obtain ⟨hnone, -⟩ | ⟨t, hsome, -⟩ := drop_cases ts i
  · have hend : Ends ts Stmt.tree ((stmt n (stmts n)).walk ts i) (.error .endOfTokens) :=
      ends_none hnone (.inl rfl)
    exact (stmt_takes n _).advances hend
  · have hstmt : Ends ts Stmt.tree ((stmt n (stmts n)).walk ts i)
        (Parse.stmt (Parse.stmts ts.length) t (ts.drop (i + 1))) :=
      stmt_ends (k := ts.length - i)
        (fun frame frame' j hframe hj => stmts_ends hframe (by omega) (by omega)) (by omega)
        (by omega) hsome
    exact (stmt_takes n _).advances hstmt

theorem branch_advances (ts : List Token) (n : ℕ) : Advances ts n (branch n (stmts n)) := by
  intro i hi
  have hinner (frame : Frame) (frame' : Parse.Frame) (j : ℕ) (hframe : FrameAt ts frame frame')
      (hj : ts.length - j ≤ ts.length - i) : Ends ts bodyTree ((stmts n frame).walk ts j)
        (Parse.stmts ts.length frame' (ts.drop j)) :=
    stmts_ends hframe (by omega) (by omega)
  exact (branch_takes n _).advances (branch_ends hinner le_rfl hi)

theorem operand_advances (ts : List Token) (n : ℕ) : Advances ts n (operand (exprAbove n)) := by
  intro i hi
  have hoperand : Ends ts Expr.tree ((operand (exprAbove n)).walk ts i)
      (Parse.operand (Parse.exprAbove ts.length) (ts.drop i)) :=
    operand_ends fun _ level => (exprAbove_climb_ends n).1 _ level _ (by omega) (by omega)
  exact (operand_takes _).advances hoperand

/-- The tokens need not end with an end mark, and one may stand anywhere between them. -/
theorem program_terminates (ts : List Token) (extra : ℕ) :
    (∃ j, (program (ts.length + extra)).walk ts 0 =
        some ((Parse.program ts).map Program.tree, j) ∧ Passes ts 0 j) ∧
    ∀ n, Advances ts n (stmt n (stmts n)) ∧ Advances ts n (branch n (stmts n)) ∧
      Advances ts n (operand (exprAbove n)) ∧ Advances ts n (segment n) ∧
      Advances ts n name ∧ (∀ ty, Advances ts n (item ty)) ∧
      ∀ commas, Advances ts n (target commas) := by
  refine ⟨?_, fun n => ⟨stmt_advances ts n, branch_advances ts n, operand_advances ts n, ?_, ?_, ?_,
    ?_⟩⟩
  · obtain ⟨j, hwalk⟩ := (program_ends (ts.length.le_add_right extra)).walk_eq
    rw [program_eq]
    exact ⟨j, hwalk, passes_of_walk hwalk⟩
  · exact fun i hi => (segment_takes n).advances (segment_ends hi)
  · exact fun i _ => name_takes.advances name_ends
  · exact fun ty i _ => (item_takes ty).advances (item_ends ty)
  · exact fun commas i _ => (target_takes commas).advances (target_ends commas)

/-- The cursor stays in front of an end mark, whatever stands behind it. -/
example (p : Position) : (program 3).walk [⟨.keyword .sugod, "SUGOD", p⟩, ⟨.eof, "", p⟩,
    ⟨.keyword .katapusan, "KATAPUSAN", p⟩] 0 = some (.error (.missingEnd p), 1) := rfl

end Bisaya.Reader
