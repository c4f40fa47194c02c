import Mathlib
import Bisaya.Run.Script

namespace Bisaya

namespace Segment

def endsLine : Segment → Bool
  | newline => true
  | _ => false

/-- Why the segment cannot be shown, if it cannot. -/
def failure? (env : Env) : Segment → Option RuntimeError
  | expr e =>
    match e.eval env with
    | .ok _ => none
    | .error err => some err
  | _ => none

def shown (env : Env) : Segment → String
  | newline => ""
  | escape c => String.singleton c
  | expr e =>
    match e.eval env with
    | .ok v => v.text
    | .error _ => ""

/-- What the segment evaluates to if it can be shown. -/
def piece (env : Env) (s : Segment) : Option String :=
  if s.endsLine then none else some (s.shown env)

variable {env : Env} {s : Segment}

theorem eval_eq_piece (h : s.failure? env = none) : s.eval env = .ok (s.piece env) := by
  cases s with
  | newline => rfl
  | escape c => rfl
  | expr e =>
    cases hv : e.eval env with
    | ok v => simp [eval, piece, endsLine, shown, hv]
    | error err => simp [failure?, hv] at h

theorem eval_eq_error {err : RuntimeError} (h : s.failure? env = some err) :
    s.eval env = .error err := by
  cases s with
  | newline => cases h
  | escape c => cases h
  | expr e =>
    cases hv : e.eval env with
    | ok v => simp [failure?, hv] at h
    | error err' =>
      simp only [failure?, hv] at h
      rw [eval, hv, Option.some.inj h]
      rfl

end Segment

def shownText (env : Env) (segments : List Segment) : String :=
  String.join (segments.map (Segment.shown env))

/-- The lines of the groups between the line ends, less those without text. -/
def shownLines (env : Env) (segments : List Segment) : List String :=
  ((segments.splitOnP Segment.endsLine).map (shownText env)).filter (· ≠ "")

/-- The error of the first segment that cannot be shown. -/
def firstFailure? (env : Env) (segments : List Segment) : Option RuntimeError :=
  segments.findSome? (Segment.failure? env)

section Render

variable {env : Env} {segments : List Segment}

theorem mapM_eval_eq_pieces (h : firstFailure? env segments = none) :
    segments.mapM (Segment.eval env) = .ok (segments.map (Segment.piece env)) := by
  unfold firstFailure? at h
  induction segments with
  | nil => rfl
  | cons s segments ih =>
    rw [List.findSome?_eq_none_iff] at h
    have hs := Segment.eval_eq_piece (h s (List.mem_cons_self ..))
    have hrest := ih (List.findSome?_eq_none_iff.2 fun t ht => h t (List.mem_cons_of_mem s ht))
    rw [List.mapM_cons, hs, hrest]
    rfl

theorem mapM_eval_eq_error {err : RuntimeError} (h : firstFailure? env segments = some err) :
    segments.mapM (Segment.eval env) = .error err := by
  unfold firstFailure? at h
  induction segments with
  | nil => cases h
  | cons s segments ih =>
    rw [List.mapM_cons]
    cases hs : s.failure? env with
    | some err' =>
      rw [List.findSome?_cons_of_isSome (by simp [hs]), hs] at h
      rw [Segment.eval_eq_error hs, Option.some.inj h]
      rfl
    | none =>
      rw [List.findSome?_cons_of_isNone (by simp [hs])] at h
      rw [Segment.eval_eq_piece hs, ih h]
      rfl

theorem modifyHead_empty_append (lines : List String) : lines.modifyHead ("" ++ ·) = lines := by
  cases lines <;> simp

/-- The line that has begun goes in front of the first group. -/
theorem splitLines_pieces (env : Env) (line : String) (segments : List Segment) :
    splitLines line (segments.map (Segment.piece env)) =
      ((segments.splitOnP Segment.endsLine).map (shownText env)).modifyHead (line ++ ·) := by
  induction segments generalizing line with
  | nil => simp [splitLines, shownText]
  | cons s segments ih =>
    rw [List.map_cons, List.splitOnP_cons_eq_if_modifyHead]
    cases hs : s.endsLine with
    | true =>
      rw [show s.piece env = none by simp [Segment.piece, hs], splitLines, ih,
        modifyHead_empty_append]
      simp [shownText]
    | false =>
      rw [show s.piece env = some (s.shown env) by simp [Segment.piece, hs], splitLines, ih]
      -- the segment joins the first group of those behind it
      cases segments.splitOnP Segment.endsLine with
      | nil => rfl
      | cons group groups => simp [shownText, String.append_assoc]

theorem join_groups (env : Env) (segments : List Segment) :
    String.join ((segments.splitOnP Segment.endsLine).map (shownText env)) =
      shownText env segments := by
  induction segments with
  | nil => rfl
  | cons s segments ih =>
    rw [List.splitOnP_cons_eq_if_modifyHead]
    unfold shownText at ih ⊢
    cases s with
    | newline => simpa [Segment.endsLine, Segment.shown] using ih
    | _ =>
      rw [List.map_cons, String.join_cons, ← ih]
      cases hgroups : segments.splitOnP Segment.endsLine with
      | nil => exact absurd hgroups (List.splitOnP_ne_nil _ _)
      | cons group groups => simp [Segment.endsLine, String.append_assoc]

theorem join_filter_ne_empty (lines : List String) :
    String.join (lines.filter (· ≠ "")) = String.join lines := by
  induction lines with
  | nil => rfl
  | cons line lines ih =>
    by_cases hline : line = "" <;> simp_all

theorem render_eq_shownLines (h : firstFailure? env segments = none) :
    render env segments = .ok (shownLines env segments) := by
  rw [render, mapM_eval_eq_pieces h]
  show Except.ok ((splitLines "" (segments.map (Segment.piece env))).filter (· ≠ "")) = _
  rw [splitLines_pieces, modifyHead_empty_append, shownLines]

theorem render_eq_error {err : RuntimeError} (h : firstFailure? env segments = some err) :
    render env segments = .error err := by
  rw [render, mapM_eval_eq_error h]
  rfl

end Render

/-- A print statement either fails, with the error of the leftmost segment that cannot be evaluated,
and then prints nothing; or it prints the groups of its segments that show any text. So no line is
empty, and the lines together hold all that the segments show, in order. -/
theorem Stmt.exec_print (n : ℕ) (segments : List Segment) (m : Machine) (answers : List String) :
    (∀ err, firstFailure? m.env segments = some err →
      render m.env segments = .error err ∧
        ((Stmt.print segments).exec n m).play answers = ⟨.failed err, m, [], answers⟩) ∧
    (firstFailure? m.env segments = none →
      render m.env segments = .ok (shownLines m.env segments) ∧
        ((Stmt.print segments).exec n m).play answers =
          ⟨.done, ⟨m.env, m.output ++ shownLines m.env segments⟩, [], answers⟩) ∧
    "" ∉ shownLines m.env segments ∧
    String.join (shownLines m.env segments) = shownText m.env segments := by
  refine ⟨?_, ?_, ?_, ?_⟩
  · intro err h
    have hrender := render_eq_error h
    rw [Stmt.exec, Run.print, hrender]
    exact ⟨rfl, rfl⟩
  · intro h
    have hrender := render_eq_shownLines h
    rw [Stmt.exec, Run.print, hrender]
    exact ⟨rfl, rfl⟩
  · simp [shownLines]
  · rw [shownLines, join_filter_ne_empty, join_groups]

/-- Two lines are whole before the first name that is not declared, and still nothing is printed. -/
theorem Stmt.exec_print_undeclared :
    let segments : List Segment := [.newline, .expr (.lit (.letra "a")), .newline, .newline,
      .escape '#', .newline, .expr (.var "x"), .expr (.var "y")]
    firstFailure? .empty segments = some (.undefined "x") ∧
      ((Stmt.print segments).exec 0 .start).play ["b"] =
        ⟨.failed (.undefined "x"), .start, [], ["b"]⟩ := by
  intro segments
  have hfailure : firstFailure? .empty segments = some (.undefined "x") := by decide
  exact ⟨hfailure, ((Stmt.exec_print 0 segments .start ["b"]).1 _ hfailure).2⟩

end Bisaya
