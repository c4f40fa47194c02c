import Bisaya.Proofs.Parse.Stranded

namespace Bisaya

open Parse Piece

theorem Parse.Moved.of_after {l l' n : ℕ} {t t' : Token} (h : Moved (l + n) (l' + n) t t') :
    Moved l l' t t' := by
  have hline := h.line
  exact ⟨h.kind, h.literal, by omega⟩

/-- The same pieces elsewhere give the same tokens, moved by the same number of lines. -/
theorem lexemes_moved (p p' : Position) (ps : List Piece) :
    (lexemes p ps).Forall₂ (Moved p.line p'.line) (lexemes p' ps) := by
  have hbehind {p p' : Position} {text : List Char} {ts ts' : List Token}
      (h : ts.Forall₂ (Moved (p.after text).line (p'.after text).line) ts') :
      ts.Forall₂ (Moved p.line p'.line) ts' := by
    rw [Position.line_after, Position.line_after] at h
    exact h.imp fun _ _ h => h.of_after
  fun_induction lexemes p ps generalizing p' with
  | case1 => exact .nil
  | case2 p kind text rest ih => exact .cons ⟨rfl, rfl, Nat.add_comm ..⟩ (hbehind (ih _))
  | case3 p piece rest hpiece ih =>
    rw [lexemes]
    · exact hbehind (ih _)
    · exact hpiece

theorem tokens_eq (p : Position) (ps : List Piece) :
    tokens p ps = lexemes p ps ++ [.ofKind .eof (p.after (ps.flatMap text))] := by
  have hend := tokens_append p ps []
  rwa [List.append_nil] at hend

theorem tokens_moved (p p' : Position) (ps : List Piece) :
    (tokens p ps).Forall₂ (Moved p.line p'.line) (tokens p' ps) := by
  rw [tokens_eq, tokens_eq]
  refine List.rel_append (lexemes_moved p p' ps) (.cons ⟨rfl, rfl, ?_⟩ .nil)
  simp only [Token.ofKind, Position.line_after]
  omega

/-- A comment stands on the last line, where it goes on to the end. -/
def EndsInComment (a : String) : Prop :=
  ∃ text, (cut false a.toList).getLast? = some (.comment text)

/-- The last token is a `DILI`, and stands on the last line. -/
def EndsInDili (a : String) : Prop :=
  ∃ front t last, tokenize a = front ++ [t, last] ∧ t.kind = .keyword .dili ∧
    t.position.line = last.position.line

/-- The first tokens are a name on the line `l` and a comma. -/
def BeginWithTargets (l : ℕ) (ts : List Token) : Prop :=
  ∃ u v rest, ts = u :: v :: rest ∧ u.kind = .ident ∧ v.kind = .mark .comma ∧ u.position.line = l

/-- A `DILI` at the end of one text takes the first name of the other as its operand, which leaves
the comma behind the name stranded. A declaration has no operands. -/
def Strands (a b : String) (p : Program) : Prop :=
  EndsInDili a ∧ BeginWithTargets 1 (tokenize b) ∧ endsInDeclaration p = false

theorem exists_mem_getLast? {α β : Type} {R : α → β → Prop} {as : List α} {bs : List β}
    (h : as.Forall₂ R bs) {a : α} (ha : a ∈ as.getLast?) : ∃ b ∈ bs.getLast?, R a b := by
  rw [← List.forall₂_reverse_iff] at h
  rw [← List.head?_reverse] at ha ⊢
  generalize as.reverse = as, bs.reverse = bs at h ha ⊢
  cases h with
  | nil => cases ha
  | cons hab =>
    cases ha
    exact ⟨_, rfl, hab⟩

/-- Whether the last line ends in `DILI` can be told from the tokens at any place. -/
theorem endsInDili_iff (a : String) (p : Position) : EndsInDili a ↔
    ∃ t ∈ (lexemes p (cut false a.toList)).getLast?, t.kind = .keyword .dili ∧
      t.position.line = (p.after a.toList).line := by
  have hmove (p p' : Position) {t : Token} (ht : t ∈ (lexemes p (cut false a.toList)).getLast?)
      (hk : t.kind = .keyword .dili) (hline : t.position.line = (p.after a.toList).line) :
      ∃ t ∈ (lexemes p' (cut false a.toList)).getLast?, t.kind = .keyword .dili ∧
        t.position.line = (p'.after a.toList).line := by
    obtain ⟨t', ht', hmoved⟩ := exists_mem_getLast? (lexemes_moved p p' _) ht
    refine ⟨t', ht', hmoved.kind.trans hk, ?_⟩
    have hlines := hmoved.line
    rw [Position.line_after] at hline ⊢
    omega
  have htokens : tokenize a = lexemes .start (cut false a.toList) ++
      [.ofKind .eof (Position.start.after a.toList)] := by
    rw [tokenize, tokens_eq, cut_text]
  constructor
  · rintro ⟨front, t, last, hsplit, hk, hline⟩
    have hconcat : front ++ [t, last] = (front ++ [t]) ++ [last] := by simp
    rw [htokens, hconcat] at hsplit
    obtain ⟨hfront, hlast⟩ := List.append_inj' hsplit rfl
    cases hlast
    refine hmove .start p ?_ hk hline
    rw [hfront]
    exact List.getLast?_concat ..
  · rintro ⟨t, ht, hk, hline⟩
    obtain ⟨t, ht, hk, hline⟩ := hmove p .start ht hk hline
    obtain ⟨front, hfront⟩ := List.getLast?_eq_some_iff.1 ht
    refine ⟨front, t, .ofKind .eof (Position.start.after a.toList), ?_, hk, hline⟩
    rw [htokens, hfront, List.append_assoc]
    rfl

theorem BeginWithTargets.moved {l l' : ℕ} {ts ts' : List Token} (h : BeginWithTargets l ts)
    (hmoved : ts.Forall₂ (Moved l l') ts') : BeginWithTargets l' ts' := by
  obtain ⟨u, v, rest, rfl, hu, hv, hline⟩ := h
  cases hmoved with
  | cons hmoved hrest =>
    cases hrest with
    | cons hmoved' =>
      have hlines := hmoved.line
      exact ⟨_, _, _, rfl, hmoved.kind.trans hu, hmoved'.kind.trans hv, by omega⟩

/-- Targets do not reach into an end of a program. -/
theorem beginWithTargets_append {l : ℕ} {ts us : List Token}
    (hus : ∀ t ∈ us, t.kind ∈ foreignKinds) :
    BeginWithTargets l (ts ++ us) ↔ BeginWithTargets l ts := by
  have hident : .ident ∉ foreignKinds := by decide
  have hcomma : .mark .comma ∉ foreignKinds := by decide
  constructor
  · rintro ⟨u, v, rest, hsplit, hu, hv, hline⟩
    rcases ts with _ | ⟨t, _ | ⟨t', ts⟩⟩
    · have hmem := hus u (by rw [show us = _ from hsplit]; simp)
      rw [hu] at hmem
      exact absurd hmem hident
    · have hmem := hus v (by rw [show us = _ from (List.cons.inj hsplit).2]; simp)
      rw [hv] at hmem
      exact absurd hmem hcomma
    · simp only [List.cons_append, List.cons.injEq] at hsplit
      obtain ⟨rfl, rfl, -⟩ := hsplit
      exact ⟨t, t', ts, rfl, hu, hv, hline⟩
  · rintro ⟨u, v, rest, rfl, hu, hv, hline⟩
    exact ⟨u, v, rest ++ us, rfl, hu, hv, hline⟩

/-- Whether a text begins with targets can be told from its tokens at any place. -/
theorem beginWithTargets_closing (b : String) (p : Position) :
    BeginWithTargets p.line (tokens p (closing b.toList)) ↔ BeginWithTargets 1 (tokenize b) := by
  have hclosing : ∀ t ∈ tokens (p.after ((cut false b.toList).flatMap text))
      [blank '\n', ofKeyword .katapusan], t.kind ∈ foreignKinds := by
    simp [tokens, foreignKinds, Token.ofKind]
  have hend : ∀ t ∈ [Token.ofKind .eof (Position.start.after ((cut false b.toList).flatMap text))],
      t.kind ∈ foreignKinds := by
    simp [foreignKinds, Token.ofKind]
  rw [closing, tokens_append, beginWithTargets_append hclosing, tokenize, tokens_eq,
    beginWithTargets_append hend]
  exact ⟨fun h => h.moved (lexemes_moved p .start _), fun h => h.moved (lexemes_moved .start p _)⟩

def besidePlace (a : String) : Position := (Position.after ⟨2, 1⟩ a.toList).next ' '

theorem stranded_iff (a b : String) :
    Stranded (lexemes ⟨2, 1⟩ (cut false a.toList)) (tokens (besidePlace a) (closing b.toList)) ↔
      EndsInDili a ∧ BeginWithTargets 1 (tokenize b) := by
  have hline : (besidePlace a).line = (Position.after ⟨2, 1⟩ a.toList).line := rfl
  rw [endsInDili_iff a ⟨2, 1⟩, ← beginWithTargets_closing b (besidePlace a), hline]
  constructor
  · rintro ⟨front, t, u, v, more, hfront, htokens, ht, hu, hv, hsame⟩
    have hlast : t ∈ (lexemes ⟨2, 1⟩ (cut false a.toList)).getLast? := by
      rw [hfront]
      exact List.getLast?_concat ..
    -- the first text holds nothing below its last line, and the second nothing above that line
    have habove := (mem_lexemes (List.mem_of_getLast? hlast)).2
    have hfirst : u ∈ tokens (besidePlace a) (closing b.toList) := by
      rw [htokens]
      exact List.mem_cons_self ..
    have hbelow := line_le_of_mem_tokens hfirst
    rw [cut_text] at habove
    exact ⟨⟨t, hlast, ht, by omega⟩, u, v, more, htokens, hu, hv, by omega⟩
  · rintro ⟨⟨t, hlast, ht, habove⟩, u, v, more, htokens, hu, hv, hbelow⟩
    obtain ⟨front, hfront⟩ := List.getLast?_eq_some_iff.1 hlast
    exact ⟨front, t, u, v, more, hfront, htokens, ht, hu, hv, by omega⟩

/-- The lines of two programs with a space between them, with nothing cut differently there. -/
theorem tokens_enclosed_space {a b : String} {p q : Program}
    (hp : program (tokens .start (cut false (enclosed a.toList))) = .ok p)
    (hq : program (tokens .start (cut false (enclosed b.toList))) = .ok q)
    (hcomment : ¬ EndsInComment a) (hdash : ¬ EndsInDashes a.toList) :
    tokens .start (cut false (enclosed (a.toList ++ ' ' :: b.toList))) =
      opening :: (lexemes ⟨2, 1⟩ (cut false a.toList) ++
        tokens (besidePlace a) (closing b.toList)) := by
  have hbracket : a.toList.getLast? = some '[' →
      (b.toList ++ '\n' :: Keyword.katapusan.text.toList).head? ≠ some ']' := fun _ => by
    have hhead := head?_of_program hq
    generalize b.toList = b at hhead
    cases b with
    | nil => decide
    | cons c b => exact hhead
  rw [cut_enclosed, List.append_assoc, List.cons_append, cut_append_space (closed_of_program hp)
    hbracket (not_exists.1 hcomment) hdash, cut_closing hq]
  change opening :: tokens ⟨2, 1⟩ (cut false a.toList ++ blank ' ' :: closing b.toList) = _
  rw [tokens_append, cut_text]
  rfl

/-- Two programs on one line are a program with the statements of both, unless a `DILI` takes a name
that was the first of several targets. Then it fails at the comma. -/
theorem parse_space_append {a b : String} {p q : Program} (hcomment : ¬ EndsInComment a)
    (hdash : ¬ EndsInDashes a.toList) (hp : parse ("SUGOD\n" ++ a ++ "\nKATAPUSAN") = .ok p)
    (hq : parse ("SUGOD\n" ++ b ++ "\nKATAPUSAN") = .ok q) :
    (¬ Strands a b p → parse ("SUGOD\n" ++ a ++ " " ++ b ++ "\nKATAPUSAN") = .ok (p ++ q)) ∧
      (Strands a b p → ∃ t, t.kind = .mark .comma ∧
        parse ("SUGOD\n" ++ a ++ " " ++ b ++ "\nKATAPUSAN") = .error (.unexpected t)) := by
  rw [parse_enclosed] at hp hq
  have hlines : "SUGOD\n" ++ a ++ " " ++ b ++ "\nKATAPUSAN" =
      "SUGOD\n" ++ (a ++ " " ++ b) ++ "\nKATAPUSAN" := by simp only [String.append_assoc]
  have hjoined : (a ++ " " ++ b).toList = a.toList ++ ' ' :: b.toList := by simp
  rw [hlines, parse_enclosed, hjoined, tokens_enclosed_space hp hq hcomment hdash]
  have hbody := kind_of_lines hp
  rw [tokens_enclosed hp, closing, tokens_append] at hp
  rw [tokens_enclosed hq] at hq
  obtain ⟨hapart, hstranded⟩ := program_beside hbody rfl rfl hp hq
    (tokens_moved ⟨2, 1⟩ (besidePlace a) (closing b.toList))
  rw [stranded_iff] at hapart hstranded
  constructor
  · intro hstrands
    apply hapart
    cases hdeclaration : endsInDeclaration p with
    | true => exact .inr rfl
    | false => exact .inl fun hboth => hstrands ⟨hboth.1, hboth.2, hdeclaration⟩
  · rintro ⟨hdili, htargets, hother⟩
    exact hstranded ⟨hdili, htargets⟩ hother

theorem not_endsInDashes_of_not_mem {cs : List Char} (h : '-' ∉ cs) : ¬ EndsInDashes cs := by
  rintro ⟨padding, hdashes, -⟩
  exact h (hdashes.mem (List.mem_cons_self ..))

theorem not_endsInComment_of_getLast? {a : String} {kind : Kind} {text : List Char}
    (h : (cut false a.toList).getLast? = some (lexeme kind text)) : ¬ EndsInComment a := by
  rintro ⟨text, hcomment⟩
  rw [h] at hcomment
  cases hcomment

/-- A `DILI` is told from the name behind it by the step of that name. -/
theorem parse_dili_space_step :
    let p : Program := [.declare .tinuod [⟨"t", none⟩], .assign ⟨["t"], .lit (.tinuod false)⟩]
    let q : Program := [.step ⟨"n", .down⟩]
    parse ("SUGOD\n" ++ "MUGNA TINUOD t\nt = DILI" ++ "\nKATAPUSAN") = .ok p ∧
      parse ("SUGOD\n" ++ "n--" ++ "\nKATAPUSAN") = .ok q ∧
      parse ("SUGOD\n" ++ "MUGNA TINUOD t\nt = DILI" ++ " " ++ "n--" ++ "\nKATAPUSAN") =
        .ok (p ++ q) := by
  intro p q
  have hp : parse ("SUGOD\n" ++ "MUGNA TINUOD t\nt = DILI" ++ "\nKATAPUSAN") = .ok p := by cbv
  have hq : parse ("SUGOD\n" ++ "n--" ++ "\nKATAPUSAN") = .ok q := by cbv
  have hlast : (cut false "MUGNA TINUOD t\nt = DILI".toList).getLast? =
      some (lexeme (.keyword .dili) "DILI".toList) := by cbv
  have hstrands : ¬ Strands "MUGNA TINUOD t\nt = DILI" "n--" p := by
    rintro ⟨-, ⟨u, v, rest, htokens, -, hv, -⟩, -⟩
    have hstep : tokenize "n--" = [⟨.ident, "n", ⟨1, 1⟩⟩, ⟨.mark .decrement, "--", ⟨1, 2⟩⟩,
        ⟨.eof, "EOF", ⟨1, 4⟩⟩] := by cbv
    rw [hstep] at htokens
    cases htokens
    cases hv
  exact ⟨hp, hq, (parse_space_append (not_endsInComment_of_getLast? hlast)
    (not_endsInDashes_of_not_mem (by decide)) hp hq).1 hstrands⟩

/-- A `DILI` takes the name behind it if a comma follows, though that name begins a statement. -/
theorem parse_dili_space_targets :
    let p : Program := [.assign ⟨["x"], .lit (.tinuod false)⟩]
    let q : Program := [.assign ⟨["y", "z"], .lit (.numero 5)⟩]
    ¬ EndsInComment "x = DILI" ∧ ¬ EndsInDashes "x = DILI".toList ∧
      parse ("SUGOD\n" ++ "x = DILI" ++ "\nKATAPUSAN") = .ok p ∧
      parse ("SUGOD\n" ++ "y, z = 5" ++ "\nKATAPUSAN") = .ok q ∧
      parse ("SUGOD\n" ++ "x = DILI" ++ " " ++ "y, z = 5" ++ "\nKATAPUSAN") =
        .error (.unexpected ⟨.mark .comma, ",", ⟨2, 11⟩⟩) := by
  have hlast : (cut false "x = DILI".toList).getLast? =
      some (lexeme (.keyword .dili) "DILI".toList) := by cbv
  refine ⟨not_endsInComment_of_getLast? hlast, not_endsInDashes_of_not_mem (by decide), ?_, ?_, ?_⟩
  · cbv
  · cbv
  · cbv

end Bisaya
