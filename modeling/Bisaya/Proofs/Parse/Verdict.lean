import Bisaya.Proofs.Parse.Composition
import Bisaya.Proofs.Parse.Outcome

namespace Bisaya

namespace Parse

/-- How the reading of a program fails: at a token, in a block that is open where the program ends,
or for want of an end. -/
inductive Failure (ts : List Token) : ParseError → Prop where
  | token {front rest : List Token} {t : Token} {e : ParseError} (hts : ts = front ++ t :: rest)
      (hfront : ∀ u ∈ front, u.kind ≠ .illegal) (h : Tells e t) : Failure ts e
  | unclosed {start opener t : Token} {outer lines rest : List Token}
      (hts : ts = start :: (outer ++ opener :: lines) ++ t :: rest)
      (hstart : start.kind = .keyword .sugod) (hheld : Held (outer ++ opener :: lines))
      (hopener : opener.kind = .mark .lbrace) (hlines : Tidy lines)
      (ht : t.kind = .eof ∨ t.kind = .keyword .katapusan) :
      Failure ts (.unclosedBlock opener.position)
  | ending {front rest : List Token} {t : Token} (hts : ts = front ++ t :: rest)
      (hfront : ∀ u ∈ front, u.kind ≠ .illegal) (ht : t.kind = .eof) :
      Failure ts (.missingEnd t.position)

theorem program_failure {ts : List Token} (hts : Terminated ts) {e : ParseError}
    (h : program ts = .error e) : Failure ts e := by
  obtain ⟨start, rest, rfl⟩ := hts.exists_cons
  rw [program] at h
  split at h
  swap
  · cases h
    exact .token (List.nil_append _).symm (by simp) (.ofMissingStart start)
  rename_i hstart
  have hrest : Terminated rest := hts.tail (by rw [hstart]; decide)
  have hlegal {front : List Token} (hheld : Held front) : ∀ u ∈ start :: front, u.kind ≠ .illegal :=
    List.forall_mem_cons.2 ⟨by rw [hstart]; decide, hheld.ne (by decide)⟩
  have hframe := stmts_outcome rest.length .program rest hrest le_rfl
  cases hread : stmts rest.length .program rest with
  | error e' =>
    rw [hread] at h hframe
    cases h
    cases hframe with
    | @unclosed body lines more t _ hsplit hlines he =>
      rw [Frame.unclosed?] at he
      split at he
      · rename_i ht
        cases he
        exact .ending (by rw [hsplit, List.cons_append]) (hlegal hlines.tidy.held) ht
      · cases he
    | fails hsplit hheld he =>
      rw [hsplit, ← List.cons_append]
      cases he with
      | token _ h => exact .token rfl (hlegal hheld) h
      | unclosed outer hopener hlines ht => exact .unclosed rfl hstart hheld hopener hlines ht
  | ok x =>
    rw [hread] at h hframe
    cases hframe with
    | @closed body lines rest' close hsplit hlines hclose =>
      -- the statements were read, so that something else than the end mark follows them
      have hkind : close.kind = .keyword .katapusan := hclose
      have hend : Terminated rest' := by
        rw [hsplit] at hrest
        exact (hrest.behind hlines.tidy.held).tail (by rw [hkind]; decide)
      obtain ⟨t, more, rfl⟩ := hend.exists_cons
      change (if t.kind = .eof then .ok body else .error (ParseError.ofUnexpected t)) =
        Except.error e at h
      split at h
      · cases h
      · cases h
        have hfront : ∀ u ∈ (start :: lines) ++ [close], u.kind ≠ .illegal :=
          List.forall_mem_append.2 ⟨hlegal hlines.tidy.held, by simp [hkind]⟩
        have hts : start :: rest = (start :: lines) ++ [close] ++ t :: more := by simp [hsplit]
        exact .token hts hfront (.ofUnexpected t)

/-- The braces that are open behind a token, the last one first; a closing brace belongs to the
last one that is open. -/
def braceBehind (opened : List Token) (t : Token) : List Token :=
  if t.kind = .mark .lbrace then t :: opened
  else if t.kind = .mark .rbrace then opened.tail
  else opened

def openBraces (opened ts : List Token) : List Token := ts.foldl braceBehind opened

theorem opener?_eq_some {kind opener : Kind} (h : opener? kind = some opener) :
    kind = .mark .rparen ∧ opener = .mark .lparen ∨
      kind = .mark .rbrace ∧ opener = .mark .lbrace := by
  unfold opener? at h
  split at h <;> cases h
  · exact .inl ⟨rfl, rfl⟩
  · exact .inr ⟨rfl, rfl⟩

def onlyBraces (ts : List Token) : List Token := ts.filter (·.kind = .mark .lbrace)

/-- Braces are matched alike whether or not the other brackets are looked at. -/
theorem braceBehind_of_openBehind {t : Token} {opened opened' : List Token}
    (h : openBehind opened t = some opened') (outer : List Token) :
    braceBehind (onlyBraces opened ++ outer) t = onlyBraces opened' ++ outer := by
  unfold openBehind at h
  split at h
  · rename_i ht
    cases h
    rcases ht with ht | ht <;> simp [braceBehind, onlyBraces, ht]
  rename_i hopen
  split at h
  · rename_i hclose
    have hbrace : t.kind ≠ .mark .rbrace := by
      intro ht
      rw [ht] at hclose
      cases hclose
    cases h
    rw [braceBehind, if_neg fun ht => hopen (.inr ht), if_neg hbrace]
  · rename_i kind hclose
    split at h
    · cases h
    · rename_i o inner
      split at h
      · rename_i ho
        cases h
        rcases opener?_eq_some hclose with ⟨ht, rfl⟩ | ⟨ht, rfl⟩ <;>
          simp [braceBehind, onlyBraces, ht, ho]
      · cases h

theorem openBraces_of_openAfter {ts opened opened' : List Token}
    (h : openAfter opened ts = some opened') (outer : List Token) :
    openBraces (onlyBraces opened ++ outer) ts = onlyBraces opened' ++ outer := by
  induction ts generalizing opened with
  | nil =>
    cases h
    rfl
  | cons t ts ih =>
    rw [openAfter_cons] at h
    obtain ⟨between, hstep, hrest⟩ := Option.bind_eq_some_iff.1 h
    rw [openBraces, List.foldl_cons, braceBehind_of_openBehind hstep]
    exact ih hrest

theorem Balanced.openBraces {ts : List Token} (h : Balanced ts) (outer : List Token) :
    openBraces outer ts = outer := openBraces_of_openAfter (h []) outer

theorem openBraces_opener {opener : Token} {lines : List Token}
    (hopener : opener.kind = .mark .lbrace) (hlines : Balanced lines) (outer : List Token) :
    openBraces [] (outer ++ opener :: lines) = opener :: openBraces [] outer := by
  have hopen : braceBehind (openBraces [] outer) opener = opener :: openBraces [] outer :=
    if_pos hopener
  calc openBraces [] (outer ++ opener :: lines)
      = openBraces (braceBehind (openBraces [] outer) opener) lines := List.foldl_append
    _ = opener :: openBraces [] outer := by rw [hopen, hlines.openBraces]

end Parse

open Parse Piece

/-- A text that is read is `SUGOD`, a body and `KATAPUSAN`. Each token of the body has its place in
the program; the brackets are nested, and the words that belong together stand together. -/
theorem parse_shape {source : String} {p : Program} (h : parse source = .ok p) :
    ∃ start body close last, tokenize source = start :: (body ++ [close, last]) ∧
      start.kind = .keyword .sugod ∧ close.kind = .keyword .katapusan ∧ last.kind = .eof ∧
      Phrase (.body p) body ∧ (∀ t ∈ body, t.kind ∉ foreignKinds) ∧
      openAfter [] body = some [] ∧ (tokenize source).IsChain Adjoins ∧
      ∀ t ∈ tokenize source, t.kind ≠ .illegal := by
  obtain ⟨start, body, close, last, more, htokens, hstart, hbody, hclose, hlast⟩ :=
    program_phrase (terminated_tokenize source) h
  have hend : tokenize source = (start :: (body ++ [close])) ++ last :: more := by simp [htokens]
  obtain rfl := eq_nil_of_eof hend hlast
  have htidy := hbody.tidy
  have horderly : Orderly ([start] ++ (body ++ ([close] ++ [last]))) := by
    refine (Orderly.single ?_).append (htidy.toOrderly.append ?_)
    on_goal 2 => refine (Orderly.single ?_).append (.single ?_)
    all_goals simp [hstart, hclose, hlast]
  refine ⟨start, body, close, last, htokens, hstart, hclose, hlast, hbody, htidy.held,
    htidy.balanced [], by rw [htokens]; exact horderly.adjoins, ?_⟩
  have hlegal : ∀ t ∈ body, t.kind ≠ .illegal := htidy.held.ne (by decide)
  rw [htokens]
  simpa [hstart, hclose, hlast, or_imp, forall_and] using hlegal

def loopSource : String :=
  "SUGOD ALANG SA(i=j=0,i<3,i++)PUNDOK\x7bKUNG(i)>1\x7bi--\x7dKUNG WALA PUNDOK\x7b\x7d\x7d" ++
    "KATAPUSAN"

def loopProgram : Program :=
  [.loop ⟨["i", "j"], .lit (.numero 0)⟩ (.binary (.rel .lt) (.var "i") (.lit (.numero 3)))
    (.step ⟨"i", .up⟩)
    [.choose (.binary (.rel .gt) (.var "i") (.lit (.numero 1))) [.step ⟨"i", .down⟩] (.wala [])]]

theorem parse_shape_loopSource : parse loopSource = .ok loopProgram ∧
    ∃ start body close last, tokenize loopSource = start :: (body ++ [close, last]) ∧
      start.kind = .keyword .sugod ∧ close.kind = .keyword .katapusan ∧ last.kind = .eof ∧
      Phrase (.body loopProgram) body ∧ (∀ t ∈ body, t.kind ∉ foreignKinds) ∧
      openAfter [] body = some [] ∧ (tokenize loopSource).IsChain Adjoins ∧
      ∀ t ∈ tokenize loopSource, t.kind ≠ .illegal := by
  have hparse : parse loopSource = .ok loopProgram := by cbv
  exact ⟨hparse, parse_shape hparse⟩

/-- The token that an error tells of. -/
def ParseError.Reports : ParseError → Token → Prop
  | endOfTokens, _ => False
  | expected _ got, t | unexpected got, t | illegal got, t | missingStart got, t
  | invalidNumber got, t | literalMismatch _ _ got, t => got = t
  | missingEnd p, t | unclosedBlock p, t | invalidClause _ p, t => p = t.position

/-- Whether the program goes on at the token. -/
def Token.goesOn (t : Token) : Bool := t.kind ≠ .keyword .katapusan ∧ t.kind ≠ .eof

def beforeEnd (ts : List Token) : List Token := ts.takeWhile Token.goesOn

theorem beforeEnd_append {front rest : List Token} {t : Token} (hfront : ∀ u ∈ front, u.goesOn)
    (ht : ¬ t.goesOn) : beforeEnd (front ++ t :: rest) = front := by
  rw [beforeEnd, List.takeWhile_append_of_pos hfront, List.takeWhile_cons_of_neg ht,
    List.append_nil]

/-- An error tells of a token of the text that has no illegal one in front of it. A text without an
end fails at its end mark, and a block that is not closed at its brace, the innermost one that is
open where the program ends. -/
theorem parse_error_place {source : String} {e : ParseError} (h : parse source = .error e) :
    e ≠ .endOfTokens ∧
      ∃ front t rest, tokenize source = front ++ t :: rest ∧ (∀ u ∈ front, u.kind ≠ .illegal) ∧
        e.Reports t ∧ (∀ got, e = .illegal got → t.kind = .illegal) ∧
        (∀ p, e = .missingEnd p → t.kind = .eof ∧ rest = []) ∧
        ∀ p, e = .unclosedBlock p → t.kind = .mark .lbrace ∧
          (openBraces [] (beforeEnd (tokenize source))).head? = some t := by
  cases program_failure (terminated_tokenize source) h with
  | token hts hfront h =>
    refine ⟨?_, _, _, _, hts, hfront, ?_⟩
    · rintro rfl
      cases h
    · cases h <;> simp_all [ParseError.Reports]
  | ending hts hfront ht =>
    refine ⟨nofun, _, _, _, hts, hfront, rfl, nofun, fun _ _ => ⟨ht, eq_nil_of_eof hts ht⟩, nofun⟩
  | @unclosed start opener t outer lines rest hts hstart hheld hopener hlines ht =>
    have hbefore : beforeEnd (tokenize source) = start :: (outer ++ opener :: lines) := by
      have hend : ¬ t.goesOn := by rcases ht with ht | ht <;> simp [Token.goesOn, ht]
      rw [hts]
      refine beforeEnd_append (List.forall_mem_cons.2 ⟨by simp [Token.goesOn, hstart], ?_⟩) hend
      intro u hu
      exact decide_eq_true ⟨hheld.ne (by decide) u hu, hheld.ne (by decide) u hu⟩
    have hsplit : tokenize source = (start :: outer) ++ opener :: (lines ++ t :: rest) := by
      simp [hts]
    have hlegal : ∀ u ∈ start :: outer, u.kind ≠ .illegal := by
      refine List.forall_mem_cons.2 ⟨by rw [hstart]; decide, fun u hu => ?_⟩
      exact hheld.ne (by decide) u (List.mem_append_left _ hu)
    refine ⟨nofun, _, _, _, hsplit, hlegal, rfl, nofun, nofun, fun _ _ => ⟨hopener, ?_⟩⟩
    rw [hbefore, ← List.cons_append, openBraces_opener hopener hlines.balanced]
    rfl

/-- Two blocks are open where this program ends; the braces behind its end close neither. -/
def openSource : String :=
  "SUGOD KUNG(a)PUNDOK\x7bKUNG(b)\x7bc++\x7d\nALANG SA(i=0,i<1,i++)\x7bd--\nKATAPUSAN\x7d\x7d"

theorem parse_error_openSource : parse openSource = .error (.unclosedBlock ⟨2, 22⟩) ∧
    ∃ front t rest, tokenize openSource = front ++ t :: rest ∧ (∀ u ∈ front, u.kind ≠ .illegal) ∧
      t.position = ⟨2, 22⟩ ∧ t.kind = .mark .lbrace ∧
      (openBraces [] (beforeEnd (tokenize openSource))).head? = some t := by
  have hparse : parse openSource = .error (.unclosedBlock ⟨2, 22⟩) := by cbv
  obtain ⟨-, front, t, rest, htokens, hfront, hposition, -, -, hopen⟩ := parse_error_place hparse
  obtain ⟨hkind, hhead⟩ := hopen _ rfl
  exact ⟨hparse, front, t, rest, htokens, hfront, hposition.symm, hkind, hhead⟩

end Bisaya
