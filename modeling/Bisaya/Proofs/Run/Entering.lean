import Bisaya.Proofs.Run.Soundness
import Bisaya.Proofs.Stmt.Pieces

namespace Bisaya

open Number Piece

namespace Text

structure Trimmed (cs : List Char) : Prop where
  ne_nil : cs ≠ []
  first : StopsAt isBlank cs
  last : StopsAt isBlank cs.reverse

/-- Blanks around a text are taken away and no more. -/
theorem trim_between {before cs after : List Char} (hbefore : ∀ c ∈ before, isBlank c)
    (hafter : ∀ c ∈ after, isBlank c) (h : Trimmed cs) : trim (before ++ cs ++ after) = cs := by
  obtain ⟨c, rest, rfl⟩ := List.exists_cons_of_ne_nil h.ne_nil
  have hfront : StopsAt isBlank (c :: rest ++ after) := h.first
  have hback : ∀ c ∈ after.reverse, isBlank c := fun c hc => hafter c (List.mem_reverse.1 hc)
  rw [trim, List.append_assoc, dropWhile_append hbefore hfront, List.reverse_append,
    dropWhile_append hback h.last, List.reverse_reverse]

theorem isBlank_of_isDigit {c : Char} (h : c.isDigit) : isBlank c = false := by
  have hdigits : ∀ k : Fin 10, isBlank (digitChar k) = false := by decide
  obtain ⟨k, rfl⟩ := eq_digitChar h
  exact hdigits k

theorem stopsAt_digits {ds : List Char} (h : IsDigits ds) (rest : List Char) :
    StopsAt isBlank (ds ++ rest) := by
  obtain ⟨d, ds, rfl, hd, -⟩ := h.cons
  exact stopsAt_cons (isBlank_of_isDigit hd) _

theorem isDigits_reverse {ds : List Char} (h : IsDigits ds) : IsDigits ds.reverse :=
  ⟨by simpa using h.1, fun c hc => h.2 c (List.mem_reverse.1 hc)⟩

/-- A number that ends in digits, with or without a sign. -/
theorem trimmed_signed (negative : Bool) {cs ds : List Char} (hcs : StopsAt isBlank (cs ++ ds))
    (hds : IsDigits ds) : Trimmed (Tipik.signed negative (cs ++ ds)) := by
  have hlast := stopsAt_digits (isDigits_reverse hds)
  cases negative with
  | false =>
    change Trimmed (cs ++ ds)
    refine ⟨List.append_ne_nil_of_right_ne_nil cs hds.1, hcs, ?_⟩
    rw [List.reverse_append]
    exact hlast cs.reverse
  | true =>
    change Trimmed ('-' :: (cs ++ ds))
    refine ⟨List.cons_ne_nil _ _, stopsAt_cons rfl _, ?_⟩
    rw [List.reverse_cons, List.reverse_append, List.append_assoc]
    exact hlast (cs.reverse ++ ['-'])

theorem trimmed_quoted {q : Char} (hq : q = '"' ∨ q = '\'') (cs : List Char) :
    Trimmed (q :: cs ++ [q]) := by
  have hblank : isBlank q = false := by rcases hq with rfl | rfl <;> rfl
  refine ⟨List.cons_ne_nil _ _, stopsAt_cons hblank _, ?_⟩
  rw [List.reverse_append]
  exact stopsAt_cons hblank _

end Text

open Text

namespace Entry

/-- The quotes around a text go, whatever the text holds. -/
theorem unquote_quoted {q : Char} (hq : q = '"' ∨ q = '\'') (cs : List Char) :
    unquote (q :: cs ++ [q]) = cs := by
  rw [List.cons_append, unquote, if_pos ⟨hq, List.getLast?_concat⟩, List.dropLast_concat]

/-- The word, in which each letter may be a small one. -/
def AnyCase (word text : List Char) : Prop :=
  List.Forall₂ (fun c d => c = d ∨ c = d.toLower) word text

theorem AnyCase.letters {word text : List Char} (h : AnyCase word text)
    (htext : ∀ d ∈ text, d ∈ ['O', 'D', 'I', 'L']) :
    word.map Char.toUpper = text ∧ ∀ c ∈ word, isBlank c = false := by
  have hletters (d : Char) (hd : d ∈ ['O', 'D', 'I', 'L']) : d.toUpper = d ∧
      d.toLower.toUpper = d ∧ isBlank d = false ∧ isBlank d.toLower = false := by
    simp only [List.mem_cons, List.not_mem_nil, or_false] at hd
    rcases hd with rfl | rfl | rfl | rfl <;> decide
  induction h with
  | nil => exact ⟨rfl, by simp⟩
  | @cons c d word text hc _ ih =>
    obtain ⟨hd, htext⟩ := List.forall_mem_cons.1 htext
    obtain ⟨hword, hblank⟩ := ih htext
    obtain ⟨hupper, hlower, hfree, hfree'⟩ := hletters d hd
    rw [List.map_cons, hword]
    rcases hc with rfl | rfl
    · exact ⟨by rw [hupper], List.forall_mem_cons.2 ⟨hfree, hblank⟩⟩
    · exact ⟨by rw [hlower], List.forall_mem_cons.2 ⟨hfree', hblank⟩⟩

theorem AnyCase.boolText {word : List Char} {b : Bool}
    (h : AnyCase word (Value.boolText b).toList) :
    readBool? word = some b ∧ Trimmed word := by
  have hletters : ∀ d ∈ (Value.boolText b).toList, d ∈ ['O', 'D', 'I', 'L'] := by
    cases b <;> simp [Value.boolText]
  obtain ⟨hword, hblank⟩ := h.letters hletters
  have hne : (Value.boolText b).toList ≠ [] := by cases b <;> decide
  refine ⟨?_, ⟨?_, fun c hc => ?_, fun c hc => ?_⟩⟩
  · rw [readBool?, hword]
    cases b <;> decide
  · rintro rfl
    exact hne hword.symm
  · exact hblank c (List.mem_of_head? hc)
  · exact hblank c (List.mem_reverse.1 (List.mem_of_head? hc))

end Entry

theorem Numero.trimmed_text (n : Numero) : Trimmed n.text := by
  have hdigits := isDigits_digits n.toInt.natAbs
  have hfirst : StopsAt isBlank ([] ++ digits n.toInt.natAbs) := by
    simpa using stopsAt_digits hdigits []
  rw [text_eq]
  exact trimmed_signed _ hfirst hdigits

theorem Tipik.trimmed_source {x : Tipik} (h : isFinite x) : Trimmed x.source := by
  have hb : magnitudeBits x < infinityBits := by simpa [isFinite] using h
  obtain ⟨whole, fraction, hw, hf, htext, -⟩ := magnitudeText_eq hb
  have hfirst : StopsAt isBlank (whole ++ ['.'] ++ fraction) := by
    rw [List.append_assoc]
    exact stopsAt_digits hw _
  rw [source_eq h, htext, ← List.singleton_append, ← List.append_assoc]
  exact trimmed_signed _ hfirst hf

/-- The entry is read as the value, and a statement that asks for a variable of its type stores it
there. -/
structure Entered (raw : String) (v : Value) : Prop where
  read : ∃ ty, v.type? = some ty ∧ Entry.read? ty raw = some v
  stored : ∀ (n : ℕ) (m : Machine) (name : String) (x : Variable) (answers : List String),
    m.env.get? name = some x → v.type? = some x.ty →
      ((Stmt.read [name]).exec n m).play (raw :: answers) =
        ⟨.done, { m with env := ⟨m.env.vars.insert name ⟨x.ty, v⟩⟩ }, [name], answers⟩

theorem entered_of_read {ty : DataType} {raw : String} {v : Value} (hty : v.type? = some ty)
    (h : Entry.read? ty raw = some v) : Entered raw v := by
  refine ⟨⟨ty, hty, h⟩, fun n m name x answers hx hv => ?_⟩
  obtain rfl : ty = x.ty := Option.some.inj (hty.symm.trans hv)
  have hstore : Run.change m (m.env.assign name v) =
      .done { m with env := ⟨m.env.vars.insert name ⟨x.ty, v⟩⟩ } := by
    rw [Env.assign_of_get? hx, Env.put_of_fits _ _ (Or.inr hv)]
    rfl
  rw [Stmt.exec, Run.read, Env.lookup_of_get? hx]
  dsimp only
  rw [Run.play, h]
  dsimp only
  rw [hstore]
  rfl

section

variable {before after : String} (hbefore : ∀ c ∈ before.toList, isBlank c)
  (hafter : ∀ c ∈ after.toList, isBlank c)

include hbefore hafter

theorem trim_entry {written : String} (h : Trimmed written.toList) :
    trim (before ++ written ++ after).toList = written.toList := by
  rw [String.toList_append, String.toList_append]
  exact trim_between hbefore hafter h

theorem entered_numero (n : Numero) :
    Entered (before ++ (Value.numero n).source ++ after) (.numero n) := by
  have hsource : (Value.numero n).source.toList = n.text := String.toList_ofList
  have htrim := trim_entry hbefore hafter (hsource ▸ n.trimmed_text)
  have hread : Numero.read? n.text = some n := by rw [Numero.text_eq, Numero.read?_signed]
  refine entered_of_read rfl ?_
  rw [Entry.read?, htrim, hsource]
  rw [hread, Option.map_some]

theorem entered_tipik {x : Tipik} (h : isFinite x) :
    Entered (before ++ (Value.tipik x).source ++ after) (.tipik x) := by
  have hsource : (Value.tipik x).source.toList = x.source := String.toList_ofList
  have htrim := trim_entry hbefore hafter (hsource ▸ Tipik.trimmed_source h)
  refine entered_of_read rfl ?_
  rw [Entry.read?, htrim, hsource]
  rw [Tipik.read?_source h, Option.filter_some, if_pos h, Option.map_some]

theorem entered_quoted {q : Char} (hq : q = '"' ∨ q = '\'') (s : String) :
    Entered (before ++ (q.toString ++ s ++ q.toString) ++ after) (.letra s) := by
  have hsource : (q.toString ++ s ++ q.toString).toList = q :: s.toList ++ [q] := by simp
  have htrim := trim_entry hbefore hafter (hsource ▸ trimmed_quoted hq s.toList)
  refine entered_of_read rfl ?_
  rw [Entry.read?, htrim, hsource]
  rw [Entry.unquote_quoted hq, String.ofList_toList]

theorem entered_tinuod {b : Bool} {word : String}
    (h : Entry.AnyCase word.toList (Value.boolText b).toList) :
    Entered (before ++ word ++ after) (.tinuod b) := by
  obtain ⟨hread, htrimmed⟩ := h.boolText
  have htrim := trim_entry hbefore hafter htrimmed
  refine entered_of_read rfl ?_
  rw [Entry.read?, htrim]
  rw [hread, Option.map_some]

end

/-- Every value can be entered, with any blanks around it: a number and a text in the form that it
has in a program, a text in quotes of either kind, and a truth value by its word in any case. -/
theorem entered_of_written (before after : String) (hbefore : ∀ c ∈ before.toList, isBlank c)
    (hafter : ∀ c ∈ after.toList, isBlank c) :
    (∀ n : Numero, Entered (before ++ (Value.numero n).source ++ after) (.numero n)) ∧
    (∀ x : Tipik, isFinite x → Entered (before ++ (Value.tipik x).source ++ after) (.tipik x)) ∧
    (∀ s : String, Entered (before ++ (Value.letra s).source ++ after) (.letra s)) ∧
    (∀ (b : Bool) (word : String), Entry.AnyCase word.toList (Value.tinuod b).text.toList →
      Entered (before ++ word ++ after) (.tinuod b)) ∧
    (∀ q : Char, q = '"' ∨ q = '\'' → ∀ s : String,
      Entered (before ++ (q.toString ++ s ++ q.toString) ++ after) (.letra s)) := by
  refine ⟨entered_numero hbefore hafter, fun x => entered_tipik hbefore hafter, fun s => ?_,
    fun b word => entered_tinuod hbefore hafter, fun q => entered_quoted hbefore hafter⟩
  have hquote : Value.quoteFor s = (Value.quoteOf s).toString := by
    apply String.toList_inj.1
    rw [Value.quoteFor_toList]
    simp
  rw [Value.source, hquote]
  exact entered_quoted hbefore hafter (Value.quoteOf_eq s) s

/-- A text with blanks and quotes at its ends, and quotes of both kinds in it, typed with a tab
before it and a line break behind. -/
theorem entered_mixed_quotes : (∀ c ∈ "\t".toList, isBlank c) ∧ (∀ c ∈ "\n".toList, isBlank c) ∧
    Entered ("\t" ++ (Value.letra " \"it's' ").source ++ "\n") (.letra " \"it's' ") := by
  have hbefore : ∀ c ∈ "\t".toList, isBlank c := by
    intro c hc
    rw [List.mem_singleton.1 hc]
    rfl
  have hafter : ∀ c ∈ "\n".toList, isBlank c := by
    intro c hc
    rw [List.mem_singleton.1 hc]
    rfl
  exact ⟨hbefore, hafter, (entered_of_written "\t" "\n" hbefore hafter).2.2.1 _⟩

end Bisaya
