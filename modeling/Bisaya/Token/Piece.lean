import Bisaya.Text.Blank
import Bisaya.Text.Letter
import Bisaya.Text.Numeral
import Bisaya.Token.Basic

namespace Bisaya

open Text

inductive Piece where
  | blank (c : Char)
  | comment (text : List Char)
  | lexeme (kind : Kind) (text : List Char)
  deriving DecidableEq, Repr

namespace Piece

def text : Piece → List Char
  | blank c => [c]
  | comment text => text
  | lexeme _ text => text

def startsWord (c : Char) : Bool := isLetter c || c = '_'

def inWord (c : Char) : Bool := isLetter c || isNumeral c || c = '_'

/-- Whether the last character of the piece could belong to a name. -/
def endsWord (p : Piece) : Bool := p.text.getLast?.any inWord

/-- What stands behind a decrement: spaces and tabs aside, the end of the text or of the line, a
closing bracket, a comma, or two more dashes. -/
def endsDecrement (cs : List Char) : Bool :=
  match cs.dropWhile fun c => c = ' ' || c = '\t' with
  | [] => true
  | '-' :: '-' :: _ => true
  | c :: _ => c = '\x00' || c = '\n' || c = '\r' || c = ')' || c = '\x7d' || c = ','

/-- Two dashes open a comment unless they are a decrement, which follows a name directly. -/
def opensComment (afterWord : Bool) : List Char → Bool
  | '-' :: '-' :: cs => !(afterWord && endsDecrement cs)
  | _ => false

/-- The longest mark at the start of the text. -/
def markAt (cs : List Char) : Option Mark := Mark.all.find? fun m => m.text.toList.isPrefixOf cs

def word (cs : List Char) : Piece :=
  match Keyword.ofText? (String.ofList cs) with
  | some k => lexeme (.keyword k) cs
  | none => lexeme .ident cs

/-- A number that starts with the digit `d`: digits, then a point only if a digit follows it. -/
def number (d : Char) (cs : List Char) : Piece × List Char :=
  let whole := d :: cs.takeWhile Char.isDigit
  match cs.dropWhile Char.isDigit with
  | '.' :: e :: rest =>
    if e.isDigit then
      (lexeme .float (whole ++ '.' :: e :: rest.takeWhile Char.isDigit),
        rest.dropWhile Char.isDigit)
    else (lexeme .int whole, '.' :: e :: rest)
  | rest => (lexeme .int whole, rest)

/-- A quoted text ends with the next quote of the same form; there are no escapes inside. -/
def quoted (q : Char) (cs : List Char) : Piece × List Char :=
  match cs.dropWhile (· ≠ q) with
  | [] => (lexeme .illegal (q :: cs), [])
  | _ :: rest => (lexeme .string (q :: cs.takeWhile (· ≠ q) ++ [q]), rest)

def symbol (c : Char) (cs : List Char) : Piece × List Char :=
  match markAt (c :: cs) with
  | some m => (lexeme (.mark m) m.text.toList, (c :: cs).drop m.text.toList.length)
  | none => (lexeme .illegal [c], cs)

def first (afterWord : Bool) (c : Char) (cs : List Char) : Piece × List Char :=
  if isBlank c then (blank c, cs)
  else if opensComment afterWord (c :: cs) then
    (comment (c :: cs.takeWhile (· ≠ '\n')), cs.dropWhile (· ≠ '\n'))
  else if c = '\'' || c = '"' then quoted c cs
  else if startsWord c then (word (c :: cs.takeWhile inWord), cs.dropWhile inWord)
  else if c.isDigit then number c cs
  else match c, cs with
    | '[', x :: ']' :: rest => (lexeme .escape ['[', x, ']'], rest)
    | c, cs => symbol c cs

@[simp] theorem word_text (cs : List Char) : (word cs).text = cs := by
  unfold word; split <;> rfl

theorem number_text (d : Char) (cs : List Char) :
    (number d cs).1.text ++ (number d cs).2 = d :: cs := by
  have h := @List.takeWhile_append_dropWhile _ Char.isDigit cs
  unfold number
  split
  · rename_i e rest he
    rw [he] at h
    split
    · have hr := @List.takeWhile_append_dropWhile _ Char.isDigit rest
      simp only [text, List.cons_append, List.append_assoc, hr, h]
    · simp only [text, List.cons_append, h]
  · simp only [text, List.cons_append, h]

theorem quoted_text (q : Char) (cs : List Char) :
    (quoted q cs).1.text ++ (quoted q cs).2 = q :: cs := by
  have h := @List.takeWhile_append_dropWhile _ (fun c => decide (c ≠ q)) cs
  unfold quoted
  split
  · simp [text]
  · rename_i x rest hx
    have hq : x = q := by
      have := List.head?_dropWhile_not (fun c => decide (c ≠ q)) cs
      rw [hx] at this
      simpa using this
    subst hq
    rw [hx] at h
    simp only [text, List.cons_append, List.append_assoc, List.nil_append, h]

theorem markAt_text {cs : List Char} {m : Mark} (h : markAt cs = some m) :
    m.text.toList ++ cs.drop m.text.toList.length = cs := by
  have hp := List.find?_some h
  obtain ⟨rest, rfl⟩ := List.isPrefixOf_iff_prefix.1 hp
  simp

theorem symbol_text (c : Char) (cs : List Char) :
    (symbol c cs).1.text ++ (symbol c cs).2 = c :: cs := by
  unfold symbol
  split
  · rename_i m hm
    exact markAt_text hm
  · rfl

/-- Nothing is lost: the first piece and what is left make up the text. -/
theorem first_text (w : Bool) (c : Char) (cs : List Char) :
    (first w c cs).1.text ++ (first w c cs).2 = c :: cs := by
  unfold first
  split
  · rfl
  split
  · simp [text, List.takeWhile_append_dropWhile]
  split
  · exact quoted_text c cs
  split
  · simp [List.takeWhile_append_dropWhile]
  split
  · exact number_text c cs
  split
  · rfl
  · exact symbol_text _ _

theorem symbol_text_ne_nil (c : Char) (cs : List Char) : (symbol c cs).1.text ≠ [] := by
  have hm (m : Mark) : m.text.toList ≠ [] := by cases m <;> decide
  unfold symbol
  split
  · exact hm _
  · exact List.cons_ne_nil _ _

theorem first_text_ne_nil (w : Bool) (c : Char) (cs : List Char) :
    (first w c cs).1.text ≠ [] := by
  unfold first
  split
  · exact List.cons_ne_nil _ _
  split
  · exact List.cons_ne_nil _ _
  split
  · unfold quoted; split <;> exact List.cons_ne_nil _ _
  split
  · rw [word_text]; exact List.cons_ne_nil _ _
  split
  · unfold number; split
    · split <;> exact List.cons_ne_nil _ _
    · exact List.cons_ne_nil _ _
  split
  · exact List.cons_ne_nil _ _
  · exact symbol_text_ne_nil _ _

theorem length_first (w : Bool) (c : Char) (cs : List Char) :
    (first w c cs).2.length < (c :: cs).length := by
  have h := congrArg List.length (first_text w c cs)
  have hn := List.length_pos_iff.2 (first_text_ne_nil w c cs)
  simp only [List.length_append] at h
  omega

/-- The pieces of a text; `afterWord` tells whether the character before it could belong to a
name. -/
def cut (afterWord : Bool) : List Char → List Piece
  | [] => []
  | c :: cs =>
    let piece := (first afterWord c cs).1
    piece :: cut piece.endsWord (first afterWord c cs).2
termination_by cs => cs.length
decreasing_by exact length_first afterWord c cs

theorem cut_text (w : Bool) (cs : List Char) : (cut w cs).flatMap text = cs := by
  fun_induction cut w cs with
  | case1 => rfl
  | case2 w c cs piece ih => simp [ih, piece, first_text]

/-- The text of a token between the delimiters of its kind. -/
def literal (kind : Kind) (text : List Char) : String :=
  match kind with
  | .string | .escape => String.ofList text.tail.dropLast
  | _ => String.ofList text

/-- The tokens of pieces whose first one starts at `p`, and the end mark behind them. -/
def tokens (p : Position) : List Piece → List Token
  | [] => [.ofKind .eof p]
  | lexeme kind text :: rest => ⟨kind, literal kind text, p⟩ :: tokens (p.after text) rest
  | piece :: rest => tokens (p.after piece.text) rest

end Piece

/-- The tokens of a program text, with one end mark as the last. -/
def tokenize (source : String) : List Token := Piece.tokens .start (Piece.cut false source.toList)

end Bisaya
