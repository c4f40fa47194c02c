namespace Bisaya

inductive Keyword where
  | sugod | katapusan | mugna | numero | tipik | letra | tinuod | ipakita | dawat
  | kung | wala | alang | sa | pundok | ug | o | dili | oo
  deriving DecidableEq, Repr

namespace Keyword

def text : Keyword → String
  | sugod => "SUGOD"
  | katapusan => "KATAPUSAN"
  | mugna => "MUGNA"
  | numero => "NUMERO"
  | tipik => "TIPIK"
  | letra => "LETRA"
  | tinuod => "TINUOD"
  | ipakita => "IPAKITA"
  | dawat => "DAWAT"
  | kung => "KUNG"
  | wala => "WALA"
  | alang => "ALANG"
  | sa => "SA"
  | pundok => "PUNDOK"
  | ug => "UG"
  | o => "O"
  | dili => "DILI"
  | oo => "OO"

def all : List Keyword :=
  [sugod, katapusan, mugna, numero, tipik, letra, tinuod, ipakita, dawat, kung, wala, alang, sa,
    pundok, ug, o, dili, oo]

/-- Keywords are written in capitals. -/
def ofText? (word : String) : Option Keyword := all.find? fun k => k.text == word

theorem ofText?_text (k : Keyword) : ofText? k.text = some k := by cases k <;> decide

theorem text_of_ofText? {word : String} {k : Keyword} (h : ofText? word = some k) :
    k.text = word := by
  simpa using List.find?_some h

end Keyword

/-- Operators and punctuation with a fixed spelling. -/
inductive Mark where
  | equals | notEquals | lessEquals | greaterEquals | increment | decrement
  | assign | less | greater | plus | minus | asterisk | slash | percent | ampersand | dollar
  | comma | colon | lparen | rparen | lbrace | rbrace | lbracket | rbracket
  deriving DecidableEq, Repr

namespace Mark

def text : Mark → String
  | equals => "=="
  | notEquals => "<>"
  | lessEquals => "<="
  | greaterEquals => ">="
  | increment => "++"
  | decrement => "--"
  | assign => "="
  | less => "<"
  | greater => ">"
  | plus => "+"
  | minus => "-"
  | asterisk => "*"
  | slash => "/"
  | percent => "%"
  | ampersand => "&"
  | dollar => "$"
  | comma => ","
  | colon => ":"
  | lparen => "("
  | rparen => ")"
  | lbrace => "\x7b"
  | rbrace => "\x7d"
  | lbracket => "["
  | rbracket => "]"

def name : Mark → String
  | equals => "Equals"
  | notEquals => "NotEquals"
  | lessEquals => "LesserEquals"
  | greaterEquals => "GreaterEquals"
  | increment => "Increment"
  | decrement => "Decrement"
  | assign => "Assign"
  | less => "LesserThan"
  | greater => "GreaterThan"
  | plus => "Plus"
  | minus => "Minus"
  | asterisk => "Asterisk"
  | slash => "Slash"
  | percent => "Percent"
  | ampersand => "Ampersand"
  | dollar => "Dollar"
  | comma => "Comma"
  | colon => "Colon"
  | lparen => "LParen"
  | rparen => "RParen"
  | lbrace => "LSquirly"
  | rbrace => "RSquirly"
  | lbracket => "LBracket"
  | rbracket => "RBracket"

/-- The marks of two characters stand before those of one, so that a search finds the longest. -/
def all : List Mark :=
  [equals, notEquals, lessEquals, greaterEquals, increment, decrement, assign, less, greater, plus,
    minus, asterisk, slash, percent, ampersand, dollar, comma, colon, lparen, rparen, lbrace,
    rbrace, lbracket, rbracket]

theorem mem_all (m : Mark) : m ∈ all := by cases m <;> decide

def isPunctuation : Mark → Bool
  | comma | colon | lparen | rparen | lbrace | rbrace | lbracket | rbracket => true
  | _ => false

end Mark

inductive Kind where
  | eof
  /-- A character outside the language, or a quote that is never closed. -/
  | illegal
  | ident
  | int
  | float
  | string
  /-- One character between brackets, as in `[&]`. -/
  | escape
  | mark (m : Mark)
  | keyword (k : Keyword)
  deriving DecidableEq, Repr

namespace Kind

def name : Kind → String
  | eof => "EOF"
  | illegal => "Illegal"
  | ident => "Ident"
  | int => "IntLiteral"
  | float => "FloatLiteral"
  | string => "StringLiteral"
  | escape => "Escape"
  | mark m => m.name
  | keyword k => k.text

def isKeyword : Kind → Bool
  | keyword _ => true
  | _ => false

def isOperator : Kind → Bool
  | mark m => !m.isPunctuation
  | keyword .ug | keyword .o | keyword .dili => true
  | _ => false

def isPunctuation : Kind → Bool
  | mark m => m.isPunctuation
  | _ => false

/-- The word a token listing uses for the kind. -/
def className (k : Kind) : String :=
  if k.isKeyword then "keyword"
  else if k.isOperator then "operator"
  else if k.isPunctuation then "punctuation"
  else "value"

def all : List Kind :=
  [eof, illegal, ident, int, float, string, escape] ++ Mark.all.map mark ++ Keyword.all.map keyword

def ofName? (word : String) : Option Kind := all.find? fun k => k.name == word

def literal : Kind → String
  | eof => "EOF"
  | mark m => m.text
  | _ => ""

end Kind

/-- Lines and columns count from one; only a line feed ends a line. -/
structure Position where
  line : Nat
  column : Nat
  deriving DecidableEq, Repr

namespace Position

def start : Position := ⟨1, 1⟩

def next (p : Position) (c : Char) : Position :=
  if c = '\n' then ⟨p.line + 1, 1⟩ else ⟨p.line, p.column + 1⟩

/-- The place after a text that starts at `p`. -/
def after (p : Position) (text : List Char) : Position := text.foldl next p

theorem after_append (p : Position) (a b : List Char) : p.after (a ++ b) = (p.after a).after b := by
  simp [after]

protected def toString (p : Position) : String := s!"{p.line}:{p.column}"

instance : ToString Position := ⟨Position.toString⟩

end Position

structure Token where
  kind : Kind
  literal : String
  position : Position
  deriving DecidableEq, Repr

namespace Token

def ofKind (kind : Kind) (position : Position) : Token := ⟨kind, kind.literal, position⟩

protected def toString (t : Token) : String :=
  match t.kind with
  | .eof => "EOF"
  | kind => s!"{kind.name}({t.literal})"

instance : ToString Token := ⟨Token.toString⟩

end Token

end Bisaya
