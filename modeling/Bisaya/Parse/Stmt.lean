import Bisaya.Parse.Expr
import Bisaya.Stmt.Basic
import Bisaya.Token.Piece

namespace Bisaya

namespace Parse

def typeKind : DataType → Kind
  | .numero => .keyword .numero
  | .tipik => .keyword .tipik
  | .letra => .keyword .letra
  | .tinuod => .keyword .tinuod

def dataType : List Token → Read (DataType × List Token)
  | [] => .error .endOfTokens
  | t :: rest =>
    match DataType.all.find? (t.kind = typeKind ·) with
    | some ty => .ok (ty, rest)
    | none => .error (.ofExpected (DataType.all.map typeKind) t)

/-- An initial value is a literal of the declared type, spelled by one token. -/
def literal (name : String) (ty : DataType) (negative : Bool) (t : Token) :
    Read Value :=
  match ty, t.kind with
  | .numero, .int =>
    match Numero.read? (Tipik.signed negative t.literal.toList) with
    | some n => .ok (.numero n)
    | none => .error (.invalidNumber t)
  | .tipik, .int | .tipik, .float =>
    match Tipik.read? t.literal.toList with
    | some x => .ok (.tipik (if negative then -x else x))
    | none => .error (.invalidNumber t)
  | .letra, .string => .ok (.letra t.literal)
  | .tinuod, .string =>
    match quotedValue t.literal with
    | .tinuod b => .ok (.tinuod b)
    | _ => .error (.ofMismatch name ty t)
  | .tinuod, .keyword .oo => .ok (.tinuod true)
  | .tinuod, .keyword .dili => .ok (.tinuod false)
  | _, _ => .error (.ofMismatch name ty t)

def isNumeric : DataType → Bool
  | .numero | .tipik => true
  | _ => false

/-- An initial value, where a number may have one sign before it. -/
def initial (name : String) (ty : DataType) : List Token → Read (Value × List Token)
  | [] => .error .endOfTokens
  | t :: rest =>
    if isNumeric ty && (t.kind = .mark .minus || t.kind = .mark .plus) then
      match rest with
      | [] => .error .endOfTokens
      | u :: rest => do return (← literal name ty (t.kind = .mark .minus) u, rest)
    else do return (← literal name ty false t, rest)

def item (ty : DataType) (ts : List Token) : Read (Item × List Token) := do
  let (name, rest) ← name ts
  if nextIs (.mark .assign) rest then
    let (v, rest) ← initial name ty rest.tail
    return (⟨name, some v⟩, rest)
  else return (⟨name, none⟩, rest)

def declaration (ts : List Token) : Read (Stmt × List Token) := do
  let (ty, rest) ← dataType ts
  let (items, rest) ← separated (.mark .comma) (item ty) rest.length rest
  return (.declare ty items, rest)

def separators (commas : Bool) : List Kind :=
  if commas then [.mark .assign, .mark .comma] else [.mark .assign]

/-- The rest of an assignment after the first `targets`. A name is a further target if a separator
follows it; commas separate targets unless they separate the clauses of a loop header. -/
def assignment (commas : Bool) (targets : List String) :
    List Token → Read (Assignment × List Token)
  | [] => .error .endOfTokens
  | sep :: rest =>
    if sep.kind ∈ separators commas then
      match rest with
      | [] => .error .endOfTokens
      | t :: rest' =>
        if t.kind = .ident ∧
            (sep.kind = .mark .comma ∨ (separators commas).any (nextIs · rest')) then
          assignment commas (targets ++ [t.literal]) rest'
        else if sep.kind = .mark .comma then .error (.ofExpected [.ident] t)
        else do
          let (value, rest) ← expr rest
          return (⟨targets, value⟩, rest)
    else .error (.ofExpected (separators commas) sep)

def step? (name : String) : List Token → Option (Step × List Token)
  | [] => none
  | t :: rest =>
    if t.kind = .mark .increment then some (⟨name, .up⟩, rest)
    else if t.kind = .mark .decrement then some (⟨name, .down⟩, rest)
    else none

def update (commas : Bool) (name : String) (ts : List Token) : Read (Update × List Token) :=
  match step? name ts with
  | some (s, rest) => .ok (.step s, rest)
  | none => do
    let (a, rest) ← assignment commas [name] ts
    return (.assign a, rest)

def segment : List Token → Read (Segment × List Token)
  | [] => .error .endOfTokens
  | t :: rest =>
    match t.kind with
    | .mark .dollar => .ok (.newline, rest)
    | .escape =>
      match t.literal.toList with
      | c :: _ => .ok (.escape c, rest)
      | [] => .error (.ofUnexpected t)
    | _ => do
      let (e, rest) ← expr (t :: rest)
      return (.expr e, rest)

def print (ts : List Token) : Read (Stmt × List Token) := do
  let (_, rest) ← expect [.mark .colon] ts
  let (segments, rest) ← separated (.mark .ampersand) segment rest.length rest
  return (.print segments, rest)

def read (ts : List Token) : Read (Stmt × List Token) := do
  let (_, rest) ← expect [.mark .colon] ts
  let (names, rest) ← separated (.mark .comma) name rest.length rest
  return (.read names, rest)

def clauseName (clause : Clause) : List Token → Read (String × List Token)
  | [] => .error .endOfTokens
  | t :: rest =>
    if t.kind = .ident then .ok (t.literal, rest) else .error (.invalidClause clause t.position)

/-- What surrounds a sequence of statements. -/
inductive Frame where
  | program
  | block (opened : Position)

def Frame.close : Frame → Kind
  | program => .keyword .katapusan
  | block _ => .mark .rbrace

/-- A token that shows that the frame is never closed. -/
def Frame.unclosed? : Frame → Token → Option ParseError
  | program, t => if t.kind = .eof then some (.missingEnd t.position) else none
  | block opened, t =>
    if t.kind = .eof ∨ t.kind = .keyword .katapusan then some (.unclosedBlock opened) else none

abbrev Inner := Frame → List Token → Read (List Stmt × List Token)

/-- Statements in braces, with or without `PUNDOK` before them. -/
def block (inner : Inner) (ts : List Token) : Read (List Stmt × List Token) := do
  let (opener, rest) ←
    expect [.mark .lbrace] (if nextIs (.keyword .pundok) ts then ts.tail else ts)
  inner (.block opener.position) rest

/-- A condition, which begins with a bracket, and its block. -/
def branch (inner : Inner) : List Token → Read ((Expr × List Stmt) × List Token)
  | [] => .error .endOfTokens
  | t :: rest =>
    if t.kind = .mark .lparen then do
      let (test, rest) ← expr (t :: rest)
      let (body, rest) ← block inner rest
      return ((test, body), rest)
    else .error (.ofExpected [.mark .lparen] t)

/-- The rest of a conditional; a bare `KUNG` begins a new statement. -/
def chain (inner : Inner) : Nat → List Token → Read (Chain × List Token)
  | n + 1, k :: t :: rest =>
    if k.kind = .keyword .kung ∧ t.kind = .keyword .dili then do
      let ((test, body), rest) ← branch inner rest
      let (more, rest) ← chain inner n rest
      return (.dili test body more, rest)
    else if k.kind = .keyword .kung ∧ t.kind = .keyword .wala then do
      let (body, rest) ← block inner rest
      return (.wala body, rest)
    else .ok (.done, k :: t :: rest)
  | _, ts => .ok (.done, ts)

def conditional (inner : Inner) : List Token → Read (Stmt × List Token)
  | [] => .error .endOfTokens
  | t :: rest =>
    if t.kind = .keyword .dili ∨ t.kind = .keyword .wala then .error (.ofUnexpected t)
    else do
      let ((test, body), rest) ← branch inner (t :: rest)
      let (more, rest) ← chain inner rest.length rest
      return (.choose test body more, rest)

def loop (inner : Inner) (ts : List Token) : Read (Stmt × List Token) := do
  let (_, rest) ← expect [.keyword .sa] ts
  let (_, rest) ← expect [.mark .lparen] rest
  let (first, rest) ← clauseName .init rest
  let (init, rest) ← assignment false [first] rest
  let (_, rest) ← expect [.mark .comma] rest
  let (test, rest) ← expr rest
  let (_, rest) ← expect [.mark .comma] rest
  let (name, rest) ← clauseName .update rest
  let (change, rest) ← update false name rest
  let (_, rest) ← expect [.mark .rparen] rest
  let (body, rest) ← block inner rest
  return (.loop init test change body, rest)

def stmt (inner : Inner) (t : Token) (rest : List Token) : Read (Stmt × List Token) :=
  match t.kind with
  | .keyword .mugna => declaration rest
  | .keyword .ipakita => print rest
  | .keyword .dawat => read rest
  | .keyword .kung => conditional inner rest
  | .keyword .alang => loop inner rest
  | .ident => do
    match ← update true t.literal rest with
    | (.step s, rest) => return (.step s, rest)
    | (.assign a, rest) => return (.assign a, rest)
  | _ => .error (.ofUnexpected t)

/-- The statements up to the token that closes the frame, which is read too; `n` bounds the number
of tokens. -/
def stmts : Nat → Inner
  | n + 1, frame, t :: rest =>
    if t.kind = frame.close then .ok ([], rest)
    else
      match frame.unclosed? t with
      | some e => .error e
      | none => do
        let (s, rest) ← stmt (stmts n) t rest
        let (more, rest) ← stmts n frame rest
        return (s :: more, rest)
  | _, _, _ => .error .endOfTokens

/-- `SUGOD`, statements, `KATAPUSAN`, and nothing else. -/
def program : List Token → Read Program
  | [] => .error .endOfTokens
  | start :: rest =>
    if start.kind = .keyword .sugod then do
      match ← stmts rest.length .program rest with
      | (_, []) => .error .endOfTokens
      | (body, t :: _) => if t.kind = .eof then .ok body else .error (.ofUnexpected t)
    else .error (.ofMissingStart start)

end Parse

/-- The program that a text spells. -/
def parse (source : String) : Except ParseError Program := Parse.program (tokenize source)

end Bisaya
