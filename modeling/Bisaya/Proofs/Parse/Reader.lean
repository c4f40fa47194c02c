import Bisaya.Parse.Stmt
import Bisaya.Proofs.Parse.Tree

namespace Bisaya

/-- What a reader sees of a token, and where it stands among the others. -/
structure Seen where
  kind : Kind
  literal : String
  place : ℕ

/-- What a reader may find wrong with a token. -/
inductive Complaint where
  | expected (kinds : List Kind)
  | unexpected
  | start
  | unended
  | unclosed
  | number
  | clause (clause : Clause)
  | mismatch (name : String) (ty : DataType)

def Complaint.error : Complaint → Token → ParseError
  | expected kinds, t => .ofExpected kinds t
  | unexpected, t => .ofUnexpected t
  | start, t => .ofMissingStart t
  | unended, t => .missingEnd t.position
  | unclosed, t => .unclosedBlock t.position
  | number, t => .invalidNumber t
  | clause c, t => .invalidClause c t.position
  | mismatch name ty, t => .ofMismatch name ty t

/-- What a reader may ask about the tokens from the cursor on. -/
inductive Look where
  | next (kind : Kind)
  /-- Whether a name comes next and a separator of targets behind it. -/
  | target (commas : Bool)
  /-- Whether `KUNG` comes next and the word behind it. -/
  | clause (word : Keyword)
  /-- Whether a `DILI` that was taken last stands alone. -/
  | bare

/-- A reader as a tree of the calls that it makes on the cursor, up to a result, to a complaint
about one of the tokens, or to a bound on its loops. -/
inductive Reader (α : Type) where
  | done (a : α)
  | fail (c : Complaint) (place : ℕ)
  | stop
  | next (k : Seen → Reader α)
  | peek (k : Seen → Reader α)
  | want (kinds : List Kind) (k : Seen → Reader α)
  | look (q : Look) (k : Bool → Reader α)

namespace Reader

variable {α β γ : Type}

def bind : Reader α → (α → Reader β) → Reader β
  | done a, f => f a
  | fail c place, _ => fail c place
  | stop, _ => stop
  | next k, f => next fun t => (k t).bind f
  | peek k, f => peek fun t => (k t).bind f
  | want kinds k, f => want kinds fun t => (k t).bind f
  | look q k, f => look q fun b => (k b).bind f

instance : Monad Reader where
  pure := done
  bind := bind

def take : Reader Seen := next done

def token : Reader Seen := peek done

def expect (kinds : List Kind) : Reader Seen := want kinds done

def ask (q : Look) : Reader Bool := look q done

def separated (sep : Kind) (item : Reader α) : ℕ → Reader (List α)
  | 0 => stop
  | n + 1 => do
    let a ← item
    if ← ask (.next sep) then
      let _ ← expect [sep]
      let as ← separated sep item n
      return a :: as
    else return [a]

def name : Reader String := do
  let t ← expect [.ident]
  return t.literal

def operator (t : Seen) : Reader Tree.Op :=
  match Tree.Op.ofKind? t.kind with
  | some op => done op
  | none => fail .unexpected t.place

def signed (inner : ℕ → Reader Tree.Expr) (t : Seen) : Reader Tree.Expr := do
  let op ← operator t
  let e ← inner UnOp.level
  return .unary op e

def operand (inner : ℕ → Reader Tree.Expr) : Reader Tree.Expr := do
  let t ← take
  match t.kind with
  | .int =>
    match Numero.read? t.literal.toList with
    | some n => return .lit (.numero n)
    | none => fail .number t.place
  | .float =>
    match Tipik.read? t.literal.toList with
    | some x => return .lit (.tipik x)
    | none => fail .number t.place
  | .string => return .lit (Parse.quotedValue t.literal)
  | .ident => return .var t.literal
  | .keyword .oo => return .lit (.tinuod true)
  | .keyword .dili => do
    let _ ← token
    if ← ask .bare then return .lit (.tinuod false) else signed inner t
  | .mark .minus => signed inner t
  | .mark .plus => signed inner t
  | .mark .lparen => do
    let e ← inner 0
    let _ ← expect [.mark .rparen]
    return e
  | _ => fail .unexpected t.place

mutual

def exprAbove : ℕ → ℕ → Reader Tree.Expr
  | 0, _ => stop
  | n + 1, level => do
    let left ← operand (exprAbove n)
    climb n level left

/-- Goes on as long as the next token binds more tightly than `level`. -/
def climb : ℕ → ℕ → Tree.Expr → Reader Tree.Expr
  | 0, _, _ => stop
  | n + 1, level, left => do
    let t ← token
    if level < Tree.precedence t.kind then
      let t ← take
      let op ← operator t
      let right ← exprAbove n (Tree.precedence t.kind)
      climb n level (.binary op left right)
    else return left

end

def expr (n : ℕ) : Reader Tree.Expr := exprAbove n 0

def dataType : Reader DataType := do
  let t ← expect (DataType.all.map Parse.typeKind)
  match DataType.all.find? (t.kind = Parse.typeKind ·) with
  | some ty => return ty
  | none => fail (.expected (DataType.all.map Parse.typeKind)) t.place

def literal (name : String) (ty : DataType) (negative : Bool) (t : Seen) : Reader Value :=
  match ty, t.kind with
  | .numero, .int =>
    match Numero.read? (Tipik.signed negative t.literal.toList) with
    | some n => done (.numero n)
    | none => fail .number t.place
  | .tipik, .int | .tipik, .float =>
    match Tipik.read? t.literal.toList with
    | some x => done (.tipik (if negative then -x else x))
    | none => fail .number t.place
  | .letra, .string => done (.letra t.literal)
  | .tinuod, .string =>
    match Parse.quotedValue t.literal with
    | .tinuod b => done (.tinuod b)
    | _ => fail (.mismatch name ty) t.place
  | .tinuod, .keyword .oo => done (.tinuod true)
  | .tinuod, .keyword .dili => done (.tinuod false)
  | _, _ => fail (.mismatch name ty) t.place

def initial (name : String) (ty : DataType) : Reader Value := do
  let t ← take
  if Parse.isNumeric ty && (t.kind = .mark .minus || t.kind = .mark .plus) then
    let u ← take
    literal name ty (t.kind = .mark .minus) u
  else literal name ty false t

def item (ty : DataType) : Reader Item := do
  let name ← name
  if ← ask (.next (.mark .assign)) then
    let _ ← expect [.mark .assign]
    let v ← initial name ty
    return ⟨name, some v⟩
  else return ⟨name, none⟩

def declaration (n : ℕ) : Reader Tree.Stmt := do
  let ty ← dataType
  let items ← separated (.mark .comma) (item ty) n
  return .declare ty items

/-- A separator and the target behind it, or the separator in front of the value. -/
def target (commas : Bool) : Reader (Option String) := do
  let sep ← expect (Parse.separators commas)
  if sep.kind = .mark .comma then
    let t ← expect [.ident]
    return some t.literal
  else if ← ask (.target commas) then
    let t ← expect [.ident]
    return some t.literal
  else return none

def assignment (commas : Bool) : ℕ → List String → Reader Tree.Stmt
  | 0, _ => stop
  | n + 1, targets => do
    match ← target commas with
    | some name => assignment commas n (targets ++ [name])
    | none =>
      let value ← expr n
      return .assign targets value

def increment (name : String) : Reader Tree.Stmt := do
  let t ← expect [.mark .increment, .mark .decrement]
  return .increment name (if t.kind = .mark .increment then .add else .sub)

def update (n : ℕ) (commas : Bool) (name : String) : Reader Tree.Stmt := do
  if ← ask (.next (.mark .increment)) then increment name
  else if ← ask (.next (.mark .decrement)) then increment name
  else assignment commas n [name]

def segment (n : ℕ) : Reader Tree.Segment := do
  let t ← token
  match t.kind with
  | .mark .dollar => do
    let _ ← expect [.mark .dollar]
    return .newline
  | .escape => do
    let t ← expect [.escape]
    match t.literal.toList with
    | c :: _ => return .escape c
    | [] => fail .unexpected t.place
  | _ => do
    let e ← expr n
    return .expr e

def print (n : ℕ) : Reader Tree.Stmt := do
  let _ ← expect [.mark .colon]
  let segments ← separated (.mark .ampersand) (segment n) n
  return .print segments

def read (n : ℕ) : Reader Tree.Stmt := do
  let _ ← expect [.mark .colon]
  let names ← separated (.mark .comma) name n
  return .read names

def clauseName (clause : Clause) : Reader String := do
  let t ← take
  if t.kind = .ident then return t.literal else fail (.clause clause) t.place

/-- What surrounds a sequence of statements; a block knows where it was opened. -/
inductive Frame where
  | program
  | block (opened : ℕ)

def Frame.close : Frame → Kind
  | program => .keyword .katapusan
  | block _ => .mark .rbrace

def Frame.unclosed? : Frame → Seen → Option (Complaint × ℕ)
  | program, t => if t.kind = .eof then some (.unended, t.place) else none
  | block opened, t =>
    if t.kind = .eof ∨ t.kind = .keyword .katapusan then some (.unclosed, opened) else none

abbrev Inner := Frame → Reader (List Tree.Stmt)

def block (inner : Inner) : Reader (List Tree.Stmt) := do
  if ← ask (.next (.keyword .pundok)) then
    let _ ← expect [.keyword .pundok]
  let opener ← expect [.mark .lbrace]
  inner (.block opener.place)

def branch (n : ℕ) (inner : Inner) : Reader Tree.Branch := do
  if ← ask (.next (.mark .lparen)) then
    let test ← expr n
    let body ← block inner
    return .mk (some test) body
  else
    let t ← take
    fail (.expected [.mark .lparen]) t.place

def chain (inner : Inner) : ℕ → Reader (List Tree.Branch)
  | 0 => stop
  | n + 1 => do
    if ← ask (.clause .dili) then
      let _ ← expect [.keyword .kung]
      let _ ← expect [.keyword .dili]
      let b ← branch n inner
      let more ← chain inner n
      return b :: more
    else if ← ask (.clause .wala) then
      let _ ← expect [.keyword .kung]
      let _ ← expect [.keyword .wala]
      let body ← block inner
      return [.mk none body]
    else return []

def conditional (n : ℕ) (inner : Inner) : Reader Tree.Stmt := do
  let dili ← ask (.next (.keyword .dili))
  let wala ← ask (.next (.keyword .wala))
  if dili || wala then
    let t ← take
    fail .unexpected t.place
  else
    let b ← branch n inner
    let more ← chain inner n
    return .conditional (b :: more)

def loop (n : ℕ) (inner : Inner) : Reader Tree.Stmt := do
  let _ ← expect [.keyword .sa]
  let _ ← expect [.mark .lparen]
  let first ← clauseName .init
  let init ← assignment false n [first]
  let _ ← expect [.mark .comma]
  let test ← expr n
  let _ ← expect [.mark .comma]
  let name ← clauseName .update
  let change ← update n false name
  let _ ← expect [.mark .rparen]
  let body ← block inner
  return .loop init test change body

def stmt (n : ℕ) (inner : Inner) : Reader Tree.Stmt := do
  let t ← take
  match t.kind with
  | .keyword .mugna => declaration n
  | .keyword .ipakita => print n
  | .keyword .dawat => read n
  | .keyword .kung => conditional n inner
  | .keyword .alang => loop n inner
  | .ident => update n true t.literal
  | _ => fail .unexpected t.place

/-- The statements up to the token that closes the frame. -/
def stmts : ℕ → Inner
  | 0, _ => stop
  | n + 1, frame => do
    let t ← token
    if t.kind = frame.close then
      let _ ← expect [frame.close]
      return []
    else
      match frame.unclosed? t with
      | some (c, place) => fail c place
      | none =>
        let s ← stmt n (stmts n)
        let more ← stmts n frame
        return s :: more

def program (n : ℕ) : Reader Tree.Program := do
  let start ← take
  if start.kind = .keyword .sugod then
    let body ← stmts n .program
    let t ← take
    if t.kind = .eof then return body else fail .unexpected t.place
  else fail .start start.place

end Reader
end Bisaya
