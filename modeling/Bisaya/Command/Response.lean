import Bisaya.Command.Arguments
import Bisaya.Run.Console

namespace Bisaya

structure Response where
  exit : Nat
  out : String
  err : String
  deriving DecidableEq, Repr

namespace Response

def success (out : String) : Response := ⟨0, out, ""⟩

def failure (out err : String) : Response := ⟨1, out, err⟩

def line (s : String) : String := s ++ "\n"

def lines (ss : List String) : String := String.join (ss.map line)

def unreadable (target reason : String) : Response :=
  failure "" (line ("cannot read '" ++ target ++ "': " ++ reason))

def ofError (out : String) (e : Error) : Response := failure out (line e.report)

/-- The printed lines follow all prompts. -/
def ofConversation (c : Conversation) : Response :=
  let out := c.prompts ++ lines c.machine.output.toList
  match c.outcome with
  | .done => success out
  | .failed e => ofError out (.run e)
  | .unfinished => failure out ""

def tokenLine (t : Token) : String :=
  toString t.position ++ "\t" ++ t.kind.className ++ "\t" ++ toString t

/-- The listing of tokens, which fails if one of them is outside the language. -/
def ofTokens (ts : List Token) : Response :=
  let out := lines (ts.map tokenLine)
  if ts.any (·.kind = .illegal) then failure out "" else success out

def helpText : String :=
  lines ["Interpreter for the Bisaya++ teaching language", "", "Usage: bpp [OPTIONS] <COMMAND>", "",
    "Commands:", "  run     Run source file", "  tokens  Print the token stream of a source file",
    "  help    Print this message", "", "Options:",
    "      --no-prompt   Do not print a prompt before reading each DAWAT value (run)",
    "  -v, --verbose...  Increase log verbosity", "  -h, --help        Print help",
    "  -V, --version     Print version"]

def versionText : String := "bpp-lang 0.1.0"

def ofUsage (u : Usage) : Response :=
  match u with
  | .help => ⟨u.exitCode, helpText, ""⟩
  | .version => ⟨u.exitCode, line versionText, ""⟩
  | _ => ⟨u.exitCode, "", line ("error: " ++ u.message)⟩

/-- Carries out a program text with the answers from a stream, with up to `n` rounds to a loop. -/
def ofRun (n : Nat) (source : String) (prompt : Bool) (stream : List UInt8) : Response :=
  match parse source with
  | .error e => ofError "" (.parse e)
  | .ok program => ofConversation ((execAll n program .start).converse prompt stream)

def sourceText (file : Except String (List UInt8)) : Except String String :=
  match file with
  | .error reason => .error reason
  | .ok bytes =>
    match Console.decode? bytes with
    | some s => .ok s
    | none => .error "stream did not contain valid UTF-8"

/-- The answer to a command line, where `file` gives the bytes of a target. The arguments are read
by `reader`: they ask for a command, or they call for a response by themselves. -/
def answerWithin (reader : List String → Except Response Invocation) (n : Nat)
    (file : String → Except String (List UInt8)) (stream : List UInt8) (args : List String) :
    Response :=
  match reader args with
  | .error response => response
  | .ok ⟨.run target noPrompt, _⟩ =>
    match sourceText (file target) with
    | .error reason => unreadable target reason
    | .ok source => ofRun n source (!noPrompt) stream
  | .ok ⟨.tokens target, _⟩ =>
    match sourceText (file target) with
    | .error reason => unreadable target reason
    | .ok source => ofTokens (tokenize source)

/-- The rounds that a loop may take, more than any loop can take in practice. -/
def patience : Nat := 0x4000000000000000

def readArguments (args : List String) : Except Response Invocation :=
  (Arguments.read args).mapError ofUsage

def answer : (String → Except String (List UInt8)) → List UInt8 → List String → Response :=
  answerWithin readArguments patience

end Response
end Bisaya
