import Bisaya.Run.Script

namespace Bisaya

namespace Console

def newline : UInt8 := 10

/-- The first line of a stream with the line feed that ends it, and the rest of the stream. -/
def splitLine : List UInt8 → List UInt8 × List UInt8
  | [] => ([], [])
  | b :: bs =>
    if b = newline then ([b], bs)
    else
      let (line, rest) := splitLine bs
      (b :: line, rest)

def decode? (bytes : List UInt8) : Option String := String.fromUTF8? ⟨bytes.toArray⟩

/-- The text of a line less all line feeds and carriage returns at its end. -/
def lineText? (line : List UInt8) : Option String :=
  (decode? line).map fun s =>
    String.ofList ((s.toList.reverse.dropWhile fun c => c = '\n' || c = '\r').reverse)

/-- The next answer and the rest of the stream; there is none at the end of the stream or where a
line is not text. -/
def next? (stream : List UInt8) : Option (String × List UInt8) :=
  match stream with
  | [] => none
  | _ =>
    let (line, rest) := splitLine stream
    (lineText? line).map fun s => (s, rest)

def promptText (name : String) : String := "Enter value for " ++ name ++ ": "

end Console

/-- The end of a run at the console: what it did, and the prompts it showed. -/
structure Conversation where
  outcome : Outcome
  machine : Machine
  prompts : String

/-- Answers from the lines of a stream. -/
def Run.converse (prompt : Bool) : Run → List UInt8 → Conversation
  | .done m, _ => ⟨.done, m, ""⟩
  | .failed e m, _ => ⟨.failed e, m, ""⟩
  | .unfinished m, _ => ⟨.unfinished, m, ""⟩
  | .asks name m resume, stream =>
    let shown := if prompt then Console.promptText name else ""
    match Console.next? stream with
    | none => ⟨.failed (.noInput name), m, shown⟩
    | some (answer, rest) =>
      let c := (resume answer).converse prompt rest
      { c with prompts := shown ++ c.prompts }

end Bisaya
