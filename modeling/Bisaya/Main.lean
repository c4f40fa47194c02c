import Bisaya.Command.Response

namespace Bisaya.Terminal

/-- The bytes of the next line with its line feed, none at the end of the input. -/
partial def readLine (input : IO.FS.Stream) (line : List UInt8) : IO (List UInt8) := do
  let bytes ← input.read 1
  match bytes.toList with
  | b :: _ => if b = Console.newline then return (b :: line).reverse else readLine input (b :: line)
  | [] => return line.reverse

def converse (prompt : Bool) : Run → IO Conversation
  | .done m => return ⟨.done, m, ""⟩
  | .failed e m => return ⟨.failed e, m, ""⟩
  | .unfinished m => return ⟨.unfinished, m, ""⟩
  | .asks name m resume => do
    if prompt then
      let out ← IO.getStdout
      out.putStr (Console.promptText name)
      out.flush
    let line ← readLine (← IO.getStdin) []
    match Console.next? line with
    | none => return ⟨.failed (.noInput name), m, ""⟩
    | some (answer, _) => converse prompt (resume answer)

def reason : IO.Error → String
  | .noFileOrDirectory .. | .noSuchThing .. => "No such file or directory (os error 2)"
  | .inappropriateType .. => "Is a directory (os error 21)"
  | e => toString e

def readFile (target : String) : IO (Except String (List UInt8)) := do
  try
    let bytes ← IO.FS.readBinFile target
    return .ok bytes.toList
  catch e => return .error (reason e)

def answer (args : List String) : IO Response := do
  match Arguments.read args with
  | .ok ⟨.run target noPrompt, _⟩ =>
    match Response.sourceText (← readFile target) with
    | .error reason => return .unreadable target reason
    | .ok source =>
      match parse source with
      | .error e => return .ofError "" (.parse e)
      | .ok program =>
        let c ← converse (!noPrompt) (execAll Response.patience program .start)
        return .ofConversation c
  | .ok ⟨.tokens target, _⟩ =>
    let file ← readFile target
    return Response.answer (fun _ => file) [] args
  | .error u => return .ofUsage u

end Bisaya.Terminal

def main (args : List String) : IO UInt32 := do
  let r ← Bisaya.Terminal.answer args
  IO.print r.out
  IO.eprint r.err
  return r.exit.toUInt32
