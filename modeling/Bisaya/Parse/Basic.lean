import Bisaya.Error

namespace Bisaya.Parse

abbrev Read := Except ParseError

def expect (kinds : List Kind) : List Token → Read (Token × List Token)
  | [] => .error .endOfTokens
  | t :: rest => if t.kind ∈ kinds then .ok (t, rest) else .error (.ofExpected kinds t)

def nextIs (kind : Kind) : List Token → Bool
  | [] => false
  | t :: _ => t.kind = kind

/-- One item or more with a token of the kind `sep` between two of them; `n` bounds the number of
tokens. -/
def separated {α : Type} (sep : Kind) (item : List Token → Read (α × List Token)) :
    Nat → List Token → Read (List α × List Token)
  | 0, _ => .error .endOfTokens
  | n + 1, ts => do
    let (a, rest) ← item ts
    if nextIs sep rest then
      let (as, rest) ← separated sep item n rest.tail
      return (a :: as, rest)
    else return ([a], rest)

def name (ts : List Token) : Read (String × List Token) := do
  let (t, rest) ← expect [.ident] ts
  return (t.literal, rest)

end Bisaya.Parse
