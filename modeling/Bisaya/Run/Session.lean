import Bisaya.Run.Script

namespace Bisaya

/-- Runs the statements one by one with prepared answers, each with its own output, and goes on
after one that fails. -/
def stepwise (n : Nat) (env : Env) (answers : List String) : Program → List Ending
  | [] => []
  | s :: rest =>
    let ending := (s.exec n ⟨env, #[]⟩).play answers
    ending :: stepwise n ending.machine.env ending.remaining rest

inductive Request where
  | declare (name : String) (ty : DataType) (initial : Option Value)
  | assign (name : String) (v : Value)
  | get (name : String)
  | lookup (name : String)
  | variables
  | size
  | save
  | restore
  /-- Takes an answer as a run that asks for `name` would. -/
  | next (name : String)
  | exec (source : String)

inductive Reply where
  | ok
  | error (e : Error)
  | value (v : Value)
  | variable (name : String) (x : Variable)
  | variables (vars : List (String × Variable))
  | size (n : Nat)
  | raw (text : String)
  | ran (ending : Ending)

structure Session where
  env : Env
  saved : Env
  answers : List String
  asked : List String

namespace Session

def start (answers : List String) : Session := ⟨.empty, .empty, answers, []⟩

/-- Takes over a changed environment; an error changes nothing. -/
def change (s : Session) : Except RuntimeError Env → Session × Reply
  | .ok env => ({ s with env := env }, .ok)
  | .error e => (s, .error (.run e))

/-- Carries out one request; loops take at most `n` rounds. -/
def perform (n : Nat) (s : Session) : Request → Session × Reply
  | .declare name ty initial => s.change (s.env.declare name ty initial)
  | .assign name v => s.change (s.env.assign name v)
  | .get name =>
    match s.env.lookup name with
    | .ok x => (s, .value x.value)
    | .error e => (s, .error (.run e))
  | .lookup name =>
    match s.env.lookup name with
    | .ok x => (s, .variable name x)
    | .error e => (s, .error (.run e))
  | .variables => (s, .variables s.env.toList)
  | .size => (s, .size s.env.size)
  | .save => ({ s with saved := s.env }, .ok)
  | .restore => ({ s with env := s.saved }, .ok)
  | .next name =>
    let s := { s with asked := s.asked ++ [name] }
    match s.answers with
    | [] => (s, .error (.run (.noInput name)))
    | a :: answers => ({ s with answers := answers }, .raw a)
  | .exec source =>
    match parse source with
    | .error e => (s, .error (.parse e))
    | .ok program =>
      let ending := (execAll n program ⟨s.env, #[]⟩).play s.answers
      ({ s with env := ending.machine.env, answers := ending.remaining,
                asked := s.asked ++ ending.asked }, .ran ending)

def performAll (n : Nat) (s : Session) : List Request → Session × List Reply
  | [] => (s, [])
  | r :: requests =>
    let (s, reply) := s.perform n r
    let (s, replies) := s.performAll n requests
    (s, reply :: replies)

end Session
end Bisaya
