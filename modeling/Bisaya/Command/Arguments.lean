namespace Bisaya

inductive Subcommand where
  | run | tokens
  deriving DecidableEq, Repr

inductive Command where
  | run (target : String) (noPrompt : Bool)
  | tokens (target : String)
  deriving DecidableEq, Repr

structure Invocation where
  command : Command
  verbose : Nat
  deriving DecidableEq, Repr

inductive Usage where
  | noArguments
  | missingSubcommand
  | invalidSubcommand
  | missingTarget
  | unknownArgument
  | repeatedFlag
  | unneededValue
  | help
  | version
  deriving DecidableEq, Repr

namespace Usage

/-- Asking for help or for the version is no error. -/
def exitCode : Usage → Nat
  | help | version => 0
  | _ => 2

def message : Usage → String
  | noArguments => "no command is given"
  | missingSubcommand => "no subcommand is given"
  | invalidSubcommand => "there is no such subcommand"
  | missingTarget => "the target file is missing"
  | unknownArgument => "an argument is not understood"
  | repeatedFlag => "a flag is given twice"
  | unneededValue => "a flag takes no value"
  | help => "help"
  | version => "version"

end Usage

namespace Arguments

inductive Flag where
  | verbose | noPrompt | help | version
  deriving DecidableEq, Repr

/-- The flags that may stand before the subcommand (`none`) or after it. -/
def allowed : Option Subcommand → List Flag
  | none => [.verbose, .help, .version]
  | some .run => [.verbose, .noPrompt, .help]
  | some .tokens => [.verbose, .help]

def Flag.long : Flag → String
  | verbose => "verbose"
  | noPrompt => "no-prompt"
  | help => "help"
  | version => "version"

def Flag.short? : Flag → Option Char
  | verbose => some 'v'
  | noPrompt => none
  | help => some 'h'
  | version => some 'V'

/-- The flags seen so far; a count of flags stops at 255. -/
structure Flags where
  verbose : Nat
  noPrompt : Bool
  deriving DecidableEq, Repr

def Flags.none : Flags := ⟨0, false⟩

def Flags.add (fs : Flags) : Flag → Except Usage Flags
  | .verbose => .ok { fs with verbose := min 255 (fs.verbose + 1) }
  | .noPrompt => if fs.noPrompt then .error .repeatedFlag else .ok { fs with noPrompt := true }
  | .help => .error .help
  | .version => .error .version

def readLong (place : Option Subcommand) (fs : Flags) (cs : List Char) : Except Usage Flags :=
  match (allowed place).find? (·.long.toList = cs.takeWhile (· ≠ '=')) with
  | Option.none => .error .unknownArgument
  | some flag => if '=' ∈ cs then .error .unneededValue else fs.add flag

def readShort (place : Option Subcommand) (fs : Flags) : List Char → Except Usage Flags
  | [] => .ok fs
  | c :: cs =>
    match (allowed place).find? (·.short? = some c) with
    | Option.none => .error .unknownArgument
    | some flag => do
      let fs ← fs.add flag
      readShort place fs cs

/-- The flags of an argument that has the form of flags; a dash alone has not. -/
def readFlags? (place : Option Subcommand) (fs : Flags) (arg : String) :
    Option (Except Usage Flags) :=
  match arg.toList with
  | '-' :: '-' :: cs => some (readLong place fs cs)
  | '-' :: c :: cs => some (readShort place fs (c :: cs))
  | _ => Option.none

def addTarget (target : Option String) (arg : String) : Except Usage (Option String) :=
  match target with
  | Option.none => .ok (some arg)
  | some _ => .error .unknownArgument

/-- The arguments of a subcommand; after two dashes all are targets. -/
def readRest (sub : Subcommand) (targetsOnly : Bool) (fs : Flags) (target : Option String) :
    List String → Except Usage (String × Flags)
  | [] =>
    match target with
    | some t => .ok (t, fs)
    | Option.none => .error .missingTarget
  | arg :: args =>
    if targetsOnly then do
      let target ← addTarget target arg
      readRest sub true fs target args
    else if arg = "--" then readRest sub true fs target args
    else
      match readFlags? (some sub) fs arg with
      | some r => do
        let fs ← r
        readRest sub false fs target args
      | Option.none => do
        let target ← addTarget target arg
        readRest sub false fs target args

def subcommand? (arg : String) : Option Subcommand :=
  if arg = "run" then some .run else if arg = "tokens" then some .tokens else Option.none

/-- Flags after the subcommand take the place of those before it. -/
def invocation (sub : Subcommand) (before : Flags) (args : List String) :
    Except Usage Invocation := do
  let (target, fs) ← readRest sub false .none Option.none args
  let verbose := if fs.verbose = 0 then before.verbose else fs.verbose
  match sub with
  | .run => return ⟨.run target fs.noPrompt, verbose⟩
  | .tokens => return ⟨.tokens target, verbose⟩

def readHelp : List String → Usage
  | [] => .help
  | [arg] => if arg = "help" ∨ (subcommand? arg).isSome then .help else .invalidSubcommand
  | _ => .invalidSubcommand

def incomplete (fs : Flags) : Usage := if fs = .none then .noArguments else .missingSubcommand

/-- Arguments from the first one on; no subcommand may follow two dashes. -/
def readFrom (fs : Flags) : List String → Except Usage Invocation
  | [] => .error (incomplete fs)
  | arg :: args =>
    if arg = "help" then .error (readHelp args)
    else if arg = "--" then
      match args with
      | [] => .error (incomplete fs)
      | word :: _ =>
        if word = "help" ∨ (subcommand? word).isSome then .error .unknownArgument
        else .error .invalidSubcommand
    else
      match subcommand? arg with
      | some sub => invocation sub fs args
      | Option.none =>
        match readFlags? Option.none fs arg with
        | some r => do
          let fs ← r
          readFrom fs args
        | Option.none => .error .invalidSubcommand

def read (args : List String) : Except Usage Invocation := readFrom .none args

end Arguments
end Bisaya
