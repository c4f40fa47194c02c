import Mathlib
import Bisaya.Command.Response
import Bisaya.Proofs.Run.Play

namespace Bisaya

namespace Console

/-- The lines of a stream, each with the line feed that ends it; the last one may lack it. -/
def lines (stream : List UInt8) : List (List UInt8) := stream.splitBy fun b _ => b ≠ newline

def withoutEnd (s : String) : String :=
  String.ofList (s.toList.rdropWhile fun c => c = '\n' || c = '\r')

/-- The lines before the first one that is not text, each without its end. -/
def answers (stream : List UInt8) : List String :=
  (((lines stream).map decode?).takeWhile Option.isSome).reduceOption.map withoutEnd

theorem splitLine_append (stream : List UInt8) :
    (splitLine stream).1 ++ (splitLine stream).2 = stream := by
  fun_induction splitLine stream with
  | case1 => rfl
  | case2 bs => rfl
  | case3 b bs hb line rest hsplit ih =>
    rw [hsplit] at ih
    rw [List.cons_append, ih]

theorem splitLine_isChain (stream : List UInt8) :
    (splitLine stream).1.IsChain fun b _ => decide (b ≠ newline) = true := by
  fun_induction splitLine stream with
  | case1 => exact .nil
  | case2 bs => exact .singleton newline
  | case3 b bs hb line rest hsplit ih =>
    rw [hsplit] at ih
    exact List.isChain_cons.2 ⟨fun c _ => decide_eq_true hb, ih⟩

theorem getLast?_splitLine {stream : List UInt8} (h : (splitLine stream).2 ≠ []) :
    (splitLine stream).1.getLast? = some newline := by
  fun_induction splitLine stream with
  | case1 => exact absurd rfl h
  | case2 bs => rfl
  | case3 b bs hb line rest hsplit ih =>
    rw [hsplit] at ih
    rw [List.getLast?_cons, ih h]
    rfl

theorem lines_of_ne_nil {stream : List UInt8} (h : stream ≠ []) :
    lines stream = (splitLine stream).1 :: lines (splitLine stream).2 := by
  have hline : (splitLine stream).1 ≠ [] := by
    unfold splitLine
    split
    · exact absurd rfl h
    · split <;> exact List.cons_ne_nil _ _
  have hend : ∀ b ∈ (splitLine stream).1.getLast?, ∀ c ∈ (splitLine stream).2.head?,
      decide (b ≠ newline) = false := by
    intro b hb c hc
    have hrest : (splitLine stream).2 ≠ [] := List.ne_nil_of_mem (List.mem_of_mem_head? hc)
    rw [getLast?_splitLine hrest, Option.mem_some_iff] at hb
    simp [hb]
  have hsplit := List.splitBy_append hend
  rw [splitLine_append, List.splitBy_of_isChain hline (splitLine_isChain stream)] at hsplit
  exact hsplit

theorem next?_of_ne_nil {stream : List UInt8} (h : stream ≠ []) :
    next? stream = (decode? (splitLine stream).1).map
      fun s => (withoutEnd s, (splitLine stream).2) := by
  cases stream with
  | nil => exact absurd rfl h
  | cons b bs =>
    change (lineText? _).map _ = _
    rw [lineText?, Option.map_map]
    rfl

theorem answers_of_next?_none {stream : List UInt8} (h : next? stream = none) :
    answers stream = [] := by
  by_cases hne : stream = []
  · subst hne
    rfl
  · rw [next?_of_ne_nil hne, Option.map_eq_none_iff] at h
    rw [answers, lines_of_ne_nil hne, List.map_cons, h]
    rfl

theorem answers_of_next?_some {stream rest : List UInt8} {a : String}
    (h : next? stream = some (a, rest)) : answers stream = a :: answers rest := by
  have hne : stream ≠ [] := by
    rintro rfl
    cases h
  rw [next?_of_ne_nil hne, Option.map_eq_some_iff] at h
  obtain ⟨s, hs, hpair⟩ := h
  obtain ⟨rfl, rfl⟩ := Prod.mk.inj hpair
  rw [answers, lines_of_ne_nil hne, List.map_cons, hs]
  rfl

end Console

/-- The same end seen at the console. -/
def Ending.conversation (prompt : Bool) (e : Ending) : Conversation :=
  ⟨e.outcome, e.machine, if prompt then String.join (e.asked.map Console.promptText) else ""⟩

/-- A run at the console is the run with the lines of the stream for its answers. -/
theorem Run.converse_eq (prompt : Bool) (r : Run) (stream : List UInt8) :
    r.converse prompt stream = (r.play (Console.answers stream)).conversation prompt := by
  induction r generalizing stream with
  | done m => cases prompt <;> rfl
  | failed e m => cases prompt <;> rfl
  | unfinished m => cases prompt <;> rfl
  | asks name m resume ih =>
    rw [converse]
    cases hnext : Console.next? stream with
    | none =>
      rw [Console.answers_of_next?_none hnext]
      cases prompt <;> simp [play, Ending.conversation]
    | some next =>
      obtain ⟨a, rest⟩ := next
      rw [Console.answers_of_next?_some hnext]
      cases prompt <;> simp [play, Ending.conversation, ih]

namespace Response

theorem sourceText_toUTF8 (source : String) :
    sourceText (.ok source.toUTF8.data.toList) = .ok source := by
  simp [sourceText, Console.decode?, String.fromUTF8?, String.fromUTF8, source.isValidUTF8]

def ofInterpretation (prompt : Bool) : Except ParseError Ending → Response
  | .error e => ofError "" (.parse e)
  | .ok ending => ofConversation (ending.conversation prompt)

theorem ofRun_eq (n : Nat) (source : String) (prompt : Bool) (stream : List UInt8) :
    ofRun n source prompt stream =
      ofInterpretation prompt (interpret n source (Console.answers stream)) := by
  unfold ofRun interpret
  cases parse source with
  | error e => rfl
  | ok program => exact congrArg ofConversation (Run.converse_eq prompt _ stream)

/-- What the console shows of an ending: the prompts before the printed lines, and one error. -/
structure Shows (noPrompt : Bool) (ending : Ending) (r : Response) : Prop where
  out : r.out =
    (if noPrompt then "" else
      String.join (ending.asked.map fun name => "Enter value for " ++ name ++ ": ")) ++
    String.join (ending.machine.output.toList.map fun s => s ++ "\n")
  exit : r.exit = if ending.outcome = .done then 0 else 1
  err_done : ending.outcome = .done → r.err = ""
  err_failed : ∀ e, ending.outcome = .failed e →
    r.err = (Error.run e).category.name ++ ": " ++ (Error.run e).message ++ "\n"

theorem ofConversation_shows (noPrompt : Bool) (ending : Ending) :
    Shows noPrompt ending (ofConversation (ending.conversation !noPrompt)) := by
  obtain ⟨outcome, machine, asked, remaining⟩ := ending
  have hout : (ofConversation (Ending.conversation (!noPrompt)
      ⟨outcome, machine, asked, remaining⟩)).out =
      (if noPrompt then "" else String.join (asked.map Console.promptText)) ++
        lines machine.output.toList := by
    cases outcome <;> cases noPrompt <;> rfl
  refine ⟨hout, ?_, ?_, ?_⟩
  · cases outcome <;> rfl
  · rintro ⟨⟩
    rfl
  · rintro e ⟨⟩
    rfl

/-- The console takes part in a program as prepared answers do: the prompts, the printed lines and
the error are those of the interpretation with the lines of the stream. The command asks for no
log. -/
theorem answerWithin_run {reader : List String → Except Response Invocation}
    {file : String → Except String (List UInt8)} {args : List String} {target source : String}
    {noPrompt : Bool} (hargs : reader args = .ok ⟨.run target noPrompt, 0⟩)
    (hfile : file target = .ok source.toUTF8.data.toList) (n : Nat) (stream : List UInt8) :
    (∀ e, interpret n source (Console.answers stream) = .error e →
      answerWithin reader n file stream args =
        ⟨1, "", (Error.parse e).category.name ++ ": " ++ (Error.parse e).message ++ "\n"⟩) ∧
    ∀ ending, interpret n source (Console.answers stream) = .ok ending →
      Shows noPrompt ending (answerWithin reader n file stream args) ∧
      (ending.outcome ≠ .unfinished → ∀ k ≥ n,
        answerWithin reader k file stream args = answerWithin reader n file stream args) := by
  have hanswer (k : Nat) : answerWithin reader k file stream args =
      ofInterpretation (!noPrompt) (interpret k source (Console.answers stream)) := by
    simp only [answerWithin, hargs, hfile, sourceText_toUTF8, ofRun_eq]
  refine ⟨fun e he => ?_, fun ending hending => ⟨?_, fun hends k hk => ?_⟩⟩
  · rw [hanswer, he]
    rfl
  · rw [hanswer, hending]
    exact ofConversation_shows noPrompt ending
  · rw [hanswer, hanswer, hending, interpret_mono hk hending hends]

/-- Two answers are asked for, one before the printed line and one after it. -/
def echo : String := "SUGOD\nMUGNA LETRA a\nDAWAT: a\nIPAKITA: a\nDAWAT: a\nKATAPUSAN"

def echoProgram : Program :=
  [.declare .letra [⟨"a", none⟩], .read ["a"], .print [.expr (.var "a")], .read ["a"]]

def echoFile (_ : String) : Except String (List UInt8) := .ok echo.toUTF8.data.toList

/-- The first line ends in two carriage returns, and the second is not text. -/
theorem answerWithin_echo :
    readArguments ["run", "echo"] = .ok ⟨.run "echo" false, 0⟩ ∧
    ∀ k, answerWithin readArguments k echoFile [120, 13, 13, 10, 255, 10] ["run", "echo"] =
      ⟨1, "Enter value for a: Enter value for a: x\n",
        "InputError: no input value available for 'a'\n"⟩ := by
  have hargs : readArguments ["run", "echo"] = .ok ⟨.run "echo" false, 0⟩ := by cbv
  have hfile : echoFile "echo" = .ok echo.toUTF8.data.toList := rfl
  have hanswers : Console.answers [120, 13, 13, 10, 255, 10] = ["x"] := by cbv
  have hparse : parse echo = .ok echoProgram := by cbv
  have hinterpret : interpret 0 echo (Console.answers [120, 13, 13, 10, 255, 10]) =
      .ok ((execAll 0 echoProgram .start).play ["x"]) := by
    rw [interpret, hparse, hanswers]
    rfl
  have houtcome : ((execAll 0 echoProgram .start).play ["x"]).outcome = .failed (.noInput "a") := by
    cbv
  have hasked : ((execAll 0 echoProgram .start).play ["x"]).asked = ["a", "a"] := by cbv
  have hprinted : ((execAll 0 echoProgram .start).play ["x"]).machine.output = #["x"] := by cbv
  obtain ⟨⟨hout, hexit, -, herr⟩, hmore⟩ :=
    (answerWithin_run hargs hfile 0 [120, 13, 13, 10, 255, 10]).2 _ hinterpret
  rw [hasked, hprinted] at hout
  rw [houtcome] at hexit
  replace herr := herr _ houtcome
  refine ⟨hargs, fun k => ?_⟩
  rw [hmore (by rw [houtcome]; decide) k (Nat.zero_le k)]
  generalize answerWithin _ 0 _ _ _ = r at hout hexit herr
  obtain ⟨exit, out, err⟩ := r
  cases hout
  cases hexit
  cases herr
  decide

end Response

end Bisaya
