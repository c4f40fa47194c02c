import Bisaya.Stmt.Basic

namespace Bisaya

def Item.text (i : Item) : String :=
  match i.initial with
  | some v => i.name ++ " = " ++ v.source
  | none => i.name

def Assignment.text (a : Assignment) : String :=
  String.join (a.targets.map (· ++ " = ")) ++ a.value.text

def Step.text (s : Step) : String :=
  match s.direction with
  | .up => s.name ++ "++"
  | .down => s.name ++ "--"

def Update.text : Update → String
  | assign a => a.text
  | step s => s.text

def Segment.text : Segment → String
  | newline => "$"
  | escape c => "[" ++ String.singleton c ++ "]"
  | expr e => e.text

def blockText (lines : String) : String := "PUNDOK\x7b\n" ++ lines ++ "\x7d"

mutual

def Stmt.text : Stmt → String
  | .declare ty items => "MUGNA " ++ ty.name ++ " " ++ ", ".intercalate (items.map Item.text)
  | .assign a => a.text
  | .step s => s.text
  | .print segments => "IPAKITA: " ++ " & ".intercalate (segments.map Segment.text)
  | .read names => "DAWAT: " ++ ", ".intercalate names
  | .choose test body rest =>
    "KUNG (" ++ test.text ++ ") " ++ blockText (linesText body) ++ rest.text
  | .loop init test update body =>
    "ALANG SA (" ++ init.text ++ ", " ++ test.text ++ ", " ++ update.text ++ ") " ++
      blockText (linesText body)

def Chain.text : Chain → String
  | .done => ""
  | .wala body => "\nKUNG WALA " ++ blockText (linesText body)
  | .dili test body rest =>
    "\nKUNG DILI (" ++ test.text ++ ") " ++ blockText (linesText body) ++ rest.text

/-- Each statement ends its line. -/
def linesText : List Stmt → String
  | [] => ""
  | s :: rest => s.text ++ "\n" ++ linesText rest

end

def Program.text (p : Program) : String := "SUGOD\n" ++ linesText p ++ "KATAPUSAN\n"

end Bisaya
