import OrderedBnf.Lexical.CurlyBrace
import OrderedBnf.Grammar.Load
import OrderedBnf.Parse.Decorated
import OrderedBnf.Report.Transcript

/-! Programs in a tiny language, instrumented to announce each statement as it runs: a statement
`S` becomes `{ trace(N); S }`. The braces are a pair of brackets around the statement, so they nest
as the statements do. -/
namespace OrderedBnf.StatementTrace

def document : List Text :=
  ["Program: \x7b Function \x7d",
   "Function: 'function' IDENTIFIER '(' [ Parameters ] ')' Block",
   "Parameters: IDENTIFIER \x7b ',' IDENTIFIER \x7d",
   "Block: '\x7b' \x7b Statement \x7d '\x7d'",
   "Statement: Block",
   "\t| 'if' '(' Expression ')' Statement [ 'else' Statement ]",
   "\t| 'while' '(' Expression ')' Statement",
   "\t| 'return' [ Expression ] ';'",
   "\t| 'var' IDENTIFIER [ '=' Expression ] ';'",
   "\t| IDENTIFIER '=' Expression ';'",
   "\t| Expression ';'",
   "Expression: Term \x7b ( '==' | '<' | '+' | '-' ) Term \x7d",
   "Term: Factor \x7b ( '*' | '/' ) Factor \x7d",
   "Factor: IntegerLiteral | StringLiteral | Call | IDENTIFIER | '(' Expression ')'",
   "Call: IDENTIFIER '(' [ Arguments ] ')'",
   "Arguments: Expression \x7b ',' Expression \x7d",
   "IntegerLiteral:",
   "StringLiteral:"].map String.toList

def grammar : Grammar :=
  match Grammar.load document [] with
  | .ok grammar => grammar
  | .error _ => .empty

def language : Language := CurlyBrace.language grammar

def chosen? (node : ParseTree) : Option ParseTree := node.branches.findSome? id

/-- Where a statement starts. A block is none of its own: its statements are announced one by
one. -/
def announced? (node : ParseTree) : Option Nat :=
  if node.label.ruleName? = some "Statement" then
    match chosen? node with
    | none => none
    | some inner =>
      if inner.label.ruleName? = some "Block" then none else some (ParseTree.start inner)
  else none

def bracket (call : String) (number : Nat) : Decoration where
  before := some ("\x7b ".toList ++ call.toList ++ '(' :: (toString number).toList ++ "); ".toList)
  after := some " \x7d".toList

def decorate (call : String) (tree : ParseTree) : DecoratedTree × List Nat :=
  Tree.thread (fun starts node =>
    match announced? node with
    | none => ((node.label, {}), starts)
    | some start => ((node.label, bracket call (starts.length + 1)), starts ++ [start]))
    [] tree

structure Instrumented where
  text : Text
  places : List Position
  deriving DecidableEq, Repr

/-- Comments and blanks outside the program proper pass through untouched. -/
def instrument (text : Text) (call : String) : Except ParseError Instrumented := do
  let tree ← language.parse "Program" text none
  let (decorated, starts) := decorate call tree
  let source : Source := { content := text }
  return {
    text := text.take (ParseTree.start tree) ++ DecoratedTree.render text decorated ++
      text.drop (ParseTree.stop tree)
    places := starts.map fun (start : Nat) => source.position start }

/-- Instruments each file in turn; a text that does not match is complained about and left out. -/
def runWith {ε : Type} (read : Reads ε) (before : Transcript) :
    List String → Except (Interruption ε) Unit × Transcript
  | [] => (.ok (), before)
  | path :: rest =>
    match read path with
    | .error error => (.error (.unreadable path error), before)
    | .ok text =>
      match instrument text "trace" with
      | .error (.aborted cause) => (.error (.aborted cause), before)
      | .error (.failed d) => runWith read (before ++ Transcript.complaint d) rest
      | .ok result =>
        let places := result.places.zipIdx 1 |>.map fun (place, number) =>
          toString number ++ "\t" ++ path ++ ":" ++ toString place.line ++ ":" ++
            toString place.column
        runWith read (before ++ { out := [String.ofList result.text], err := places }) rest

def run (files : Files) (before : Transcript) (paths : List String) :
    Except Crash Unit × Transcript :=
  runWith files.read before paths

def runStored (encoding : Encoding) (folder : Folder) (before : Transcript) (paths : List String) :
    Except (Interruption StorageError) Unit × Transcript :=
  runWith (folder.read encoding) before paths

end OrderedBnf.StatementTrace
