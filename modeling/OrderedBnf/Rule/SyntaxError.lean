import OrderedBnf.Text.Quoted

/-! What can be wrong with the text of a grammar. -/
namespace OrderedBnf

inductive Fault where
  | emptyExpression
  | unmatchedClosing (bracket : Char)
  | missingAlternative
  | unterminatedLiteral
  | unclosedBracket
  | wrongClosing (expression : Text) (opening closing : Char)
  | emptyBrackets
  | malformedLiteral (word : Text)
  | notIdentifier (word : Text)
  | strayContinuation (line : Text)
  | duplicateRule (name : String) (firstLine : Nat)
  | definedExtension (name : String)
  deriving DecidableEq, Repr

/-- A fault with its offset in the expression, and the rule and line it belongs to, as far as
they are known. -/
structure SyntaxError where
  fault : Fault
  position : Option Nat
  rule : Option String
  line : Option Nat
  deriving DecidableEq, Repr

def Fault.message : Fault → String
  | emptyExpression => "Empty expression"
  | unmatchedClosing bracket => "Unmatched closing bracket " ++ Text.quotedString [bracket]
  | missingAlternative => "Choice is missing an alternative"
  | unterminatedLiteral => "Unterminated quoted literal"
  | unclosedBracket => "Unclosed bracket"
  | wrongClosing expression opening closing =>
    "The expression " ++ expression.quotedString ++ " should be surrounded by " ++
      String.ofList [opening, closing]
  | emptyBrackets => "Empty brackets"
  | malformedLiteral word => "Malformed literal " ++ word.quotedString
  | notIdentifier word => "Expression " ++ word.quotedString ++ " is not an identifier"
  | strayContinuation line =>
    "Continuation line " ++ line.quotedString ++ " does not follow any rule"
  | duplicateRule name firstLine =>
    "Rule " ++ Text.quotedString name.toList ++ " is defined more than once (first on line " ++
      toString firstLine ++ ")"
  | definedExtension name =>
    "Extension point " ++ Text.quotedString name.toList ++ " also has a definition in the grammar"

def Fault.atOffset (fault : Fault) (position : Nat) : SyntaxError :=
  { fault := fault, position := some position, rule := none, line := none }

/-- Adds whatever is known of the place in brackets: the line, then the rule, then the offset. -/
def annotate (message : String) (line : Option Int) (rule : Option String) (position : Option Int) :
    String :=
  let known := (line.map fun n => "line " ++ toString n).toList ++
    (rule.map fun name => "rule " ++ Text.quotedString name.toList).toList ++
    (position.map fun n => "offset " ++ toString n).toList
  if known.isEmpty then message else message ++ " (" ++ String.intercalate ", " known ++ ")"

def SyntaxError.message (error : SyntaxError) : String :=
  annotate error.fault.message (error.line.map Int.ofNat) error.rule (error.position.map Int.ofNat)

end OrderedBnf
