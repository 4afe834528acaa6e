import OrderedBnf.Grammar.Block
import OrderedBnf.Grammar.Basic
import OrderedBnf.Rule.Compile

/-! Loading a grammar document: every rule compiles, no name is defined twice, and every name
mentioned is defined or declared as an extension point. -/
namespace OrderedBnf

inductive GrammarError where
  | malformed (error : SyntaxError)
  | incomplete (missing : List String)
  deriving DecidableEq, Repr

def GrammarError.message : GrammarError → String
  | malformed error => error.message
  | incomplete missing =>
    "The following definitions are missing: " ++ String.intercalate ", " missing

namespace Grammar

/-- A rule defined before is reported without a look at its new body. -/
def addBlock (grammar : Grammar) (block : Block) : Except SyntaxError Grammar :=
  match grammar.find? block.name with
  | some entry =>
    .error { fault := .duplicateRule block.name (entry.line.getD 0), position := none,
             rule := some block.name, line := some block.line }
  | none =>
    if block.body = [] then .ok (grammar.put block.name none (some block.line))
    else match Rule.compile block.body with
      | .ok body => .ok (grammar.put block.name (some body) (some block.line))
      | .error error => .error { error with rule := some block.name, line := some block.line }

/-- Declares an extension point; one that the document left empty stays where it is. -/
def addExtension (grammar : Grammar) (name : String) : Except SyntaxError Grammar :=
  match grammar.find? name with
  | some ⟨_, some _, line⟩ => .error ⟨.definedExtension name, none, some name, line⟩
  | some _ => .ok grammar
  | none => .ok (grammar.put name none none)

def ofDocument (lines : List Text) (extensions : List String) : Except SyntaxError Grammar := do
  let blocks ← Block.ofDocument lines
  let grammar ← blocks.foldlM addBlock empty
  extensions.foldlM addExtension grammar

def load (lines : List Text) (extensions : List String) : Except GrammarError Grammar :=
  match ofDocument lines extensions with
  | .error error => .error (.malformed error)
  | .ok grammar =>
    if grammar.missing = [] then .ok grammar else .error (.incomplete grammar.missing)

/-- The grammar of expressions given by name. A name given twice keeps its first place and takes its
last body. -/
def ofExpressions (rules : List (String × Option Text)) : Except SyntaxError Grammar := do
  let bodies ← rules.mapM fun (name, expression) => do
    match expression with
    | none => return (name, none)
    | some text => return (name, some (← Rule.compile text))
  return ofList bodies

def summary (grammar : Grammar) : String :=
  let extensions := grammar.entries.filter (·.body.isNone)
  "Loaded " ++ toString grammar.entries.length ++ " rules (" ++ toString extensions.length ++
    " extension points)."

end Grammar
end OrderedBnf
