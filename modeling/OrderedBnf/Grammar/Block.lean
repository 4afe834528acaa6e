import OrderedBnf.Identifier
import OrderedBnf.Text.Blank
import OrderedBnf.Text.Lines
import OrderedBnf.Rule.SyntaxError

/-! A grammar document as blocks: a head line `Name: expression` and the lines that continue it. -/
namespace OrderedBnf

structure Block where
  name : String
  body : Text
  line : Nat
  deriving DecidableEq, Repr

/-- A head has nothing but identifier characters before its first colon. -/
def headOf? (line : Text) : Option (String × Text) :=
  match line.span (· != ':') with
  | (name, _ :: rest) => if isIdentifier name then some (String.ofList name, rest) else none
  | (_, []) => none

/-- A line without its indentation, unless it is blank or a comment. -/
def significant? (line : Text) : Option Text :=
  match line.trim isBlank with
  | [] => none
  | c :: rest => if c = '#' then none else some (c :: rest)

namespace Block

def ofLines (name : String) (line : Nat) (body : List Text) : Block :=
  ⟨name, (Text.join ['\n'] body).trim isBlank, line⟩

/-- The open block and all that follow it; `number` counts the lines from one. -/
def collect (number : Nat) (name : String) (line : Nat) (body : List Text) :
    List Text → List Block
  | [] => [ofLines name line body]
  | next :: rest =>
    match significant? next with
    | none => collect (number + 1) name line body rest
    | some words =>
      match headOf? words with
      | none => collect (number + 1) name line (body ++ [words]) rest
      | some (name', first) =>
        ofLines name line body :: collect (number + 1) name' number [first] rest

def collectFrom (number : Nat) : List Text → Except SyntaxError (List Block)
  | [] => .ok []
  | next :: rest =>
    match significant? next with
    | none => collectFrom (number + 1) rest
    | some words =>
      match headOf? words with
      | none => .error ⟨.strayContinuation words, none, none, some number⟩
      | some (name, first) => .ok (collect (number + 1) name number [first] rest)

/-- The blocks of a document, in order. Only a continuation with no head above it is refused. -/
def ofDocument (lines : List Text) : Except SyntaxError (List Block) := collectFrom 1 lines

end Block
end OrderedBnf
