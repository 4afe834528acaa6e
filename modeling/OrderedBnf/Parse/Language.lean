import OrderedBnf.Parse.Descent

/-! Languages, and parsing a whole text from a start rule. -/
namespace OrderedBnf

structure Language where
  grammar : Grammar
  lexis : Lexis

inductive ParseError where
  | failed (diagnosis : Diagnosis)
  | aborted (cause : Abort)
  deriving Repr

namespace Language

/-- How many calls of the matcher may be open at a time. The stack holds ten thousand frames, each
call takes two of them, and twenty are left to what calls the matcher and to what it calls last. A
text that nests deeper is refused. -/
def depthLimit : Nat := 4990

/-- The tree of a text that matches as a whole. Insignificant text before and after it stays
outside the tree. -/
def parse (language : Language) (start : String) (text : Text) (filename : Option String) :
    Except ParseError ParseTree :=
  let source : Source := { content := text, filename := filename }
  let r : Reader := ⟨language.grammar, language.lexis, text, text.length⟩
  let refuse (farthest : Nat) (failure : Failure) : Except ParseError ParseTree :=
    .error (.failed ⟨failure, source, farthest⟩)
  match language.grammar.body? start with
  | none => refuse 0 (.because (.undefinedRule start) 0 [])
  | some none => refuse 0 (.because (.extensionStart start) 0 [])
  | some (some body) =>
    match (r.run depthLimit [] body 0).outcome 0 with
    | (.error (.failure failure), farthest) => refuse farthest failure
    | (.error (.abort .tooDeep), farthest) => refuse farthest (.because .tooDeep farthest [])
    | (.error (.abort cause), _) => .error (.aborted cause)
    | (.ok tree, farthest) =>
      match language.lexis.skip text tree.stop text.length with
      | .error cause => .error (.aborted cause)
      | .ok stop =>
        if text.length ≤ stop then .ok tree
        else if stop = 0 then refuse farthest (.because .unrecognized 0 [])
        else refuse farthest
          (.because (.stopped (source.position tree.stop) (source.position farthest)) stop [])

end Language
end OrderedBnf
