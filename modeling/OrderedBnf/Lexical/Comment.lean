import OrderedBnf.Text.Blank
import OrderedBnf.Parse.Lexis

/-! Skipping blanks and comments: block comments from `/*` to the first `*/`, line comments from
`//` to the end of the line. -/
namespace OrderedBnf.Comment

inductive Within where
  | nothing
  | line
  | block (opened : Nat)
  deriving DecidableEq, Repr

def unclosed (opened : Nat) : LexicalError := ⟨"Comment not closed", opened⟩

/-- The offset of the first significant character of a text that starts at offset `i`. A line
comment that no feed ends goes on up to `stop`. -/
def skipFrom (stop i : Nat) : Within → Text → Except Abort Nat
  | .nothing, '/' :: '*' :: rest => skipFrom stop (i + 2) (.block i) rest
  | .nothing, '/' :: '/' :: rest => skipFrom stop (i + 2) .line rest
  | .nothing, c :: rest => if isBlank c then skipFrom stop (i + 1) .nothing rest else .ok i
  | .line, '\n' :: rest => skipFrom stop (i + 1) .nothing rest
  | .line, _ :: rest => skipFrom stop (i + 1) .line rest
  | .block _, '*' :: '/' :: rest => skipFrom stop (i + 2) .nothing rest
  | .block opened, _ :: rest => skipFrom stop (i + 1) (.block opened) rest
  | .block opened, [] => .error (.lexical (unclosed opened))
  | .line, [] => .ok stop
  | .nothing, [] => if i < stop then .error .beyondText else .ok i

def skip (text : Text) (start stop : Nat) : Except Abort Nat :=
  skipFrom stop start .nothing (text.window start stop)

end OrderedBnf.Comment
