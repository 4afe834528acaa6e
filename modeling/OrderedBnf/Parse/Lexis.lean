import OrderedBnf.Kind
import OrderedBnf.Text.Blank
import OrderedBnf.Parse.Attempt

/-! What a language brings besides its grammar: reserved words, what may be skipped, and how
extension points match. -/
namespace OrderedBnf

structure Found where
  kind : Kind
  start : Int
  stop : Int
  deriving DecidableEq, Repr

/-- Looks at a text from `start` to `stop`, and finds something, finds nothing, or fails. -/
abbrev Scanner := Text → (start stop : Nat) → Except Halt (Option Found)

structure Lexis where
  /-- Reserved words do not serve as identifiers, and none runs on into a longer word. -/
  isKeyword : Text → Bool
  /-- The offset of the next significant character. -/
  skip : Text → (start stop : Nat) → Except Abort Nat
  /-- How a reference to an extension point matches. -/
  extend : Rule → Scanner

/-- Scanners by name serve every reference to the name. -/
instance : Coe (String → Scanner) (Rule → Scanner) := ⟨fun scanners rule => scanners rule.target⟩

/-- Where the run of characters in `p` ends. A text that ends before the run and `stop` do is read
beyond its end. -/
def skipWhile (p : Char → Bool) (text : Text) (start stop : Nat) : Except Abort Nat :=
  let last := start + ((text.window start stop).takeWhile p).length
  if text.lacks last stop then .error .beyondText else .ok last

def skipBlanks : Text → Nat → Nat → Except Abort Nat := skipWhile isBlank

namespace Scanner

def never : Scanner := fun _ _ _ => .ok none

def run (kind : Kind) (p : Char → Bool) : Scanner := fun text start stop =>
  match skipWhile p text start stop with
  | .error cause => .error (.abort cause)
  | .ok last => .ok (if last = start then none else some ⟨kind, start, last⟩)

def length (kind : Kind) (n : Int) : Scanner := fun _ start _ =>
  .ok (some ⟨kind, start, start + n⟩)

def refuse (message : String) : Scanner := fun _ start _ =>
  .error (.failure (.because (.stated message) start []))

def byName (scanners : List (String × Scanner)) (name : String) : Scanner :=
  (scanners.lookup name).getD never

end Scanner

namespace Lexis

def plain : Lexis where
  isKeyword _ := false
  skip := skipBlanks
  extend _ := Scanner.never

end Lexis
end OrderedBnf
