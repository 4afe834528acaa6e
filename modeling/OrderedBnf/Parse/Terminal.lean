import OrderedBnf.Identifier
import OrderedBnf.Grammar.Basic
import OrderedBnf.Text.Unescaped
import OrderedBnf.Parse.Lexis
import OrderedBnf.Parse.Match

/-! Matching the leaves of a rule tree against a text. -/
namespace OrderedBnf

/-- A text to be matched up to `stop`, with the grammar and the lexis to match it by. -/
structure Reader where
  grammar : Grammar
  lexis : Lexis
  text : Text
  stop : Nat

namespace Reader
open Attempt

def rest (r : Reader) (start : Nat) : Text := r.text.window start r.stop

def skip (r : Reader) (start : Nat) : Attempt Nat :=
  match r.lexis.skip r.text start r.stop with
  | .ok i => return i
  | .error cause => abort cause

def significant (r : Reader) (start : Nat) : Attempt Nat := do
  let i ← r.skip start
  if r.stop ≤ i then fail .endOfText i [] else return i

def accept (kind : Kind) (rule : Rule) (start stop : Nat) : Attempt ParseTree := do
  reach stop
  return .leaf ⟨kind, start, stop, rule⟩

def matchToken (r : Reader) (rule : Rule) (start : Nat) : Attempt ParseTree := do
  let i ← r.significant start
  match r.rest i with
  | [] => abort .beyondText
  | '\'' :: rest =>
    match Text.unescaped (· = '\'') (i + 1) rest with
    | .ok (last, _) => accept .token rule i (last + 1)
    | .error last =>
      if last < r.stop then abort .beyondText else fail .closingQuote (r.stop - 1) []
  | _ => fail .singleQuote i []

def matchIdentifier (r : Reader) (rule : Rule) (start : Nat) : Attempt ParseTree := do
  let i ← r.significant start
  match r.rest i with
  | [] => abort .beyondText
  | c :: rest =>
    if !isIdentifierStart c then fail .identifier i []
    else
      let word := c :: rest.takeWhile isIdentifierChar
      let last := i + word.length
      if r.text.lacks last r.stop then abort .beyondText
      else if r.lexis.isKeyword word then fail (.notKeyword word) i []
      else accept .identifier rule i last

/-- A line break is looked for where the last match ended: nothing is skipped. -/
def matchNewLine (r : Reader) (rule : Rule) (start : Nat) : Attempt ParseTree :=
  if r.text.lacks start r.stop then abort .beyondText
  else match r.rest start with
    | '\n' :: _ => accept .token rule start (start + 1)
    | _ => fail .newLine start []

/-- A literal of two or more characters that ends in a letter must not stop within a word of the
text, even beyond the range; a reserved one must not run on into identifier characters. An empty
literal matches where it stands, unless that is beyond the text. -/
def matchWord (r : Reader) (rule : Rule) (word : Text) (start : Nat) : Attempt ParseTree := do
  if word = [] then
    if r.text.length < start then abort (.badRange start start r.text.length)
    else return .leaf ⟨.token, start, start, rule⟩
  let i ← r.significant start
  if !word.isPrefixOf (r.rest i) then fail (.token word) i []
  else
    let stop := i + word.length
    let next := (r.text.drop stop).head?
    if 1 < word.length && word.getLast?.any isLetter && next.any isLetter then
      fail (.wordContinues word) stop []
    else if r.lexis.isKeyword word && r.text.lacks stop r.stop then abort .beyondText
    else if r.lexis.isKeyword word && (r.rest stop).head?.any isIdentifierChar then
      fail (.keywordContinues word) stop []
    else accept .token rule i stop

def matchLiteral (r : Reader) (rule : Rule) (start : Nat) : Attempt ParseTree :=
  r.matchWord rule rule.literal start

/-- The leaf of an extension must lie in the text, but need not start where the reader stands. -/
def matchExtension (r : Reader) (rule : Rule) (start : Nat) : Attempt ParseTree := do
  let i ← r.significant start
  match r.lexis.extend rule r.text i r.stop with
  | .error halt => throw halt
  | .ok none => fail (.extension rule.target) i []
  | .ok (some found) =>
    if 0 ≤ found.start && found.start ≤ found.stop && found.stop ≤ r.text.length then
      accept found.kind rule found.start.toNat found.stop.toNat
    else abort (.badRange found.start found.stop r.text.length)

end Reader
end OrderedBnf
