import OrderedBnf.Text.Blank
import OrderedBnf.Grammar.Basic

/-! A grammar as rows of text. -/
namespace OrderedBnf.Grammar

private def lineCell : Option Nat → String
  | none | some 0 => ""
  | some n => toString n

private def row (entry : Entry) : List String :=
  match entry.body with
  | none => [entry.name, "extension", lineCell entry.line, ""]
  | some body =>
    let words := Text.join [' '] (body.origin.text.words isBlank)
    [entry.name, body.kind.label, lineCell entry.line, String.ofList (words.excerpt 50)]

def grid (grammar : Grammar) : List (List String) :=
  ["rule", "kind", "line", "definition"] :: grammar.entries.map row

end OrderedBnf.Grammar
