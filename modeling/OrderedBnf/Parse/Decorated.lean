import OrderedBnf.Parse.Match
import OrderedBnf.Tree.Outline
import OrderedBnf.Tree.Decoration

/-! Parse trees with decorations, and what is shown of them. -/
namespace OrderedBnf

abbrev DecoratedTree := Tree (Match × Decoration)

def Match.mark (m : Match) (decoration : Decoration) : Mark :=
  { decoration with start := m.start, stop := m.stop }

def Match.heading (m : Match) (text : Text) : Heading :=
  ⟨m.kind, m.ruleName?, m.start, m.stop, m.covered text⟩

namespace DecoratedTree

def ofParse (tree : ParseTree) : DecoratedTree := Tree.map (·, {}) tree

def render (text : Text) (tree : DecoratedTree) : Text :=
  Tree.render text (Tree.map (fun (m, decoration) => m.mark decoration) tree)

def decorate (tree : DecoratedTree) (place : Nat) (change : Decoration → Decoration) :
    DecoratedTree :=
  (Tree.thread (fun i node =>
    let (m, decoration) := node.label
    ((m, if i = place then change decoration else decoration), i + 1)) 0 tree).1

end DecoratedTree

namespace ParseTree

def render (text : Text) (tree : ParseTree) : Text := DecoratedTree.render text (.ofParse tree)

def outline (text : Text) (tree : ParseTree) (options : Outline.Options) : List String :=
  Tree.outline (Tree.map (·.heading text) tree) options

end ParseTree
end OrderedBnf
