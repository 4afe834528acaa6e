import OrderedBnf.Rule.Basic
import OrderedBnf.Tree.Basic

/-! Parse trees. -/
namespace OrderedBnf

structure Match where
  kind : Kind
  start : Nat
  stop : Nat
  rule : Rule
  deriving DecidableEq, Repr

abbrev ParseTree := Tree Match

namespace Match

def isEmpty (m : Match) : Bool := m.start = m.stop

def covered (m : Match) (text : Text) : Text := text.window m.start m.stop

def ruleName? (m : Match) : Option String := m.rule.name?

end Match

namespace ParseTree

def start (tree : ParseTree) : Nat := (Tree.label tree).start
def stop (tree : ParseTree) : Nat := (Tree.label tree).stop

/-- A node over its branches, from the start of the first to the farthest end. One with no branch
is empty and stands at `cursor`. -/
def spanning (kind : Kind) (rule : Rule) (cursor : Nat) (branches : List (Option ParseTree)) :
    ParseTree :=
  match branches.filterMap id with
  | [] => .node ⟨kind, cursor, cursor, rule⟩ branches
  | first :: rest =>
    .node ⟨kind, first.start, (rest.map stop).foldl max first.stop, rule⟩ branches

end ParseTree
end OrderedBnf
