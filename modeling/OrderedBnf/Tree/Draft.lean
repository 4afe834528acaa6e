import OrderedBnf.Rule.Summary
import OrderedBnf.Tree.Outline
import OrderedBnf.Tree.Decoration

/-! Trees built by hand, node by node. A node without a range takes the range of the first branch
attached to it, and every branch attached can extend its end. Branches may be shared, overlap, and
grow after they were attached. -/
namespace OrderedBnf

inductive DraftError where
  | badRange (start stop : Int) (length : Nat)
  | notDecorable
  | noRange
  | notChoice
  deriving DecidableEq, Repr

def DraftError.message : DraftError → String
  | badRange start stop length =>
    "Bad range [" ++ toString start ++ ":" ++ toString stop ++ "] for a text of length " ++
      toString length
  | notDecorable => "Rule trees are shared and immutable; only parse trees may be decorated."
  | noRange | notChoice => ""

/-- `isDefined` tells a node that matched a rule from a rule's own. -/
structure DraftNode where
  kind : Kind
  isDefined : Bool
  name : Option String
  range : Option (Int × Int)
  branches : List (Option Nat) := []
  parent : Option Nat := none
  decoration : Decoration := {}
  deriving DecidableEq, Repr

structure Draft where
  text : Text
  ruleName : Option String
  nodes : List DraftNode := []
  deriving Repr

namespace DraftNode

def span (node : DraftNode) : Int × Int := node.range.getD (0, 0)

def isEmpty (node : DraftNode) : Bool := node.span.1 = node.span.2

def mark (node : DraftNode) : Mark :=
  { node.decoration with start := node.span.1, stop := node.span.2 }

end DraftNode

namespace Draft

def blank : DraftNode := ⟨.token, false, none, none, [], none, {}⟩

def node (d : Draft) (i : Nat) : DraftNode := d.nodes.getD i blank

def update (d : Draft) (i : Nat) (change : DraftNode → DraftNode) : Draft :=
  { d with nodes := d.nodes.modify i change }

def add (d : Draft) (node : DraftNode) : Draft := { d with nodes := d.nodes ++ [node] }

def addLeaf (d : Draft) (kind : Kind) (start stop : Int) (isDefined : Bool) (name : Option String) :
    Except DraftError Draft :=
  if 0 ≤ start && start ≤ stop && stop ≤ d.text.length then
    .ok (d.add { kind := kind, isDefined := isDefined, name := name, range := some (start, stop) })
  else .error (.badRange start stop d.text.length)

def extend : Option (Int × Int) → Option (Int × Int) → Except DraftError (Option (Int × Int))
  | none, range => .ok range
  | some _, none => .error .noRange
  | some (start, stop), some (_, stop') => .ok (some (start, max stop stop'))

def attachAbsent (d : Draft) (parent : Nat) : Draft :=
  d.update parent fun node => { node with branches := node.branches ++ [none] }

def attach (d : Draft) (parent child : Nat) : Except DraftError Draft := do
  let range ← extend (d.node parent).range (d.node child).range
  let d := d.update parent fun node =>
    { node with range := range, branches := node.branches ++ [some child] }
  return d.update child fun node => { node with parent := some parent }

/-- Only nodes that matched a rule may be decorated. -/
def decorate (d : Draft) (i : Nat) (change : Decoration → Decoration) : Except DraftError Draft :=
  if (d.node i).isDefined then
    .ok (d.update i fun node => { node with decoration := change node.decoration })
  else .error .notDecorable

def grow (d : Draft) : (depth i : Nat) → Tree Nat
  | 0, i => .leaf i
  | depth + 1, i => .node i ((d.node i).branches.map (·.map (grow d depth)))

/-- The tree below a node, a shared branch in each of its places. No node lies below itself, so
the number of nodes bounds the depth. -/
def tree (d : Draft) (i : Nat) : Tree Nat := d.grow d.nodes.length i

def render (d : Draft) (i : Nat) : Text :=
  Tree.render d.text ((d.tree i).map fun i => (d.node i).mark)

def covered (d : Draft) (i : Nat) : Except DraftError Text :=
  match (d.node i).range with
  | none => .error .noRange
  | some (start, stop) => .ok (d.text.slice start stop)

def ruleName? (d : Draft) (i : Nat) : Option String :=
  if (d.node i).isDefined then d.ruleName else none

def heading (d : Draft) (i : Nat) : Heading :=
  let node := d.node i
  let (start, stop) := node.span
  ⟨node.kind, d.ruleName? i, start, stop, d.text.slice start stop⟩

/-- There is no outline of a tree some of whose nodes have no range. -/
def outline (d : Draft) (i : Nat) (options : Outline.Options) : Except DraftError (List String) :=
  let tree := d.tree i
  if tree.walk.all fun i => (d.node i).range.isSome then
    .ok ((tree.map d.heading).outline options)
  else .error .noRange

def chosen (d : Draft) (i : Nat) : Except DraftError (Option (Nat × Nat)) :=
  let node := d.node i
  if node.kind ≠ .choice then .error .notChoice
  else .ok <| node.branches.zipIdx.findSome? fun (branch, place) =>
    branch.map fun child => (place, child)

def summary (d : Draft) (i : Nat) : String :=
  let node := d.node i
  OrderedBnf.summary node.kind node.name node.range
    (node.range.map fun (start, stop) => d.text.slice start stop)

end Draft
end OrderedBnf
