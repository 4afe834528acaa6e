import OrderedBnf.Kind
import OrderedBnf.Text.Quoted
import OrderedBnf.Tree.Traversal

/-! A tree as indented lines. -/
namespace OrderedBnf

structure Heading where
  kind : Kind
  ruleName : Option String
  start : Int
  stop : Int
  covered : Text
  deriving DecidableEq, Repr

namespace Outline

structure Options where
  indent : Text := "  ".toList
  width : Int := 40
  deriving Repr

def indentation (options : Options) (depth : Nat) : Text :=
  (List.replicate depth options.indent).flatten

def line (options : Options) (depth : Nat) (heading : Heading) : String :=
  let label := match heading.ruleName with
    | none => heading.kind.label
    | some name => name ++ " " ++ heading.kind.label
  String.ofList (indentation options depth) ++ label ++ " [" ++ toString heading.start ++ ":" ++
    toString heading.stop ++ "] " ++ (heading.covered.excerpt options.width).quotedString

def absentLine (options : Options) (depth : Nat) : String :=
  String.ofList (indentation options depth ++ ['-'])

def atDepth (depth : Nat) (branches : List (Option (Tree Heading))) :
    List (Nat × Option (Tree Heading)) :=
  branches.map fun branch => (depth, branch)

/-- The lines of what is on a stack, the next on top, each with its depth: one for each node and one
for each absent branch. -/
def lines (options : Options) : List (Nat × Option (Tree Heading)) → List String
  | [] => []
  | (depth, none) :: waiting => absentLine options depth :: lines options waiting
  | (depth, some (.node heading branches)) :: waiting =>
    line options depth heading :: lines options (atDepth (depth + 1) branches ++ waiting)
termination_by stack => Tree.sizeOfAll (stack.map Prod.snd)
decreasing_by
  · exact Nat.lt_succ_self _
  · simp [atDepth, Tree.sizeOfAll_append, Tree.sizeOfAll, Tree.size, Function.comp_def]

end Outline

def Tree.outline (tree : Tree Heading) (options : Outline.Options) : List String :=
  Outline.lines options [(0, some tree)]

end OrderedBnf
