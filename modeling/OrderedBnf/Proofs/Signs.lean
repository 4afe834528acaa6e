import OrderedBnf.MetaGrammar
import OrderedBnf.Proofs.Completeness
import OrderedBnf.Proofs.Compiling
import OrderedBnf.Proofs.Coverage

/-! What a rule says sign by sign: the words at its leaves, and the places where it leaves a choice
of passing over or of repeating, from left to right. Expressions, the trees that they compile to and
the trees of the notation have signs alike. -/
namespace OrderedBnf

inductive Sign where
  | word (word : Text)
  | optional
  | repetition
  deriving DecidableEq

/-- What is gathered at each leaf of an expression, and at each optional and repeated part. -/
structure Gathering (α : Type) where
  leaf : Leaf → Text → List α
  optional : List α
  repetition : List α

namespace Expression

section
variable {α : Type} (g : Gathering α)

mutual
def gather : Expression → List α
  | leaf form word => g.leaf form word
  | several _ operands => gatherAll operands
  | optional body => g.optional ++ gather body
  | repetition body => g.repetition ++ gather body

def gatherAll : List Expression → List α
  | [] => []
  | e :: rest => gather e ++ gatherAll rest
end

theorem gather_lastOperands (operator : Operator) (e : Expression) :
    gatherAll g (lastOperands operator e) = gather g e := by
  cases e with
  | several operator' operands =>
    rw [lastOperands]
    split
    · rfl
    · exact List.append_nil _
  | _ => exact List.append_nil _

theorem gather_spliceLast (operator : Operator) (es : List Expression) :
    gatherAll g (spliceLast operator es) = gatherAll g es := by
  induction es with
  | nil => rfl
  | cons e es ih =>
    cases es with
    | nil => exact (gather_lastOperands g operator e).trans (List.append_nil _).symm
    | cons e' es => exact congrArg (gather g e ++ ·) ih

mutual
/-- Splicing takes nothing away and leaves everything in its order. -/
theorem gather_spliced : ∀ e : Expression, gather g e.spliced = gather g e
  | leaf .. => rfl
  | several operator operands =>
    (gather_spliceLast g operator _).trans (gatherAll_spliced operands)
  | optional body => congrArg (g.optional ++ ·) (gather_spliced body)
  | repetition body => congrArg (g.repetition ++ ·) (gather_spliced body)

theorem gatherAll_spliced : ∀ es, gatherAll g (splicedAll es) = gatherAll g es
  | [] => rfl
  | e :: es => by
    rw [splicedAll, gatherAll, gatherAll, gather_spliced e, gatherAll_spliced es]
end

end

def signs : Expression → List Sign :=
  gather ⟨fun _ word => [.word word], [.optional], [.repetition]⟩

def mentions : Expression → List Text :=
  gather ⟨fun form word => if form = .reference then [word] else [], [], []⟩

end Expression

namespace Rule

section
variable {α : Type} (g : Gathering α)

def gathered : Rule → List α
  | leaf form o => g.leaf form (leaf form o).writtenAs
  | optional .. => g.optional
  | repetition .. => g.repetition
  | _ => []

mutual
/-- What is gathered from the expression of a rule is what its nodes hold, in order. -/
theorem gather_expression : ∀ rule : Rule,
    rule.expression.gather g = rule.nodes.flatMap (gathered g)
  | leaf .. => (List.append_nil _).symm
  | sequence rules _ | choice rules _ => gatherAll_expressions rules
  | optional body _ => congrArg (g.optional ++ ·) (gather_expression body)
  | repetition body _ => congrArg (g.repetition ++ ·) (gather_expression body)

theorem gatherAll_expressions : ∀ rules : List Rule,
    Expression.gatherAll g (expressions rules) = (nodesOfAll rules).flatMap (gathered g)
  | [] => rfl
  | rule :: rest => by
    rw [expressions, Expression.gatherAll, nodesOfAll, List.flatMap_append,
      gather_expression rule, gatherAll_expressions rest]
end

/-- What is gathered does not depend on the rule that a tree is the body of. -/
theorem gather_asBodyOf (name : String) (rule : Rule) :
    (rule.asBodyOf name).nodes.flatMap (gathered g) = rule.nodes.flatMap (gathered g) := by
  have hpart (node : Rule) : gathered g (node.partOf name) = gathered g node := by
    cases node <;> rfl
  have hnodes : (rule.partOf name).nodes.flatMap (gathered g) = rule.nodes.flatMap (gathered g) := by
    rw [nodes_partOf, List.flatMap_map]
    exact congrArg (rule.nodes.flatMap ·) (funext hpart)
  rw [← hnodes]
  cases rule <;> rfl

end

def sign? : Rule → Option Sign
  | leaf form o => some (.word (leaf form o).writtenAs)
  | optional .. => some .optional
  | repetition .. => some .repetition
  | _ => none

/-- The signs of a rule are those of its expression. -/
theorem signs_expression (rule : Rule) : rule.expression.signs = rule.nodes.filterMap sign? := by
  rw [Expression.signs, gather_expression]
  induction rule.nodes with
  | nil => rfl
  | cons node nodes ih =>
    rw [List.flatMap_cons, List.filterMap_cons, ih]
    cases node <;> rfl

theorem mentions_expression (rule : Rule) :
    rule.mentions = rule.expression.mentions.map String.ofList := by
  rw [mentions, Expression.mentions, gather_expression, List.map_flatMap]
  induction rule.nodes with
  | nil => rfl
  | cons node nodes ih =>
    rw [List.filter_cons, List.flatMap_cons, ← ih]
    cases node with
    | leaf form o => cases form <;> rfl
    | _ => rfl

theorem mentions_asBodyOf (name : String) (rule : Rule) :
    (rule.asBodyOf name).mentions = rule.mentions := by
  rw [mentions_expression, mentions_expression, Expression.mentions, gather_expression,
    gather_expression, gather_asBodyOf]

def isTerminal : Rule → Bool
  | leaf .. => true
  | _ => false

end Rule

namespace MetaGrammar
variable {text : Text} {tree : ParseTree}

def named (name : String) (tree : ParseTree) : List ParseTree :=
  (Tree.subtrees tree).filter fun t => (Tree.label t).ruleName? = some name

def isBracketed (atom : ParseTree) : Bool :=
  (Tree.branches atom).any fun branch => branch.any fun t =>
    (Tree.label t).ruleName?.any ["Group", "Optional", "Repetition"].contains

def sign? (text : Text) (t : ParseTree) : Option Sign :=
  if (Tree.label t).ruleName? = some "Atom" then
    if isBracketed t then none else some (.word (text.window t.start t.stop))
  else if (Tree.label t).ruleName? = some "Optional" then some .optional
  else if (Tree.label t).ruleName? = some "Repetition" then some .repetition
  else none

def signs (text : Text) (tree : ParseTree) : List Sign :=
  (Tree.subtrees tree).filterMap (sign? text)

theorem signs_node {m : Match} {branches : List (Option ParseTree)} :
    signs text (.node m branches) = (sign? text (.node m branches)).toList ++
      (branches.filterMap id).flatMap (signs text) := by
  rw [signs, Tree.subtrees, Tree.subtreesOfAll_eq, List.filterMap_cons, List.filterMap_flatMap]
  cases sign? text (.node m branches) <;> rfl

/-- A tree of the notation says what the nodes of a rule tree say: the atoms with no brackets are its
leaves, from left to right, and there are as many optionals and repetitions. -/
structure Agrees (text : Text) (tree : ParseTree) (nodes : List Rule) : Prop where
  words : ((named "Atom" tree).filter (!isBracketed ·)).map (fun t => text.window t.start t.stop) =
    (nodes.filter Rule.isTerminal).map Rule.writtenAs
  optionals : (named "Optional" tree).length = nodes.countP (·.kind = .optional)
  repetitions : (named "Repetition" tree).length = nodes.countP (·.kind = .repetition)

end MetaGrammar
end OrderedBnf
