import OrderedBnf.Kind
import OrderedBnf.Text.Quoted

/-! Rule trees: the right-hand side of one rule, every node knowing the range of the expression
it was written in. -/
namespace OrderedBnf

/-- Where a rule node was written. `home` names the rule whose body the node belongs to and
`isRoot` marks the body itself, so nodes of one grammar written alike in different rules differ. -/
structure Origin where
  start : Nat
  stop : Nat
  isRoot : Bool
  home : Option String
  text : Text
  deriving DecidableEq, Repr

def Origin.partOf (o : Origin) (home : String) : Origin :=
  { o with home := some home, isRoot := false }

/-- A quoted text, another rule's name, or one of the three reserved words. -/
inductive Leaf where
  | literal
  | reference
  | anyToken
  | anyIdentifier
  | newLine
  deriving DecidableEq, Repr

inductive Rule where
  | leaf (form : Leaf) (origin : Origin)
  | sequence (parts : List Rule) (origin : Origin)
  | choice (alternatives : List Rule) (origin : Origin)
  | optional (body : Rule) (origin : Origin)
  | repetition (body : Rule) (origin : Origin)
  deriving Repr

def Leaf.kind : Leaf → Kind
  | literal => .token
  | reference => .identifier
  | anyToken => .tokenKeyword
  | anyIdentifier => .identifierKeyword
  | newLine => .newlineKeyword

namespace Rule

def origin : Rule → Origin
  | leaf _ o | sequence _ o | choice _ o | optional _ o | repetition _ o => o

def kind : Rule → Kind
  | leaf form _ => form.kind
  | sequence .. => .sequence
  | choice .. => .choice
  | optional .. => .optional
  | repetition .. => .repetition

def branches : Rule → List Rule
  | leaf .. => []
  | sequence rules _ | choice rules _ => rules
  | optional body _ | repetition body _ => [body]

def withOrigin (o : Origin) : Rule → Rule
  | leaf form _ => leaf form o
  | sequence rules _ => sequence rules o
  | choice rules _ => choice rules o
  | optional body _ => optional body o
  | repetition body _ => repetition body o

def start (rule : Rule) : Nat := rule.origin.start
def stop (rule : Rule) : Nat := rule.origin.stop

def writtenAs (rule : Rule) : Text := rule.origin.text.window rule.start rule.stop

def name? (rule : Rule) : Option String := if rule.origin.isRoot then rule.origin.home else none

mutual
def nodes : Rule → List Rule
  | leaf form o => [leaf form o]
  | sequence rules o => sequence rules o :: nodesOfAll rules
  | choice rules o => choice rules o :: nodesOfAll rules
  | optional body o => optional body o :: nodes body
  | repetition body o => repetition body o :: nodes body

def nodesOfAll : List Rule → List Rule
  | [] => []
  | rule :: rest => nodes rule ++ nodesOfAll rest
end

mutual
def levels (depth : Nat) : Rule → List (Nat × Rule)
  | leaf form o => [(depth, leaf form o)]
  | sequence rules o => (depth, sequence rules o) :: levelsOfAll (depth + 1) rules
  | choice rules o => (depth, choice rules o) :: levelsOfAll (depth + 1) rules
  | optional body o => (depth, optional body o) :: levels (depth + 1) body
  | repetition body o => (depth, repetition body o) :: levels (depth + 1) body

def levelsOfAll (depth : Nat) : List Rule → List (Nat × Rule)
  | [] => []
  | rule :: rest => levels depth rule ++ levelsOfAll depth rest
end

mutual
def partOf (home : String) : Rule → Rule
  | leaf form o => leaf form (o.partOf home)
  | sequence rules o => sequence (partsOf home rules) (o.partOf home)
  | choice rules o => choice (partsOf home rules) (o.partOf home)
  | optional body o => optional (partOf home body) (o.partOf home)
  | repetition body o => repetition (partOf home body) (o.partOf home)

def partsOf (home : String) : List Rule → List Rule
  | [] => []
  | rule :: rest => partOf home rule :: partsOf home rest
end

def asBodyOf (name : String) (rule : Rule) : Rule :=
  let rule := rule.partOf name
  rule.withOrigin { rule.origin with isRoot := true }

def target (rule : Rule) : String := String.ofList rule.writtenAs

def mentions (rule : Rule) : List String :=
  (rule.nodes.filter fun node => node.kind = .identifier).map target

end Rule

/-- A backslash stands for the character after it; a last one stands for nothing. -/
def unescape : Text → Text
  | [] => []
  | ['\\'] => []
  | '\\' :: c :: rest => c :: unescape rest
  | c :: rest => c :: unescape rest

namespace Rule

/-- The text a literal matches: what stands between its quotes, unescaped. -/
def literal (rule : Rule) : Text :=
  unescape (rule.origin.text.window (rule.start + 1) (rule.stop - 1))

def describe (rule : Rule) : Text :=
  match rule.name? with
  | some name => name.toList
  | none => rule.writtenAs.excerpt 40

mutual
private def same : Rule → Rule → Bool
  | leaf f o, leaf g q => o = q && f = g
  | sequence rs o, sequence ss q => o = q && sameAll rs ss
  | choice rs o, choice ss q => o = q && sameAll rs ss
  | optional r o, optional s q => o = q && same r s
  | repetition r o, repetition s q => o = q && same r s
  | _, _ => false

private def sameAll : List Rule → List Rule → Bool
  | [], [] => true
  | r :: rs, s :: ss => same r s && sameAll rs ss
  | _, _ => false
end

mutual
private theorem same_iff : ∀ r s : Rule, same r s = true ↔ r = s
  | leaf f o, s => by cases s <;> simp [same, and_comm]
  | sequence rs o, s => by cases s <;> simp [same, sameAll_iff, and_comm]
  | choice rs o, s => by cases s <;> simp [same, sameAll_iff, and_comm]
  | optional r o, s => by cases s <;> simp [same, same_iff, and_comm]
  | repetition r o, s => by cases s <;> simp [same, same_iff, and_comm]

private theorem sameAll_iff : ∀ rs ss : List Rule, sameAll rs ss = true ↔ rs = ss
  | [], ss => by cases ss <;> simp [sameAll]
  | r :: rs, ss => by cases ss <;> simp [sameAll, same_iff, sameAll_iff]
end

instance : DecidableEq Rule := fun r s => decidable_of_iff _ (same_iff r s)

end Rule
end OrderedBnf
