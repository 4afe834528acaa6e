import OrderedBnf.Parse.Terminal

/-! Recursive descent with ordered choice: a choice takes its first alternative that matches and
never reconsiders, an optional and a repetition take as much as their body gives. A rule asked to
match where it is already busy matching fails there. -/
namespace OrderedBnf.Reader
open Attempt

abbrev Step (m : Type → Type) := Rule → Nat → m ParseTree

section
variable {m : Type → Type} [Monad m]

def inTurn (step : Step m) : List Rule → Nat → m (List ParseTree)
  | [], _ => return []
  | part :: rest, start => do
    let tree ← step part start
    let trees ← inTurn step rest tree.stop
    return tree :: trees

variable [MonadExcept Halt m]

/-- One place for each alternative, the first that matches filled; or the failures of all. -/
def firstOf (step : Step m) (start : Nat) :
    List Rule → m (Except (List Failure) (List (Option ParseTree)))
  | [] => return .error []
  | rule :: rest => do
    match ← recover (step rule start) with
    | .ok tree => return .ok (some tree :: rest.map fun _ => none)
    | .error failure =>
      match ← firstOf step start rest with
      | .ok places => return .ok (none :: places)
      | .error failures => return .error (failure :: failures)

/-- Matches a body again and again, for as long as it gets on. Every round starts beyond the one
before it, so `rounds` need not exceed the length of the text. -/
def again (step : Step m) (body : Rule) : (rounds start : Nat) → m (List ParseTree)
  | 0, _ => return []
  | rounds + 1, start => do
    match ← recover (step body start) with
    | .error _ => return []
    | .ok tree =>
      if tree.stop ≤ start then return []
      else return tree :: (← again step body rounds tree.stop)

def node [MonadLiftT Attempt m] (r : Reader) (literal step : Step m) (rule : Rule) (start : Nat) :
    m ParseTree :=
  match rule with
  | .leaf .literal _ => literal rule start
  | .leaf .anyToken _ => r.matchToken rule start
  | .leaf .anyIdentifier _ => r.matchIdentifier rule start
  | .leaf .newLine _ => r.matchNewLine rule start
  | .leaf .reference _ =>
    match r.grammar.body? rule.target with
    | none => fail (.undefinedRule rule.target) start []
    | some none => r.matchExtension rule start
    | some (some body) => step body start
  | .sequence parts _ => do
    let trees ← inTurn step parts start
    return .spanning .sequence rule start (trees.map some)
  | .choice alternatives _ => do
    match ← firstOf step start alternatives with
    | .ok places => return .spanning .choice rule start places
    | .error failures => fail (.noAlternative rule.describe) start failures
  | .optional body _ => do
    match ← recover (step body start) with
    | .ok tree => return .spanning .optional rule start [some tree]
    | .error _ => return .spanning .optional rule start []
  | .repetition body _ => do
    let trees ← again step body (r.text.length + 1) start
    return .spanning .repetition rule start (trees.map some)

end

/-- Matches a rule node from an offset, at most `depth` nodes deep. `busy` holds the nodes being
matched around it and the offsets they started from. -/
def run (r : Reader) : (depth : Nat) → (busy : List (Nat × Rule)) → Step Attempt
  | 0, _, _, _ => abort .tooDeep
  | depth + 1, busy, rule, start =>
    if busy.contains (start, rule) then fail (.infiniteRecursion rule.describe) start []
    else r.node r.matchLiteral (run r depth ((start, rule) :: busy)) rule start

/-- More nodes than can be open at once: the nodes of the grammar and of the rule, each at every
offset of the text and at a start beyond it. -/
def depthBound (r : Reader) (rule : Rule) : Nat :=
  ((r.grammar.bodies.flatMap Rule.nodes).length + rule.nodes.length) * (r.text.length + 2) + 1

def attempt (r : Reader) (rule : Rule) (start : Nat) : Attempt ParseTree :=
  r.run (r.depthBound rule) [] rule start

end OrderedBnf.Reader
