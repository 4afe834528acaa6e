import OrderedBnf.Parse.Language

/-! A matcher that is asked about one text again and again. From one request to the next it keeps the
ranges that it is busy matching, the literals that it has decoded and the farthest offset that any
terminal reached. -/
namespace OrderedBnf

structure Request where
  rule : Rule
  start : Nat
  stop : Nat
  deriving DecidableEq, Repr

structure Memory where
  busy : List Request
  literals : List (Rule × Text)
  farthest : Nat

namespace Memory

def fresh : Memory := ⟨[], [], 0⟩

def enter (request : Request) (memory : Memory) : Memory :=
  { memory with busy := request :: memory.busy }

def leave (request : Request) (memory : Memory) : Memory :=
  { memory with busy := memory.busy.filter (· ≠ request) }

def learn (rule : Rule) (word : Text) (memory : Memory) : Memory :=
  { memory with literals := (rule, word) :: memory.literals }

end Memory

abbrev Recalling := ExceptT Halt (StateM Memory)

namespace Recalling
open Attempt

def outcome {α : Type} (attempt : Recalling α) (memory : Memory) : Except Halt α × Memory :=
  StateT.run (ExceptT.run attempt) memory

instance (priority := low) : MonadLift Attempt Recalling where
  monadLift attempt := fun memory =>
    let (out, farthest) := attempt.outcome memory.farthest
    (out, { memory with farthest := farthest })

def literal (rule : Rule) : Recalling Text := do
  match (← get).literals.lookup rule with
  | some word => return word
  | none =>
    modify (Memory.learn rule rule.literal)
    return rule.literal

end Recalling

namespace Reader
open Attempt

def recallLiteral (r : Reader) : Step Recalling := fun rule start => do
  r.matchWord rule (← Recalling.literal rule) start

/-- As `run`, but what is busy is in memory, and is taken out of it whatever comes of the match. -/
def runRecalling (r : Reader) : (depth : Nat) → Step Recalling
  | 0, _, _ => abort .tooDeep
  | depth + 1, rule, start => do
    let request : Request := ⟨rule, start, r.stop⟩
    if (← get).busy.contains request then fail (.infiniteRecursion rule.describe) start []
    else
      modify (Memory.enter request)
      try r.node r.recallLiteral (runRecalling r depth) rule start
      finally modify (Memory.leave request)

end Reader

namespace Language

def readerUpTo (language : Language) (text : Text) (stop : Nat) : Reader :=
  ⟨language.grammar, language.lexis, text, stop⟩

def answer (language : Language) (text : Text) (memory : Memory) (request : Request) :
    Except Halt ParseTree × Memory :=
  let r := language.readerUpTo text request.stop
  (r.runRecalling (r.depthBound request.rule) request.rule request.start).outcome memory

def remembered (language : Language) (text : Text) (requests : List Request) : Memory :=
  requests.foldl (fun memory request => (language.answer text memory request).2) .fresh

end Language
end OrderedBnf
