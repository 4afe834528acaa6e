import OrderedBnf.Parse.Failure

/-! Attempts to match. A failure may be recovered from; an abort ends the whole parse. The farthest
offset that any terminal reached is kept through both. -/
namespace OrderedBnf

/-- Something that can neither be skipped nor matched, such as an unclosed comment. -/
structure LexicalError where
  message : String
  position : Int
  deriving DecidableEq, Repr

inductive Abort where
  | lexical (error : LexicalError)
  | badRange (start stop : Int) (length : Nat)
  /-- A range may end beyond its text, as long as no character is looked for there. -/
  | beyondText
  | tooDeep
  deriving DecidableEq, Repr

inductive Halt where
  | failure (failure : Failure)
  | abort (abort : Abort)
  deriving Repr

/-- The state is the farthest offset reached so far. -/
abbrev Attempt := ExceptT Halt (StateM Nat)

namespace Attempt

section
variable {m : Type → Type} [MonadExcept Halt m] {α : Type}

def fail (reason : Reason) (position : Nat) (causes : List Failure) : m α :=
  throw (.failure (.because reason position causes))

def abort (cause : Abort) : m α := throw (.abort cause)

def recover [Monad m] (attempt : m α) : m (Except Failure α) :=
  tryCatch (do return .ok (← attempt)) fun
    | .failure failure => return .error failure
    | .abort cause => throw (.abort cause)

end

def reach (position : Nat) : Attempt Unit := modify fun farthest => max farthest position

def outcome {α : Type} (attempt : Attempt α) (farthest : Nat) : Except Halt α × Nat :=
  StateT.run (ExceptT.run attempt) farthest

end Attempt
end OrderedBnf
