import OrderedBnf.Rule.Basic
import OrderedBnf.Source.Complaint

/-! Why a text does not match. -/
namespace OrderedBnf

/-- The last two are worded by an extension. -/
inductive Reason where
  | undefinedRule (name : String)
  | extensionStart (name : String)
  | unrecognized
  | stopped (recognized farthest : Position)
  | tooDeep
  | infiniteRecursion (rule : Text)
  | endOfText
  | singleQuote
  | closingQuote
  | identifier
  | notKeyword (word : Text)
  | newLine
  | token (word : Text)
  | wordContinues (word : Text)
  | keywordContinues (word : Text)
  | extension (name : String)
  | noAlternative (rule : Text)
  | stringExceedsLine
  | stated (message : String)
  | statedRecursion (message : String)
  deriving DecidableEq, Repr

namespace Reason

def message : Reason → String
  | undefinedRule name => "Unknown definition: " ++ name
  | extensionStart name => "Cannot start from extension point " ++ name
  | unrecognized => "Unrecognized"
  | stopped recognized farthest =>
    "Recognized up to" ++ recognized.inWords ++ " but could not continue; got as far as" ++
      farthest.inWords
  | tooDeep => "Expression nested too deeply"
  | infiniteRecursion rule => "Infinite recursion in " ++ String.ofList rule
  | endOfText => "Unexpected end of text"
  | singleQuote => "Single quote expected"
  | closingQuote => "Closing single quote expected"
  | identifier => "Identifier expected"
  | notKeyword word => "Identifier expected, not keyword " ++ word.quotedString
  | newLine => "New line expected"
  | token word => "Token " ++ word.quotedString ++ " expected"
  | wordContinues word => "Token " ++ word.quotedString ++ " expected, but the word continues"
  | keywordContinues word =>
    "Keyword " ++ word.quotedString ++ " expected, but the identifier continues"
  | extension name => name ++ " expected"
  | noAlternative rule => "No alternative of " ++ String.ofList rule ++ " matched"
  | stringExceedsLine => "String constant exceeds line"
  | stated message | statedRecursion message => message

def isRecursion : Reason → Bool
  | infiniteRecursion _ | statedRecursion _ => true
  | _ => false

end Reason

/-- A failed attempt: the reason, where the attempt was made, and the failures it comes from. -/
inductive Failure where
  | because (reason : Reason) (attempted : Int) (causes : List Failure)
  deriving Repr

namespace Failure

def reason : Failure → Reason
  | because reason _ _ => reason

def causes : Failure → List Failure
  | because _ _ causes => causes

def message (failure : Failure) : String := failure.reason.message

mutual
def position : Failure → Int
  | because _ attempted causes => farthestOf attempted causes

def farthestOf (attempted : Int) : List Failure → Int
  | [] => attempted
  | failure :: rest => max (position failure) (farthestOf attempted rest)
end

mutual
def leaves : Failure → List Failure
  | because reason attempted [] => [because reason attempted []]
  | because _ _ (cause :: rest) => leaves cause ++ leavesOfAll rest

def leavesOfAll : List Failure → List Failure
  | [] => []
  | failure :: rest => leaves failure ++ leavesOfAll rest
end

mutual
def levels (depth : Nat) : Failure → List (Nat × Failure)
  | because reason attempted causes =>
    (depth, because reason attempted causes) :: levelsOfAll (depth + 1) causes

def levelsOfAll (depth : Nat) : List Failure → List (Nat × Failure)
  | [] => []
  | failure :: rest => levels depth failure ++ levelsOfAll depth rest
end

mutual
def size : Failure → Nat
  | because _ _ causes => sizeOfAll causes + 1

def sizeOfAll : List Failure → Nat
  | [] => 0
  | failure :: rest => size failure + sizeOfAll rest
end

theorem sizeOfAll_append (failures rest : List Failure) :
    sizeOfAll (failures ++ rest) = sizeOfAll failures + sizeOfAll rest := by
  induction failures with
  | nil => exact (Nat.zero_add _).symm
  | cons failure failures ih =>
    rw [List.cons_append, sizeOfAll, sizeOfAll, ih, Nat.add_assoc]

/-- What comes off a stack: a failure is taken from the top, and its causes are put in its place. -/
def unstack : List Failure → List Failure
  | [] => []
  | because reason attempted [] :: waiting => because reason attempted [] :: unstack waiting
  | because _ _ (cause :: rest) :: waiting => unstack (cause :: rest ++ waiting)
termination_by stack => sizeOfAll stack
decreasing_by
  · exact Nat.lt_add_of_pos_left (Nat.succ_pos _)
  · rw [sizeOfAll_append]
    exact Nat.add_lt_add_right (Nat.lt_succ_self _) _

def reasons (failure : Failure) : List Failure := unstack [failure]

def describe (failure : Failure) (source : Option Source) : String :=
  match source with
  | none => failure.message ++ " at offset " ++ toString failure.position
  | some source => failure.message ++ " at" ++ (source.position failure.position).inWords

def details (failure : Failure) (source : Option Source) : List String :=
  (failure.reasons.map (·.describe source)).eraseDups

def report (failure : Failure) (source : Option Source) : String :=
  if source.isNone || failure.causes.isEmpty then failure.describe source
  else failure.describe source ++ "\n" ++ String.intercalate "\n" (failure.details source)

end Failure

/-- A failure of a whole parse: the text it concerns and the farthest offset that any terminal
reached. -/
structure Diagnosis where
  failure : Failure
  source : Source
  farthest : Nat
  deriving Repr

namespace Diagnosis

def position (d : Diagnosis) : Position := d.source.position d.failure.position

def report (d : Diagnosis) : String := d.failure.report (some d.source)

def complaint? (d : Diagnosis) : Option String :=
  let start := d.failure.position
  d.source.complaint? start (min (start + 1) d.source.content.length) d.failure.message

end Diagnosis
end OrderedBnf
