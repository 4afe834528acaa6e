import OrderedBnf.Tree.Basic

/-! Walking a tree with a stack of what is still to come. -/
namespace OrderedBnf.Tree
variable {α : Type}

mutual
def size : Tree α → Nat
  | node _ branches => sizeOfAll branches + 1

def sizeOfAll : List (Option (Tree α)) → Nat
  | [] => 0
  | none :: rest => sizeOfAll rest + 1
  | some t :: rest => size t + sizeOfAll rest
end

theorem sizeOfAll_append (branches rest : List (Option (Tree α))) :
    sizeOfAll (branches ++ rest) = sizeOfAll branches + sizeOfAll rest := by
  induction branches with
  | nil => exact (Nat.zero_add _).symm
  | cons branch branches ih =>
    cases branch <;> simp only [List.cons_append, sizeOfAll, ih] <;> omega

/-- The branches that a walk goes on to; absent ones only if they are asked for. -/
def followed (absent : Bool) (branches : List (Option (Tree α))) : List (Option (Tree α)) :=
  branches.filter fun branch => absent || branch.isSome

theorem sizeOfAll_followed_le (absent : Bool) (branches : List (Option (Tree α))) :
    sizeOfAll (followed absent branches) ≤ sizeOfAll branches := by
  induction branches with
  | nil => exact Nat.le_refl _
  | cons branch branches ih =>
    rw [followed] at ih ⊢
    rw [List.filter_cons]
    split <;> cases branch <;> simp only [sizeOfAll] <;> omega

/-- What comes off a stack: each item is taken from the top, and the branches of a node are put in
its place. -/
def visit (absent : Bool) : List (Option (Tree α)) → List (Option (Tree α))
  | [] => []
  | none :: waiting => none :: visit absent waiting
  | some (node a branches) :: waiting =>
    some (node a branches) :: visit absent (followed absent branches ++ waiting)
termination_by stack => sizeOfAll stack
decreasing_by
  · exact Nat.lt_succ_self _
  · have hle := sizeOfAll_followed_le absent branches
    rw [sizeOfAll_append, sizeOfAll, size]
    omega

def items (absent : Bool) (tree : Tree α) : List (Option (Tree α)) := visit absent [some tree]

end OrderedBnf.Tree
