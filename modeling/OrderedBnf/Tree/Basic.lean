/-! Trees with labels. A branch may be absent: an alternative that did not match keeps its place. -/
namespace OrderedBnf

inductive Tree (α : Type) where
  | node (label : α) (branches : List (Option (Tree α)))
  deriving Repr

namespace Tree
variable {α β : Type}

def label : Tree α → α
  | node a _ => a

def branches : Tree α → List (Option (Tree α))
  | node _ bs => bs

def leaf (a : α) : Tree α := node a []

mutual
def walk : Tree α → List α
  | node a bs => a :: walkAll bs

def walkAll : List (Option (Tree α)) → List α
  | [] => []
  | none :: rest => walkAll rest
  | some t :: rest => walk t ++ walkAll rest
end

mutual
/-- The labels in the same order, each with its depth, and `none` in the place of each absent
branch. -/
def levels (depth : Nat) : Tree α → List (Nat × Option α)
  | node a bs => (depth, some a) :: levelsOfAll (depth + 1) bs

def levelsOfAll (depth : Nat) : List (Option (Tree α)) → List (Nat × Option α)
  | [] => []
  | none :: rest => (depth, none) :: levelsOfAll depth rest
  | some t :: rest => levels depth t ++ levelsOfAll depth rest
end

mutual
def map (f : α → β) : Tree α → Tree β
  | node a bs => node (f a) (mapAll f bs)

def mapAll (f : α → β) : List (Option (Tree α)) → List (Option (Tree β))
  | [] => []
  | none :: rest => none :: mapAll f rest
  | some t :: rest => some (map f t) :: mapAll f rest
end

mutual
/-- Relabels the nodes in walking order, with a state handed from each to the next. -/
def thread {σ : Type} (f : σ → Tree α → β × σ) (s : σ) : Tree α → Tree β × σ
  | node a bs =>
    let (b, s) := f s (node a bs)
    let (bs, s) := threadAll f s bs
    (node b bs, s)

def threadAll {σ : Type} (f : σ → Tree α → β × σ) (s : σ) :
    List (Option (Tree α)) → List (Option (Tree β)) × σ
  | [] => ([], s)
  | none :: rest =>
    let (rest, s) := threadAll f s rest
    (none :: rest, s)
  | some t :: rest =>
    let (t, s) := thread f s t
    let (rest, s) := threadAll f s rest
    (some t :: rest, s)
end

mutual
def subtrees : Tree α → List (Tree α)
  | node a bs => node a bs :: subtreesOfAll bs

def subtreesOfAll : List (Option (Tree α)) → List (Tree α)
  | [] => []
  | none :: rest => subtreesOfAll rest
  | some t :: rest => subtrees t ++ subtreesOfAll rest
end

end Tree
end OrderedBnf
