import OrderedBnf.Text.Basic
import OrderedBnf.Tree.Basic

/-! Text from a decorated tree. A node may carry text before and after it, and its own characters
may be hidden. A node with both texts is a pair of brackets; with one of them, plain. At one
offset, closing texts come before opening ones. Among closing ones plain ones come first, then
narrower ranges, then deeper nodes; among opening ones wider ranges come first, then shallower
nodes, and plain ones last. What is attached to an empty node below the root is left out. -/
namespace OrderedBnf

/-- What is added to a node; an empty text counts as one. -/
structure Decoration where
  before : Option Text := none
  after : Option Text := none
  hidden : Bool := false
  deriving DecidableEq, Repr

structure Mark extends Decoration where
  start : Int
  stop : Int
  deriving DecidableEq, Repr

def Mark.isEmpty (m : Mark) : Bool := m.start = m.stop

namespace Render

mutual
/-- The marks that count, each with its depth: that of the root and those of non-empty nodes below
non-empty ones. -/
def marks (depth : Nat) : Tree Mark → List (Nat × Mark)
  | .node m branches => (depth, m) :: marksOfAll (depth + 1) branches

def marksOfAll (depth : Nat) : List (Option (Tree Mark)) → List (Nat × Mark)
  | [] => []
  | none :: rest => marksOfAll depth rest
  | some (.node m branches) :: rest =>
    (if m.isEmpty then [] else (depth, m) :: marksOfAll (depth + 1) branches) ++
      marksOfAll depth rest
end

mutual
def hidden : Tree Mark → List Mark
  | .node m branches => if m.hidden then [m] else hiddenOfAll branches

def hiddenOfAll : List (Option (Tree Mark)) → List Mark
  | [] => []
  | none :: rest => hiddenOfAll rest
  | some (.node m branches) :: rest =>
    (if m.isEmpty then [] else if m.hidden then [m] else hiddenOfAll branches) ++ hiddenOfAll rest
end

def keyLE : List Int → List Int → Bool
  | a :: as, b :: bs => a < b || (a = b && keyLE as bs)
  | _, _ => true

def closingKey (entry : Nat × Mark) : List Int :=
  [if entry.2.before.isSome then 1 else 0, -entry.2.start, -entry.1]

def openingKey (entry : Nat × Mark) : List Int :=
  [if entry.2.after.isNone then 1 else 0, -entry.2.stop, entry.1]

def sortBy {α : Type} (key : α → List Int) (entries : List α) : List α :=
  entries.mergeSort fun a b => keyLE (key a) (key b)

/-- A piece of the rendered text: characters of the text itself, or the decoration that opens or
closes a node. A node is known by its depth and its mark. -/
inductive Piece where
  | chars (start stop : Int)
  | opens (node : Nat × Mark)
  | closes (node : Nat × Mark)
  deriving DecidableEq, Repr

def Piece.render (text : Text) : Piece → Text
  | chars start stop => text.slice start stop
  | opens node => node.2.before.getD []
  | closes node => node.2.after.getD []

def closing (entries : List (Nat × Mark)) (offset : Int) : List Piece :=
  (sortBy closingKey (entries.filter fun e => e.2.after.isSome && e.2.stop = offset)).map .closes

def opening (entries : List (Nat × Mark)) (offset : Int) : List Piece :=
  (sortBy openingKey (entries.filter fun e => e.2.before.isSome && e.2.start = offset)).map .opens

def boundaries (entries : List (Nat × Mark)) (concealed : List Mark) : List Int :=
  let offsets := (entries.filter (·.2.before.isSome)).map (·.2.start) ++
    (entries.filter (·.2.after.isSome)).map (·.2.stop) ++ concealed.map (·.start) ++
    concealed.map (·.stop)
  (offsets.mergeSort (· ≤ ·)).eraseDups

/-- Goes from boundary to boundary. `concealed` holds the hidden ranges that do not end before the
cursor, in order; a range of characters between two boundaries is left out if it lies in the first
of them. -/
def sweep (entries : List (Nat × Mark)) (stop cursor : Int) (concealed : List Mark) :
    List Int → List Piece
  | [] =>
    if cursor < stop then
      match concealed.dropWhile (·.stop ≤ cursor) with
      | [] => [.chars cursor stop]
      | h :: _ => if cursor < h.start then [.chars cursor stop] else []
    else []
  | offset :: rest =>
    let decorations := closing entries offset ++ opening entries offset
    if cursor < offset then
      let ahead := concealed.dropWhile (·.stop ≤ cursor)
      let between := match ahead with
        | [] => [.chars cursor offset]
        | h :: _ => if h.start ≤ cursor && offset ≤ h.stop then [] else [.chars cursor offset]
      between ++ decorations ++ sweep entries stop offset ahead rest
    else decorations ++ sweep entries stop cursor concealed rest

/-- The pieces of a tree. An empty root has nothing but its own decorations. -/
def pieces (tree : Tree Mark) : List Piece :=
  let root := tree.label
  if root.isEmpty then [.opens (0, root), .closes (0, root)]
  else
    let entries := marks 0 tree
    let concealed := (hidden tree).mergeSort fun a b => a.start ≤ b.start
    match boundaries entries concealed with
    | [] => [.chars root.start root.stop]
    | offsets => sweep entries root.stop root.start concealed offsets

end Render

def Tree.render (text : Text) (tree : Tree Mark) : Text :=
  (Render.pieces tree).flatMap (·.render text)

end OrderedBnf
