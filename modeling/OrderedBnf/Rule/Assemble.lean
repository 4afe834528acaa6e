import OrderedBnf.Rule.Compile
import OrderedBnf.Tree.Draft

/-! Compiling an expression into a draft. The node for a cut is made once both of its sides are
there. Operands on the right of its own kind are attached to it in their turn, and the node that
they were attached to before is left without a place in the tree. -/
namespace OrderedBnf

inductive AssemblyError where
  | malformed (error : SyntaxError)
  | unattached (error : DraftError)
  deriving DecidableEq, Repr

namespace Draft

def addNode (d : Draft) (kind : Kind) : Draft × Nat :=
  (d.add { kind := kind, isDefined := false, name := none, range := none }, d.nodes.length)

def attachAll (d : Draft) (parent : Nat) (branches : List (Option Nat)) : Except DraftError Draft :=
  branches.foldlM
    (fun d branch =>
      match branch with
      | none => .ok (d.attachAbsent parent)
      | some child => d.attach parent child)
    d

def place (d : Draft) (i start stop : Nat) : Draft :=
  d.update i fun node => { node with range := some (start, stop) }

def join (d : Draft) (cut : Cut) (left right : Nat) : Except DraftError (Draft × Nat) := do
  let operands :=
    if (d.node right).kind = cut.kind then (d.node right).branches else [some right]
  let (d, i) := d.addNode cut.kind
  let d ← d.attachAll i (some left :: operands)
  return (d, i)

/-- The node for a bracketed expression. A group is the node inside, which reaches over its brackets
unless it is a leaf. -/
def bracket (d : Draft) (s : Stretch) (opening : Char) (body : Nat) :
    Except DraftError (Draft × Nat) :=
  if opening = '(' then
    if (d.node body).branches.isEmpty then .ok (d, body)
    else .ok (d.place body s.start s.stop, body)
  else do
    let (d, i) := d.addNode (if opening = '[' then .optional else .repetition)
    let d ← d.attachAll i [some body]
    return (d.place i s.start s.stop, i)

def assembleStretch (d : Draft) (s : Stretch) : Except AssemblyError (Draft × Nat) :=
  match _h : s.cut? with
  | .error error => .error (.malformed error)
  | .ok (some cut) => do
    let (d, left) ← assembleStretch d (s.before cut).trim
    let (d, right) ← assembleStretch d (s.after cut).trim
    (d.join cut left right).mapError .unattached
  | .ok none =>
    if _h : s.chars = [] then .error (.malformed (Fault.emptyExpression.atOffset s.start))
    else
      let first := s.chars.head _h
      let last := s.chars.getLast _h
      match closingOf? first with
      | none => do
        let rule ← (Rule.compileLeaf d.text s first last).mapError .malformed
        let d' ← (d.addLeaf rule.kind s.start s.stop false none).mapError .unattached
        return (d', d.nodes.length)
      | some closing =>
        if last ≠ closing then
          .error (.malformed ((Fault.wrongClosing s.chars first closing).atOffset s.start))
        else if s.inner.trim.chars = [] then
          .error (.malformed (Fault.emptyBrackets.atOffset s.start))
        else do
          let (d, body) ← assembleStretch d s.inner.trim
          (d.bracket s first body).mapError .unattached
termination_by s.chars.length
decreasing_by
  · exact Stretch.length_before_lt _h
  · exact Stretch.length_after_lt _h
  · exact Stretch.length_inner_lt _h

def assemble (text : Text) : Except AssemblyError (Draft × Nat) :=
  let s := (Stretch.mk 0 text).trim
  if s.chars = [] then .error (.malformed (Fault.emptyExpression.atOffset 0))
  else assembleStretch ⟨text, none, []⟩ s

def kindAndRange (d : Draft) (i : Nat) : Kind × Option (Int × Int) :=
  ((d.node i).kind, (d.node i).range)

def shape (d : Draft) (i : Nat) : Tree (Kind × Option (Int × Int)) := (d.tree i).map d.kindAndRange

end Draft

namespace Rule

mutual
def shape : Rule → Tree (Kind × Option (Int × Int))
  | leaf form o => .leaf (form.kind, some (o.start, o.stop))
  | sequence rules o => .node (.sequence, some (o.start, o.stop)) (shapesOf rules)
  | choice rules o => .node (.choice, some (o.start, o.stop)) (shapesOf rules)
  | optional body o => .node (.optional, some (o.start, o.stop)) [some (shape body)]
  | repetition body o => .node (.repetition, some (o.start, o.stop)) [some (shape body)]

def shapesOf : List Rule → List (Option (Tree (Kind × Option (Int × Int))))
  | [] => []
  | rule :: rest => some (shape rule) :: shapesOf rest
end

end Rule
end OrderedBnf
