import OrderedBnf.Text.Basic

/-! Source texts and the line and column of an offset. -/
namespace OrderedBnf

/-- Which characters end a line: all of feed, return and the two together, or one of them alone. -/
inductive BreakStyle where
  | any
  | feed
  | carriageReturn
  | returnFeed
  deriving DecidableEq, Repr

structure Source where
  content : Text
  style : BreakStyle := .any
  filename : Option String := none
  firstLine : Int := 1
  tabWidth : Int := 2
  deriving DecidableEq, Repr

structure Position where
  line : Int
  column : Int
  deriving DecidableEq, Repr

def Position.inWords (position : Position) : String :=
  " line " ++ toString position.line ++ ", column " ++ toString position.column

def BreakStyle.breaksAt (style : BreakStyle) (c : Char) : Bool :=
  match style with
  | any => c = '\n' || c = '\r'
  | feed => c = '\n'
  | carriageReturn => c = '\r'
  | returnFeed => false

def BreakStyle.ends (style : BreakStyle) (i : Nat) : Text → List Nat
  | [] => []
  | '\r' :: '\n' :: rest =>
    (if style = .carriageReturn then i + 1 else i + 2) :: style.ends (i + 2) rest
  | c :: rest =>
    if style.breaksAt c then (i + 1) :: style.ends (i + 1) rest
    else style.ends (i + 1) rest

namespace Source

/-- The offsets at which lines start. There is always a first line, and one after the last
break. -/
def lineStarts (source : Source) : List Nat := 0 :: source.style.ends 0 source.content

def bounds (source : Source) : List Nat := source.lineStarts ++ [source.content.length]

/-- Rows count from zero here; an offset before the text lies in row -1. -/
def rowOf (source : Source) (index : Int) : Int :=
  (source.lineStarts.countP fun (start : Nat) => (start : Int) ≤ index) - 1

/-- Row -1 starts at the end of the text. -/
def rowStart (source : Source) (row : Int) : Int :=
  if row < 0 then source.content.length else (source.lineStarts.getD row.toNat 0 : Nat)

def find (source : Source) (index : Int) : Int × Int :=
  let row := source.rowOf index
  (row + source.firstLine, index - source.rowStart row)

/-- The line and the column as a reader counts them: from one, and with wide tabs. -/
def position (source : Source) (index : Int) : Position :=
  let row := source.rowOf index
  let start := source.rowStart row
  let leader := source.content.slice start index
  { line := row + source.firstLine
    column := 1 + (index - start) + (source.tabWidth - 1) * (leader.count '\t' : Nat) }

/-- A line with its break. Lines before the first are the first; there is none after the last. -/
def line? (source : Source) (number : Int) : Option Text :=
  let row := (number - source.firstLine).toNat
  match source.bounds[row]?, source.bounds[row + 1]? with
  | some start, some stop => some (source.content.window start stop)
  | _, _ => none

end Source
end OrderedBnf
