/-! Tables drawn with lines for a text console. -/
namespace OrderedBnf

inductive Cell where
  | text (words : String)
  | number (value : Int)
  | flag (value : Bool)
  | missing
  deriving DecidableEq, Repr

def Cell.print : Cell → String
  | text words => words
  | number value => toString value
  | flag true => "True"
  | flag false => "False"
  | missing => "None"

namespace Grid

private def fit (widths : List Nat) (row : List String) : List String :=
  row.zipWith (fun cell width => cell ++ String.ofList (List.replicate (width - cell.length) ' '))
    widths

private def widths : List (List String) → List Nat
  | [] => []
  | [row] => row.map String.length
  | row :: rest => (row.map String.length).zipWith max (widths rest)

/-- A divider stands above the second row and above every fifth row after it. -/
private def body (divider : String) (widths : List Nat) (r : Nat) :
    List (List String) → List String
  | [] => []
  | row :: rest =>
    let line := String.intercalate " │ " (fit widths row)
    let drawn := if r % 5 = 1 then [divider, line] else [line]
    drawn ++ body divider widths (r + 1) rest

/-- The lines of a drawing. The rows must be of one length; those of a ragged or empty grid are
given back as a list of lengths. -/
def draw (rows : List (List String)) : Except (List Nat) (List String) :=
  let lengths := rows.map List.length
  if lengths.eraseDups.length ≠ 1 then .error lengths
  else
    let widths := widths rows
    let segments := widths.map fun w => String.ofList (List.replicate w '─')
    .ok ([String.intercalate "─┬─" segments] ++
      body (String.intercalate "─┼─" segments) widths 0 rows ++
      [String.intercalate "─┴─" segments])

def showLengths (lengths : List Nat) : String :=
  "[" ++ String.intercalate ", " (lengths.map toString) ++ "]"

end Grid

end OrderedBnf
