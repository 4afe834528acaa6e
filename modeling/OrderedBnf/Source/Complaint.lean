import OrderedBnf.Text.Blank
import OrderedBnf.Source.Basic

/-! Pictures of a place in a line of text. -/
namespace OrderedBnf

/-- The line after a lead, and under it carets for the marked characters that lie in the line, one
at the least. Tabs are kept in front of the carets, so that these stand where they should. -/
def underlined (line : Text) (start width : Int) (lead : Text) (caption : String) : String :=
  let blanks := (lead ++ line.slice 0 start).map fun c => if c = '\t' then c else ' '
  let carets := List.replicate (max 1 (min width (line.length - start))).toNat '^'
  String.ofList (lead ++ line.trimRight isBlank ++ '\n' :: blanks ++ carets) ++ " " ++ caption

namespace Source

def headline (source : Source) (index : Int) (message : String) : String :=
  let lead := match source.filename with
    | none => "At"
    | some name => name ++ ":"
  lead ++ (source.position index).inWords ++ ": " ++ message

/-- A message about a range, with a picture of its first line. There is none for an offset whose
line is not in the text. -/
def complaint? (source : Source) (start stop : Int) (message : String) : Option String :=
  let (line, column) := source.find start
  (source.line? line).map fun words =>
    source.headline start message ++ "\n" ++
      underlined words column (stop - start) " >>> ".toList "near here"

end Source
end OrderedBnf
