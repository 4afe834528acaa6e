import OrderedBnf.Text.Basic
import OrderedBnf.Text.Numeric

/-! Identifiers: letters, numeric characters, underscores and dollar signs. -/
namespace OrderedBnf

def isIdentifierStart (c : Char) : Bool := isLetter c || c = '_' || c = '$'

def isIdentifierChar (c : Char) : Bool := isLetterOrNumeric c || c = '_' || c = '$'

/-- Any non-empty run of identifier characters, a leading digit included. -/
def isIdentifier (word : Text) : Bool := !word.isEmpty && word.all isIdentifierChar

end OrderedBnf
