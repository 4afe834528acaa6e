import OrderedBnf.Text.Letter
import OrderedBnf.Parse.Lexis

/-! Numbers. Each reader gives back what follows the part it reads. -/
namespace OrderedBnf.Numeral

def isHexDigit (c : Char) : Bool :=
  isAsciiDigit c || ('a' ≤ c && c ≤ 'f') || ('A' ≤ c && c ≤ 'F')

def isFloatSuffix (c : Char) : Bool := c = 'f' || c = 'F' || c = 'd' || c = 'D'

def skipOne (p : Char → Bool) : Text → Text
  | [] => []
  | c :: rest => if p c then rest else c :: rest

def skipSign : Text → Text := skipOne fun c => c = '+' || c = '-'

def one? (p : Char → Bool) : Text → Option Text
  | [] => none
  | c :: rest => if p c then some rest else none

def some? (p : Char → Bool) (text : Text) : Option Text := (one? p text).map (·.dropWhile p)

def digits? : Text → Option Text := some? isAsciiDigit

def integer? (text : Text) : Option Text :=
  let body := skipSign text
  let hexadecimal? := (one? (· = '0') body).bind fun rest =>
    (one? (fun c => c = 'x' || c = 'X') rest).bind (some? isHexDigit)
  (hexadecimal?.or (digits? body)).map (skipOne fun c => c = 'l' || c = 'L')

def exponent? (text : Text) : Option Text :=
  (one? (fun c => c = 'e' || c = 'E') text).bind fun rest => digits? (skipSign rest)

def pointed? (text : Text) : Option Text :=
  match one? (· = '.') text with
  | some rest => digits? rest
  | none => ((digits? text).bind (one? (· = '.'))).map (·.dropWhile isAsciiDigit)

def floating? (text : Text) : Option Text :=
  let body := skipSign text
  match pointed? body with
  | some rest => some (skipOne isFloatSuffix ((exponent? rest).getD rest))
  | none => (digits? body).bind fun rest =>
    match exponent? rest with
    | some rest => some (skipOne isFloatSuffix rest)
    | none => one? isFloatSuffix rest

/-- The number at the start, unless a letter follows it before `stop`. -/
def scanner (read? : Text → Option Text) : Scanner := fun text start stop =>
  let words := text.window start stop
  match read? words with
  | none => .ok none
  | some rest =>
    let last := start + (words.length - rest.length)
    if text.lacks last stop then .error (.abort .beyondText)
    else if rest.head?.any isLetter then .ok none
    else .ok (some ⟨.token, start, last⟩)

end OrderedBnf.Numeral
