import OrderedBnf.Text.Basic
import OrderedBnf.Text.Printable

/-! A text in quotes on one line, for messages. -/
namespace OrderedBnf.Text

/-- Double quotes serve for a text that holds single quotes and no double ones. -/
def quoteMark (text : Text) : Char := if text.contains '\'' && !text.contains '"' then '"' else '\''

private def hexDigits (width n : Nat) : Text :=
  let digits := Nat.toDigits 16 n
  List.replicate (width - digits.length) '0' ++ digits

/-- Backslash, the quote mark, tabs, feeds and returns are escaped by name, and whatever leaves no
mark by its code point. -/
def escapeChar (mark c : Char) : Text :=
  if c = mark || c = '\\' then ['\\', c]
  else if c = '\n' then ['\\', 'n']
  else if c = '\r' then ['\\', 'r']
  else if c = '\t' then ['\\', 't']
  else if isPrintable c then [c]
  else if c.toNat < 0x100 then '\\' :: 'x' :: hexDigits 2 c.toNat
  else if c.toNat < 0x10000 then '\\' :: 'u' :: hexDigits 4 c.toNat
  else '\\' :: 'U' :: hexDigits 8 c.toNat

def quoted (text : Text) : Text :=
  let mark := text.quoteMark
  mark :: text.flatMap (escapeChar mark) ++ [mark]

def quotedString (text : Text) : String := String.ofList text.quoted

end OrderedBnf.Text
