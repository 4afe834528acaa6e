import OrderedBnf.Text.Basic

/-! Looking for a character that no backslash escapes. -/
namespace OrderedBnf.Text

/-- The first unescaped character in `p` of a text that starts at offset `i`, with its offset; or
the offset at which the search gives up, one beyond the end where the end is escaped. -/
def unescaped (p : Char → Bool) (i : Nat) : Text → Except Nat (Nat × Char)
  | [] => .error i
  | ['\\'] => .error (i + 2)
  | '\\' :: _ :: rest => unescaped p (i + 2) rest
  | c :: rest => if p c then .ok (i, c) else unescaped p (i + 1) rest

end OrderedBnf.Text
