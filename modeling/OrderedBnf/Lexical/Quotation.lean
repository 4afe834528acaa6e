import OrderedBnf.Text.Unescaped
import OrderedBnf.Parse.Lexis

/-! Quoted literals on one line. -/
namespace OrderedBnf.Quotation

/-- Finds nothing where the opening mark or the closing one is missing, and fails at a feed that
comes before the closing mark. -/
def scanner (mark : Char) : Scanner := fun text start stop =>
  match text.drop start with
  | [] => .error (.abort .beyondText)
  | c :: _ =>
    if c ≠ mark then .ok none
    else
      let ends (c : Char) : Bool := c = '\n' || c = mark
      match (text.window (start + 1) stop).unescaped ends (start + 1) with
      | .ok (i, c) =>
        if c = '\n' then .error (.failure (.because .stringExceedsLine i []))
        else .ok (some ⟨.token, start, (i + 1 : Nat)⟩)
      | .error i => if i < stop then .error (.abort .beyondText) else .ok none

end OrderedBnf.Quotation
