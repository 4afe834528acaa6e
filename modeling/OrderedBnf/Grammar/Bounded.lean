import OrderedBnf.Grammar.Load

/-! Loading a grammar on a stack of limited size. A compiler calls itself for each side of a cut and
for what stands in brackets; where there is no room for one more call, nothing comes of the whole
document. -/
namespace OrderedBnf

namespace Rule

/-- Compiles a trimmed stretch with room for a number of calls that are open at a time, its own
among them. The error is `none` where that is not enough. -/
def compileStretchWithin (text : Text) : Nat → Stretch → Except (Option SyntaxError) Rule
  | 0, _ => .error none
  | room + 1, s =>
    match s.cut? with
    | .error error => .error (some error)
    | .ok (some cut) => do
      let left ← compileStretchWithin text room (s.before cut).trim
      let right ← compileStretchWithin text room (s.after cut).trim
      return join text cut left right
    | .ok none =>
      if h : s.chars = [] then .error (some (Fault.emptyExpression.atOffset s.start))
      else
        let first := s.chars.head h
        let last := s.chars.getLast h
        match closingOf? first with
        | none => (compileLeaf text s first last).mapError some
        | some closing =>
          if last ≠ closing then
            .error (some ((Fault.wrongClosing s.chars first closing).atOffset s.start))
          else if s.inner.trim.chars = [] then
            .error (some (Fault.emptyBrackets.atOffset s.start))
          else do
            let body ← compileStretchWithin text room s.inner.trim
            return bracket text s first body

end Rule

namespace Grammar

end Grammar
end OrderedBnf
