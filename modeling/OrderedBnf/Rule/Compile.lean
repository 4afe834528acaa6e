import OrderedBnf.Identifier
import OrderedBnf.Text.Blank
import OrderedBnf.Rule.Basic
import OrderedBnf.Rule.SyntaxError

/-! Compiling an expression. A choice binds loosest, then a sequence: a stretch of text is cut at
its first bar outside brackets and quotes, else at its first such blank between two operands, and
the pieces are compiled in turn. An operand on the right of its own kind is spliced into the
result, so a chain of alternatives is one flat node. -/
namespace OrderedBnf

structure Stretch where
  start : Nat
  chars : Text
  deriving DecidableEq, Repr

/-- The offset in a stretch of the bar or blank between two operands. -/
inductive Cut where
  | choice (offset : Nat)
  | sequence (offset : Nat)
  deriving DecidableEq, Repr

def Cut.offset : Cut → Nat
  | choice i | sequence i => i

def Cut.kind : Cut → Kind
  | choice _ => .choice
  | sequence _ => .sequence

def closingOf? (c : Char) : Option Char :=
  if c = '(' then some ')' else if c = '[' then some ']' else if c = '{' then some '}' else none

def isClosing (c : Char) : Bool := c = ')' || c = ']' || c = '}'

def isQuote (c : Char) : Bool := c = '\'' || c = '"'

namespace Stretch

def stop (s : Stretch) : Nat := s.start + s.chars.length

def trim (s : Stretch) : Stretch :=
  ⟨s.start + (s.chars.takeWhile isBlank).length, s.chars.trim isBlank⟩

def before (s : Stretch) (cut : Cut) : Stretch := ⟨s.start, s.chars.take cut.offset⟩

def after (s : Stretch) (cut : Cut) : Stretch :=
  ⟨s.start + cut.offset + 1, s.chars.drop (cut.offset + 1)⟩

def inner (s : Stretch) : Stretch := ⟨s.start + 1, s.chars.tail.dropLast⟩

end Stretch

/-- Whether a blank lies between two operands: not before a bar or a closing bracket, nor at the
end. -/
def separates (rest : Text) : Bool :=
  match rest.dropWhile isBlank with
  | [] => false
  | c :: _ => c != '|' && !isClosing c

/-- Looks for a cut in the rest of a stretch that starts at `first`, `i` characters into it. The
depth counts brackets of all kinds alike. A bar outside brackets and quotes ends the search; the
first separating blank waits for the end. -/
def cutFrom (first i depth : Nat) (quote : Option Char) (blank : Option Nat) :
    Text → Except SyntaxError (Option Cut)
  | [] =>
    if quote.isSome then .error (Fault.unterminatedLiteral.atOffset (first + i - 1))
    else if depth ≠ 0 then .error (Fault.unclosedBracket.atOffset first)
    else .ok (blank.map .sequence)
  | c :: rest =>
    match quote with
    | some mark =>
      if c = '\\' then
        match rest with
        | [] => .error (Fault.unterminatedLiteral.atOffset (first + i))
        | _ :: rest => cutFrom first (i + 2) depth quote blank rest
      else cutFrom first (i + 1) depth (if c = mark then none else quote) blank rest
    | none =>
      if isQuote c then cutFrom first (i + 1) depth (some c) blank rest
      else if (closingOf? c).isSome then cutFrom first (i + 1) (depth + 1) none blank rest
      else if isClosing c then
        match depth with
        | 0 => .error ((Fault.unmatchedClosing c).atOffset (first + i))
        | depth + 1 => cutFrom first (i + 1) depth none blank rest
      else if depth = 0 then
        if c = '|' then
          if i = 0 || rest.all isBlank then .error (Fault.missingAlternative.atOffset (first + i))
          else .ok (some (.choice i))
        else if isBlank c && blank.isNone && separates rest then
          cutFrom first (i + 1) depth none (some i) rest
        else cutFrom first (i + 1) depth none blank rest
      else cutFrom first (i + 1) depth none blank rest

def Stretch.cut? (s : Stretch) : Except SyntaxError (Option Cut) :=
  cutFrom s.start 0 0 none none s.chars

private theorem cutFrom_offset_lt {first : Nat} {cut : Cut} (chars : Text) (i depth : Nat)
    (quote : Option Char) (blank : Option Nat) (hb : ∀ b, blank = some b → b < i)
    (h : cutFrom first i depth quote blank chars = .ok (some cut)) :
    cut.offset < i + chars.length := by
  fun_induction cutFrom first i depth quote blank chars <;>
    grind [Cut.offset, Option.map_eq_some_iff]

theorem Stretch.cut?_offset_lt {s : Stretch} {cut : Cut} (h : s.cut? = .ok (some cut)) :
    cut.offset < s.chars.length := by
  have := cutFrom_offset_lt s.chars 0 0 none none (by simp) h
  omega

theorem Text.length_trimRight_le (p : Char → Bool) (text : Text) :
    (trimRight p text).length ≤ text.length := by
  fun_induction trimRight p text <;> grind

theorem Stretch.length_trim_le (s : Stretch) : s.trim.chars.length ≤ s.chars.length :=
  Nat.le_trans (Text.length_trimRight_le _ _) (List.dropWhile_sublist _).length_le

theorem Stretch.length_before_lt {s : Stretch} {cut : Cut} (h : s.cut? = .ok (some cut)) :
    (s.before cut).trim.chars.length < s.chars.length := by
  have h₁ := Stretch.cut?_offset_lt h
  have h₂ := Stretch.length_trim_le (s.before cut)
  simp only [Stretch.before, List.length_take] at *
  omega

theorem Stretch.length_after_lt {s : Stretch} {cut : Cut} (h : s.cut? = .ok (some cut)) :
    (s.after cut).trim.chars.length < s.chars.length := by
  have h₁ := Stretch.cut?_offset_lt h
  have h₂ := Stretch.length_trim_le (s.after cut)
  simp only [Stretch.after, List.length_drop] at *
  omega

theorem Stretch.length_inner_lt {s : Stretch} (h : s.chars ≠ []) :
    s.inner.trim.chars.length < s.chars.length := by
  have h₁ := Stretch.length_trim_le s.inner
  have h₂ := List.length_pos_iff.2 h
  simp only [Stretch.inner, List.length_dropLast, List.length_tail] at *
  omega

namespace Rule

private def originIn (text : Text) (start stop : Nat) : Origin :=
  { start := start, stop := stop, isRoot := false, home := none, text := text }

/-- Joins the two sides of a cut. The node reaches from its first operand to the end of the
farthest. -/
def join (text : Text) (cut : Cut) (left right : Rule) : Rule :=
  let rules := match cut, right with
    | .choice _, choice rules _ | .sequence _, sequence rules _ => left :: rules
    | _, _ => [left, right]
  let origin := originIn text left.start ((rules.map stop).foldl max 0)
  match cut with
  | .choice _ => choice rules origin
  | .sequence _ => sequence rules origin

def reserved? (word : Text) : Option Leaf :=
  if word = "TOKEN".toList then some .anyToken
  else if word = "IDENTIFIER".toList then some .anyIdentifier
  else if word = "NEW_LINE".toList then some .newLine
  else none

/-- A literal, a reserved word or a reference. Only the first and last character of a literal are
looked at. -/
def compileLeaf (text : Text) (s : Stretch) (first last : Char) : Except SyntaxError Rule :=
  let origin := originIn text s.start s.stop
  if isQuote first then
    if s.chars.length < 2 || last ≠ first then
      .error ((Fault.malformedLiteral s.chars).atOffset s.start)
    else .ok (leaf .literal origin)
  else match reserved? s.chars with
    | some form => .ok (leaf form origin)
    | none =>
      if isIdentifier s.chars then .ok (leaf .reference origin)
      else .error ((Fault.notIdentifier s.chars).atOffset s.start)

/-- The node for a bracketed expression. A group reaches over its brackets, except around a leaf,
which keeps its own range. -/
def bracket (text : Text) (s : Stretch) (opening : Char) (body : Rule) : Rule :=
  let origin := originIn text s.start s.stop
  if opening = '(' then
    match body with
    | leaf .. => body
    | _ => body.withOrigin origin
  else if opening = '[' then optional body origin
  else repetition body origin

def compileStretch (text : Text) (s : Stretch) : Except SyntaxError Rule :=
  match _h : s.cut? with
  | .error error => .error error
  | .ok (some cut) => do
    let left ← compileStretch text (s.before cut).trim
    let right ← compileStretch text (s.after cut).trim
    return join text cut left right
  | .ok none =>
    if _h : s.chars = [] then .error (Fault.emptyExpression.atOffset s.start)
    else
      let first := s.chars.head _h
      let last := s.chars.getLast _h
      match closingOf? first with
      | none => compileLeaf text s first last
      | some closing =>
        if last ≠ closing then
          .error ((Fault.wrongClosing s.chars first closing).atOffset s.start)
        else if s.inner.trim.chars = [] then .error (Fault.emptyBrackets.atOffset s.start)
        else do
          let body ← compileStretch text s.inner.trim
          return bracket text s first body
termination_by s.chars.length
decreasing_by
  · exact Stretch.length_before_lt _h
  · exact Stretch.length_after_lt _h
  · exact Stretch.length_inner_lt _h

def compile (text : Text) : Except SyntaxError Rule :=
  let s := (Stretch.mk 0 text).trim
  if s.chars = [] then .error (Fault.emptyExpression.atOffset 0) else compileStretch text s

end Rule
end OrderedBnf
