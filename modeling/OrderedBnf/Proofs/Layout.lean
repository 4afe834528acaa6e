import OrderedBnf.Rule.Compile

/-! Expressions apart from any text, and the texts that they can be written as. -/
namespace OrderedBnf

inductive Operator where
  | sequence
  | choice
  deriving DecidableEq, Repr

/-- What a rule says: its kinds and branches, and the words at its leaves. -/
inductive Expression where
  | leaf (form : Leaf) (word : Text)
  | several (operator : Operator) (operands : List Expression)
  | optional (body : Expression)
  | repetition (body : Expression)
  deriving Repr

namespace Expression

mutual
def terminals : Expression → List Text
  | leaf _ word => [word]
  | several _ operands => terminalsOfAll operands
  | optional body | repetition body => terminals body

def terminalsOfAll : List Expression → List Text
  | [] => []
  | e :: rest => terminals e ++ terminalsOfAll rest
end

/-- What an expression is as the last operand of an operator: itself, or its own operands if it is
of the same operator. -/
def lastOperands (operator : Operator) : Expression → List Expression
  | several operator' operands =>
    if operator' = operator then operands else [several operator' operands]
  | e => [e]

def spliceLast (operator : Operator) : List Expression → List Expression
  | [] => []
  | [e] => lastOperands operator e
  | e :: rest => e :: spliceLast operator rest

mutual
/-- Every last operand spliced into what it is an operand of, from the inside outwards. -/
def spliced : Expression → Expression
  | leaf form word => leaf form word
  | several operator operands => several operator (spliceLast operator (splicedAll operands))
  | optional body => optional (spliced body)
  | repetition body => repetition (spliced body)

def splicedAll : List Expression → List Expression
  | [] => []
  | e :: rest => spliced e :: splicedAll rest
end

end Expression

mutual
def Rule.expression : Rule → Expression
  | .leaf form origin => .leaf form (Rule.leaf form origin).writtenAs
  | .sequence rules _ => .several .sequence (Rule.expressions rules)
  | .choice rules _ => .several .choice (Rule.expressions rules)
  | .optional body _ => .optional (Rule.expression body)
  | .repetition body _ => .repetition (Rule.expression body)

def Rule.expressions : List Rule → List Expression
  | [] => []
  | rule :: rest => Rule.expression rule :: Rule.expressions rest
end

/-- What may stand between two quotation marks: no mark but after a backslash, and no backslash
without a character after it. -/
inductive Escaped (mark : Char) : Text → Prop
  | nil : Escaped mark []
  | plain {c rest} : c ≠ mark → c ≠ '\\' → Escaped mark rest → Escaped mark (c :: rest)
  | escape {c rest} : Escaped mark rest → Escaped mark ('\\' :: c :: rest)

inductive Terminal : Leaf → Text → Prop
  | literal {mark body} : isQuote mark → Escaped mark body →
      Terminal .literal (mark :: (body ++ [mark]))
  | reserved {form word} : Rule.reserved? word = some form → Terminal form word
  | reference {word} : isIdentifier word → Rule.reserved? word = none → Terminal .reference word

def Blanks (text : Text) : Prop := ∀ c ∈ text, isBlank c

inductive Level where
  | operand
  | sequence
  | choice
  deriving DecidableEq, Repr

def Operator.level : Operator → Level
  | sequence => .sequence
  | choice => .choice

def Level.operator : Level → Operator
  | operand | sequence => .sequence
  | choice => .choice

def Operator.tighter : Operator → Level
  | sequence => .operand
  | choice => .sequence

inductive Operator.Between : Operator → Text → Prop
  | blanks {text} : text ≠ [] → Blanks text → Between .sequence text
  | bar {before after} : Blanks before → Blanks after → Between .choice (before ++ '|' :: after)

inductive Encloses : Char → Char → Expression → Expression → Prop
  | group {e} : Encloses '(' ')' e e
  | optional {e} : Encloses '[' ']' e (.optional e)
  | repetition {e} : Encloses '{' '}' e (.repetition e)

/-- Operands written one after another, for a choice of words as leaves. Brackets may stand around
any expression, and must stand around one that binds more loosely than its place; but the last
operand needs none to be of the same operator. -/
inductive Laid (terminal : Leaf → Text → Prop) : Level → List Expression → Text → Prop
  | leaf {form word} : terminal form word → Laid terminal .operand [.leaf form word] word
  | enclosed {opening closing e e' before text after} : Encloses opening closing e e' →
      Blanks before → Laid terminal .choice [e] text → Blanks after →
      Laid terminal .operand [e'] (opening :: (before ++ text ++ after ++ [closing]))
  | alone {operator : Operator} {e text} : Laid terminal operator.tighter [e] text →
      Laid terminal operator.level [e] text
  | several {operator : Operator} {es text} : 2 ≤ es.length → Laid terminal operator.level es text →
      Laid terminal operator.level [.several operator es] text
  | cons {operator : Operator} {e es text between rest} : Laid terminal operator.tighter [e] text →
      operator.Between between → Laid terminal operator.level es rest →
      Laid terminal operator.level (e :: es) (text ++ between ++ rest)

end OrderedBnf
