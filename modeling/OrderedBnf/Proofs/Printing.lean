import OrderedBnf.Proofs.Signs
import OrderedBnf.Proofs.Spacing

/-! Expressions printed with one space between any two words, and with parentheses around the
operands that bind too loosely for their place. -/
namespace OrderedBnf

def Operator.printed : Operator → Text
  | sequence => [' ']
  | choice => [' ', '|', ' ']

namespace Expression

/-- Whether an operand binds no more tightly than its operator. -/
def isLoose : Operator → Expression → Bool
  | .sequence, several .. => true
  | .choice, several .choice _ => true
  | _, _ => false

def inBrackets (opening closing : Char) (text : Text) : Text :=
  opening :: ([' '] ++ text ++ [' '] ++ [closing])

mutual
def printed : Expression → Text
  | leaf _ word => word
  | several operator operands => Text.join operator.printed (printedOperands operator operands)
  | optional body => inBrackets '[' ']' (printed body)
  | repetition body => inBrackets '{' '}' (printed body)

def printedOperands (operator : Operator) : List Expression → List Text
  | [] => []
  | e :: rest => (if isLoose operator e then inBrackets '(' ')' (printed e) else printed e) ::
      printedOperands operator rest
end

mutual
/-- The number of brackets around the most deeply nested word that is printed. -/
def nesting : Expression → Nat
  | leaf .. => 0
  | several operator operands => nestingOfOperands operator operands
  | optional body | repetition body => nesting body + 1

def nestingOfOperands (operator : Operator) : List Expression → Nat
  | [] => 0
  | e :: rest => max (if isLoose operator e then nesting e + 1 else nesting e)
      (nestingOfOperands operator rest)
end

/-- An expression with words of a kind, in which an operator has operands to stand between. -/
inductive Proper (terminal : Leaf → Text → Prop) : Expression → Prop
  | leaf {form word} : terminal form word → Proper terminal (.leaf form word)
  | several {operator es} : 2 ≤ es.length → (∀ e ∈ es, Proper terminal e) →
      Proper terminal (.several operator es)
  | optional {body} : Proper terminal body → Proper terminal (.optional body)
  | repetition {body} : Proper terminal body → Proper terminal (.repetition body)

theorem gatherAll_eq {α : Type} (g : Gathering α) (es : List Expression) :
    gatherAll g es = es.flatMap (gather g) := by
  induction es with
  | nil => rfl
  | cons e es ih => rw [gatherAll, ih, List.flatMap_cons]

def level : Expression → Level
  | several operator _ => operator.level
  | _ => .operand

end Expression

def Spacing.single : Spacing := ⟨(· = [' ']), (· = [' ']), (· = [' ']), (· = [' '])⟩

namespace Expression
variable {terminal : Leaf → Text → Prop} {operator : Operator} {e : Expression}
  {es : List Expression} {depth : Nat} {text : Text}

/-- An expression of any level is one of the loosest. -/
theorem loosest {spacing : Spacing} (h : Spread terminal spacing depth e.level [e] text) :
    Spread terminal spacing depth .choice [e] text := by
  cases e with
  | several operator es =>
    cases operator with
    | sequence => exact h.as_choice
    | choice => exact h
  | _ => exact h.as_sequence.as_choice

theorem spread_inBrackets {opening closing : Char} {e' : Expression}
    (henc : Encloses opening closing e e')
    (h : Spread terminal .single depth e.level [e] text) :
    Spread terminal .single (depth + 1) .operand [e'] (inBrackets opening closing text) :=
  .enclosed henc rfl (loosest h) rfl

theorem spread_operand (operator : Operator)
    (h : Spread terminal .single e.nesting e.level [e] e.printed) :
    Spread terminal .single (if isLoose operator e then e.nesting + 1 else e.nesting)
      operator.tighter [e]
      (if isLoose operator e then inBrackets '(' ')' e.printed else e.printed) := by
  by_cases hloose : isLoose operator e
  · rw [if_pos hloose, if_pos hloose]
    have hgroup := spread_inBrackets .group h
    cases operator with
    | sequence => exact hgroup
    | choice => exact hgroup.as_sequence
  · rw [if_neg hloose, if_neg hloose]
    cases operator with
    | sequence =>
      cases e with
      | several => exact absurd rfl hloose
      | _ => exact h
    | choice =>
      cases e with
      | several operator' es =>
        cases operator' with
        | sequence => exact h
        | choice => exact absurd rfl hloose
      | _ => exact h.as_sequence

theorem spread_operands (operator : Operator) (hne : es ≠ [])
    (h : ∀ e ∈ es, Spread terminal .single e.nesting e.level [e] e.printed) :
    Spread terminal .single (nestingOfOperands operator es) operator.level es
      (Text.join operator.printed (printedOperands operator es)) := by
  have hle : Spacing.single.Le .single := ⟨id, id, id, id⟩
  induction es with
  | nil => exact absurd rfl hne
  | cons e es ih =>
    have he := (spread_operand operator (h e List.mem_cons_self)).imp (fun _ _ h => h) hle
      (Nat.le_max_left _ (nestingOfOperands operator es))
    cases es with
    | nil => exact .alone he
    | cons e' es =>
      have hrest := (ih (List.cons_ne_nil _ _) fun e hm => h e (List.mem_cons_of_mem _ hm)).imp
        (fun _ _ h => h) hle (Nat.le_max_right
          (if isLoose operator e then nesting e + 1 else nesting e) _)
      refine .cons he ?_ hrest
      cases operator with
      | sequence => exact .apart rfl
      | choice => exact @Spacing.Between.bar .single [' '] [' '] rfl rfl

/-- What is printed is an expression written out, with as many brackets as its nesting says. -/
theorem Proper.spread (h : Proper terminal e) :
    Spread terminal .single e.nesting e.level [e] e.printed := by
  induction h with
  | leaf h => exact .leaf h
  | several hlength _ ih =>
    refine .several hlength (spread_operands _ ?_ ih)
    rintro rfl
    cases hlength
  | optional _ ih => exact spread_inBrackets .optional ih
  | repetition _ ih => exact spread_inBrackets .repetition ih

end Expression
end OrderedBnf
