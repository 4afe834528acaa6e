import OrderedBnf.Proofs.Quoting

/-! Expressions written with a spacing of their own, in brackets of a known depth. -/
namespace OrderedBnf

/-- What may stand between the words of an expression: between the operands of a sequence, on
either side of a bar, and within a pair of brackets next to them. -/
structure Spacing where
  apart : Text → Prop
  beforeBar : Text → Prop
  afterBar : Text → Prop
  within : Text → Prop

inductive Spacing.Between (spacing : Spacing) : Operator → Text → Prop
  | apart {gap} : spacing.apart gap → Between spacing .sequence gap
  | bar {before after} : spacing.beforeBar before → spacing.afterBar after →
      Between spacing .choice (before ++ '|' :: after)

/-- Operands written one after another as in `Laid`, with a given spacing and no more than `depth`
brackets around any word. -/
inductive Spread (terminal : Leaf → Text → Prop) (spacing : Spacing) :
    Nat → Level → List Expression → Text → Prop
  | leaf {depth form word} : terminal form word →
      Spread terminal spacing depth .operand [.leaf form word] word
  | enclosed {depth opening closing e e' before text after} : Encloses opening closing e e' →
      spacing.within before → Spread terminal spacing depth .choice [e] text →
      spacing.within after →
      Spread terminal spacing (depth + 1) .operand [e']
        (opening :: (before ++ text ++ after ++ [closing]))
  | alone {depth} {operator : Operator} {e text} :
      Spread terminal spacing depth operator.tighter [e] text →
      Spread terminal spacing depth operator.level [e] text
  | several {depth} {operator : Operator} {es text} : 2 ≤ es.length →
      Spread terminal spacing depth operator.level es text →
      Spread terminal spacing depth operator.level [.several operator es] text
  | cons {depth} {operator : Operator} {e es text between rest} :
      Spread terminal spacing depth operator.tighter [e] text →
      spacing.Between operator between → Spread terminal spacing depth operator.level es rest →
      Spread terminal spacing depth operator.level (e :: es) (text ++ between ++ rest)

structure Spacing.Le (spacing spacing' : Spacing) : Prop where
  apart {gap} : spacing.apart gap → spacing'.apart gap
  beforeBar {gap} : spacing.beforeBar gap → spacing'.beforeBar gap
  afterBar {gap} : spacing.afterBar gap → spacing'.afterBar gap
  within {gap} : spacing.within gap → spacing'.within gap

theorem Spacing.Between.imp {spacing spacing' : Spacing} {operator : Operator} {gap : Text}
    (h : spacing.Between operator gap) (hle : spacing.Le spacing') :
    spacing'.Between operator gap := by
  cases h with
  | apart h => exact .apart (hle.apart h)
  | bar hb ha => exact .bar (hle.beforeBar hb) (hle.afterBar ha)

namespace Spread
variable {terminal terminal' : Leaf → Text → Prop} {spacing spacing' : Spacing}
  {depth depth' : Nat} {level : Level} {es : List Expression} {text : Text}

/-- More terminals, more spacing and more depth may be allowed. -/
theorem imp (h : Spread terminal spacing depth level es text)
    (ht : ∀ form word, terminal form word → terminal' form word) (hs : spacing.Le spacing')
    (hd : depth ≤ depth') : Spread terminal' spacing' depth' level es text := by
  induction h generalizing depth' with
  | leaf h => exact .leaf (ht _ _ h)
  | enclosed henc hb _ ha ih =>
    obtain ⟨depth', rfl⟩ := Nat.exists_eq_succ_of_ne_zero (Nat.ne_of_gt (Nat.lt_of_lt_of_le
      (Nat.succ_pos _) hd))
    exact .enclosed henc (hs.within hb) (ih (Nat.le_of_succ_le_succ hd)) (hs.within ha)
  | alone _ ih => exact .alone (ih hd)
  | several hl _ ih => exact .several hl (ih hd)
  | cons _ hb _ ih ih' => exact .cons (ih hd) (hb.imp hs) (ih' hd)

theorem ne_nil (h : Spread terminal spacing depth level es text) : es ≠ [] := by
  cases h <;> simp_all

/-- Several operands are one expression. -/
theorem joined {operator : Operator} (h : Spread terminal spacing depth operator.level es text) :
    ∃ e, Spread terminal spacing depth operator.level [e] text := by
  rcases es with _ | ⟨e, _ | ⟨e', es⟩⟩
  · exact absurd rfl h.ne_nil
  · exact ⟨e, h⟩
  · exact ⟨_, .several (by simp) h⟩

theorem as_sequence {e : Expression} (h : Spread terminal spacing depth .operand [e] text) :
    Spread terminal spacing depth .sequence [e] text :=
  @Spread.alone _ _ _ .sequence _ _ h

theorem as_choice {e : Expression} (h : Spread terminal spacing depth .sequence [e] text) :
    Spread terminal spacing depth .choice [e] text :=
  @Spread.alone _ _ _ .choice _ _ h

/-- With blanks between its words an expression is laid out for the compiler. -/
theorem laid (h : Spread terminal spacing depth level es text)
    (hs : spacing.Le ⟨fun gap => gap ≠ [] ∧ Blanks gap, Blanks, Blanks, Blanks⟩) :
    Laid terminal level es text := by
  induction h with
  | leaf h => exact .leaf h
  | enclosed henc hb _ ha ih => exact .enclosed henc (hs.within hb) ih (hs.within ha)
  | alone _ ih => exact .alone ih
  | several hl _ ih => exact .several hl ih
  | cons _ hb _ ih ih' =>
    cases hb with
    | apart h => exact .cons ih (.blanks (hs.apart h).1 (hs.apart h).2) ih'
    | bar hb ha => exact .cons ih (.bar (hs.beforeBar hb) (hs.afterBar ha)) ih'

end Spread
end OrderedBnf
