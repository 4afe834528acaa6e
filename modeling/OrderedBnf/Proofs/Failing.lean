import OrderedBnf.Proofs.Termination

/-! What a node fails with: a reason of the matcher, what an extension states, or what a node that
it tries fails with. -/
namespace OrderedBnf

def Reason.OfTerminal : Reason → Prop
  | .endOfText | .singleQuote | .closingQuote | .identifier | .notKeyword _ | .newLine | .token _
  | .wordContinues _ | .keywordContinues _ => True
  | _ => False

namespace Reader
open Attempt

variable {r : Reader} {rule : Rule} {start : Nat} {good : Failure → Prop}

section Terminals
variable (plain : ∀ (reason : Reason) (position : Nat), reason.OfTerminal →
  good (.because reason position []))

theorem accept_failsWith (kind : Kind) (stop : Nat) :
    (accept kind rule start stop).FailsWith good :=
  (failsWith_reach stop).bind fun _ => failsWith_pure _

include plain

theorem failsWith_terminal {α : Type} {reason : Reason} {position : Nat} (h : reason.OfTerminal) :
    (fail reason position [] : Attempt α).FailsWith good :=
  failsWith_fail (plain reason position h)

theorem significant_failsWith (start : Nat) : (r.significant start).FailsWith good := by
  have hskip : (r.skip start).FailsWith good := by
    unfold skip
    split
    · exact failsWith_pure _
    · exact failsWith_abort _
  refine hskip.bind fun i => ?_
  split
  · exact failsWith_terminal plain trivial
  · exact failsWith_pure _

theorem matchToken_failsWith : (r.matchToken rule start).FailsWith good := by
  refine (significant_failsWith plain start).bind fun i => ?_
  split
  · exact failsWith_abort _
  · split
    · exact accept_failsWith _ _
    · split
      · exact failsWith_abort _
      · exact failsWith_terminal plain trivial
  · exact failsWith_terminal plain trivial

theorem matchIdentifier_failsWith : (r.matchIdentifier rule start).FailsWith good := by
  refine (significant_failsWith plain start).bind fun i => ?_
  split
  · exact failsWith_abort _
  · split
    · exact failsWith_terminal plain trivial
    · dsimp only
      split
      · exact failsWith_abort _
      · split
        · exact failsWith_terminal plain trivial
        · exact accept_failsWith _ _

theorem matchNewLine_failsWith : (r.matchNewLine rule start).FailsWith good := by
  unfold matchNewLine
  split
  · exact failsWith_abort _
  · split
    · exact accept_failsWith _ _
    · exact failsWith_terminal plain trivial

theorem matchLiteral_failsWith : (r.matchLiteral rule start).FailsWith good := by
  unfold matchLiteral matchWord
  dsimp only
  split
  · split
    · exact failsWith_abort _
    · exact failsWith_pure _
  · refine (significant_failsWith plain start).bind fun i => ?_
    split
    · exact failsWith_terminal plain trivial
    · split
      · exact failsWith_terminal plain trivial
      · split
        · exact failsWith_abort _
        · split
          · exact failsWith_terminal plain trivial
          · exact accept_failsWith _ _

theorem matchExtension_failsWith
    (expected : ∀ position : Nat, good (.because (.extension rule.target) position []))
    (stated : ∀ (position : Nat) (failure : Failure),
      r.lexis.extend rule r.text position r.stop = .error (.failure failure) → good failure) :
    (r.matchExtension rule start).FailsWith good := by
  refine (significant_failsWith plain start).bind fun i => ?_
  split
  · rename_i halt he
    intro farthest failure hf
    cases hf
    exact stated _ _ he
  · exact failsWith_fail (expected _)
  · split
    · exact accept_failsWith _ _
    · exact failsWith_abort _

end Terminals

/-- What makes a property of failures hold of whatever a node fails with, as long as it holds for
the nodes that it tries. -/
structure Hereditary (r : Reader) (rule : Rule) (start : Nat) (good : Failure → Prop) : Prop where
  terminal (reason : Reason) (position : Nat) : reason.OfTerminal →
    good (.because reason position [])
  undefined (o : Origin) : rule = .leaf .reference o → r.grammar.body? rule.target = none →
    good (.because (.undefinedRule rule.target) start [])
  expected (o : Origin) (position : Nat) : rule = .leaf .reference o →
    good (.because (.extension rule.target) position [])
  stated (position : Nat) (failure : Failure) :
    r.lexis.extend rule r.text position r.stop = .error (.failure failure) → good failure
  choice (causes : List Failure) : (∀ cause ∈ causes, good cause) →
    good (.because (.noAlternative rule.describe) start causes)

/-- What passes from causes to their failure holds of the failures of a rule where it holds of those
of the rules that it tries. -/
theorem Yields.failsWith {answer : Answers} (hgood : r.Hereditary rule start good)
    (h : ∀ rule' start' failure, Tries answer r rule start rule' start' →
      answer rule' start' (.error (.failure failure)) → good failure)
    {failure : Failure} (ho : Yields answer r rule start (.error (.failure failure))) :
    good failure := by
  generalize ho' : (Except.error (.failure failure) : Except Halt ParseTree) = out at ho
  have hplain := hgood.terminal
  cases ho with
  | literal => exact matchLiteral_failsWith hplain 0 _ ho'.symm
  | anyToken => exact matchToken_failsWith hplain 0 _ ho'.symm
  | anyIdentifier => exact matchIdentifier_failsWith hplain 0 _ ho'.symm
  | newLine => exact matchNewLine_failsWith hplain 0 _ ho'.symm
  | undefined hb =>
    cases ho'
    exact hgood.undefined _ rfl hb
  | @extension o =>
    exact matchExtension_failsWith hplain (fun position => hgood.expected o position rfl)
      hgood.stated 0 _ ho'.symm
  | reference hb ha => exact h _ _ _ (.reference hb) (ho' ▸ ha)
  | sequenceHalt hp =>
    cases ho'
    obtain ⟨part, start', hp, ha⟩ := hp.halted
    exact h _ _ _ (.sequence hp) ha
  | noChoice hf =>
    cases ho'
    refine hgood.choice _ fun cause hm => ?_
    obtain ⟨rule, hp, ha⟩ := hf.failures cause hm
    exact h _ _ _ (.choice hp) ha
  | choiceHalt hp =>
    cases ho'
    obtain ⟨_, _, ⟨⟩, _⟩ := hp.halted
  | repetitionHalt hp =>
    cases ho'
    obtain ⟨_, _, ⟨⟩, _⟩ := hp.halted
  | _ => cases ho'

end Reader
end OrderedBnf
