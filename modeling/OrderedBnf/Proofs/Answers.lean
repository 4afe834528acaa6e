import OrderedBnf.Parse.Descent
import OrderedBnf.Proofs.Attempt

/-! The rules of ordered choice, one node at a time: what a node yields, and which nodes it tries,
when the nodes below it are answered in a given way. -/
namespace OrderedBnf.Reader

/-- What comes of trying a rule node at an offset. -/
abbrev Answers := Rule → Nat → Except Halt ParseTree → Prop

section Rules
variable (answer : Answers)

inductive InTurn : List Rule → Nat → Except Halt (List ParseTree) → Prop
  | done {start} : InTurn [] start (.ok [])
  | halt {part rest start halt} : answer part start (.error halt) →
      InTurn (part :: rest) start (.error halt)
  | next {part rest start tree trees} : answer part start (.ok tree) →
      InTurn rest tree.stop (.ok trees) → InTurn (part :: rest) start (.ok (tree :: trees))
  | nextHalt {part rest start tree halt} : answer part start (.ok tree) →
      InTurn rest tree.stop (.error halt) → InTurn (part :: rest) start (.error halt)

/-- Failures are passed over until something matches; all the failures, if nothing does. -/
inductive FirstOf :
    List Rule → Nat → Except Halt (Except (List Failure) (List (Option ParseTree))) → Prop
  | none {start} : FirstOf [] start (.ok (.error []))
  | here {rule rest start tree} : answer rule start (.ok tree) →
      FirstOf (rule :: rest) start (.ok (.ok (some tree :: rest.map fun _ => Option.none)))
  | abort {rule rest start cause} : answer rule start (.error (.abort cause)) →
      FirstOf (rule :: rest) start (.error (.abort cause))
  | later {rule rest start failure places} : answer rule start (.error (.failure failure)) →
      FirstOf rest start (.ok (.ok places)) →
      FirstOf (rule :: rest) start (.ok (.ok (Option.none :: places)))
  | nowhere {rule rest start failure failures} : answer rule start (.error (.failure failure)) →
      FirstOf rest start (.ok (.error failures)) →
      FirstOf (rule :: rest) start (.ok (.error (failure :: failures)))
  | laterHalt {rule rest start failure halt} : answer rule start (.error (.failure failure)) →
      FirstOf rest start (.error halt) → FirstOf (rule :: rest) start (.error halt)

/-- Rounds are kept while they get on; a failure or a round that does not get on is the end. -/
inductive Again : Nat → Rule → Except Halt (List ParseTree) → Prop
  | failed {start body failure} : answer body start (.error (.failure failure)) →
      Again start body (.ok [])
  | abort {start body cause} : answer body start (.error (.abort cause)) →
      Again start body (.error (.abort cause))
  | stuck {start body tree} : answer body start (.ok tree) → tree.stop ≤ start →
      Again start body (.ok [])
  | round {start body tree trees} : answer body start (.ok tree) → start < tree.stop →
      Again tree.stop body (.ok trees) → Again start body (.ok (tree :: trees))
  | roundHalt {start body tree halt} : answer body start (.ok tree) → start < tree.stop →
      Again tree.stop body (.error halt) → Again start body (.error halt)

inductive Yields (r : Reader) : Answers
  | literal {o start} :
      Yields r (.leaf .literal o) start (r.matchLiteral (.leaf .literal o) start).result
  | anyToken {o start} :
      Yields r (.leaf .anyToken o) start (r.matchToken (.leaf .anyToken o) start).result
  | anyIdentifier {o start} :
      Yields r (.leaf .anyIdentifier o) start
        (r.matchIdentifier (.leaf .anyIdentifier o) start).result
  | newLine {o start} :
      Yields r (.leaf .newLine o) start (r.matchNewLine (.leaf .newLine o) start).result
  | undefined {o start} : r.grammar.body? (Rule.leaf .reference o).target = none →
      Yields r (.leaf .reference o) start
        (.error (.failure (.because (.undefinedRule (Rule.leaf .reference o).target) start [])))
  | extension {o start} : r.grammar.body? (Rule.leaf .reference o).target = some none →
      Yields r (.leaf .reference o) start (r.matchExtension (.leaf .reference o) start).result
  | reference {o start body out} :
      r.grammar.body? (Rule.leaf .reference o).target = some (some body) →
      answer body start out → Yields r (.leaf .reference o) start out
  | sequence {parts o start trees} : InTurn answer parts start (.ok trees) →
      Yields r (.sequence parts o) start
        (.ok (.spanning .sequence (.sequence parts o) start (trees.map some)))
  | sequenceHalt {parts o start halt} : InTurn answer parts start (.error halt) →
      Yields r (.sequence parts o) start (.error halt)
  | choice {rules o start places} : FirstOf answer rules start (.ok (.ok places)) →
      Yields r (.choice rules o) start (.ok (.spanning .choice (.choice rules o) start places))
  | noChoice {rules o start failures} : FirstOf answer rules start (.ok (.error failures)) →
      Yields r (.choice rules o) start
        (.error (.failure
          (.because (.noAlternative (Rule.choice rules o).describe) start failures)))
  | choiceHalt {rules o start halt} : FirstOf answer rules start (.error halt) →
      Yields r (.choice rules o) start (.error halt)
  | present {body o start tree} : answer body start (.ok tree) →
      Yields r (.optional body o) start
        (.ok (.spanning .optional (.optional body o) start [some tree]))
  | absent {body o start failure} : answer body start (.error (.failure failure)) →
      Yields r (.optional body o) start (.ok (.spanning .optional (.optional body o) start []))
  | optionalAbort {body o start cause} : answer body start (.error (.abort cause)) →
      Yields r (.optional body o) start (.error (.abort cause))
  | repetition {body o start trees} : Again answer start body (.ok trees) →
      Yields r (.repetition body o) start
        (.ok (.spanning .repetition (.repetition body o) start (trees.map some)))
  | repetitionHalt {body o start halt} : Again answer start body (.error halt) →
      Yields r (.repetition body o) start (.error halt)

inductive Part : List Rule → Nat → Rule → Nat → Prop
  | first {part rest start} : Part (part :: rest) start part start
  | later {part rest start tree part' start'} : answer part start (.ok tree) →
      Part rest tree.stop part' start' → Part (part :: rest) start part' start'

inductive Alternative : List Rule → Nat → Rule → Prop
  | first {rule rest start} : Alternative (rule :: rest) start rule
  | later {rule rest start failure rule'} : answer rule start (.error (.failure failure)) →
      Alternative rest start rule' → Alternative (rule :: rest) start rule'

inductive Round : Nat → Rule → Nat → Prop
  | first {start body} : Round start body start
  | later {start body tree start'} : answer body start (.ok tree) → start < tree.stop →
      Round tree.stop body start' → Round start body start'

/-- The nodes that a node tries, and where. -/
inductive Tries (r : Reader) : Rule → Nat → Rule → Nat → Prop
  | reference {o start body} :
      r.grammar.body? (Rule.leaf .reference o).target = some (some body) →
      Tries r (.leaf .reference o) start body start
  | sequence {parts o start part start'} : Part answer parts start part start' →
      Tries r (.sequence parts o) start part start'
  | choice {rules o start rule} : Alternative answer rules start rule →
      Tries r (.choice rules o) start rule start
  | optional {body o start} : Tries r (.optional body o) start body start
  | repetition {body o start start'} : Round answer start body start' →
      Tries r (.repetition body o) start body start'

end Rules

def Closes (r : Reader) (answer answer' : Answers) : Prop :=
  ∀ ⦃rule start out⦄, Yields answer r rule start out → answer' rule start out

section Transfer
variable {answer answer' : Answers} {r : Reader} {rule body : Rule} {rules parts : List Rule}
  {start : Nat}

theorem InTurn.imp {out : Except Halt (List ParseTree)} (ho : InTurn answer parts start out)
    (h : ∀ part start' out, Part answer parts start part start' → answer part start' out →
      answer' part start' out) : InTurn answer' parts start out := by
  induction ho with
  | done => exact .done
  | halt ha => exact .halt (h _ _ _ .first ha)
  | next ha _ ih => exact .next (h _ _ _ .first ha) (ih fun _ _ _ hp => h _ _ _ (.later ha hp))
  | nextHalt ha _ ih =>
    exact .nextHalt (h _ _ _ .first ha) (ih fun _ _ _ hp => h _ _ _ (.later ha hp))

theorem FirstOf.imp {out : Except Halt (Except (List Failure) (List (Option ParseTree)))}
    (ho : FirstOf answer rules start out)
    (h : ∀ rule out, Alternative answer rules start rule → answer rule start out →
      answer' rule start out) : FirstOf answer' rules start out := by
  induction ho with
  | none => exact .none
  | here ha => exact .here (h _ _ .first ha)
  | abort ha => exact .abort (h _ _ .first ha)
  | later ha _ ih => exact .later (h _ _ .first ha) (ih fun _ _ hp => h _ _ (.later ha hp))
  | nowhere ha _ ih => exact .nowhere (h _ _ .first ha) (ih fun _ _ hp => h _ _ (.later ha hp))
  | laterHalt ha _ ih => exact .laterHalt (h _ _ .first ha) (ih fun _ _ hp => h _ _ (.later ha hp))

theorem Again.imp {out : Except Halt (List ParseTree)} (ho : Again answer start body out)
    (h : ∀ start' out, Round answer start body start' → answer body start' out →
      answer' body start' out) : Again answer' start body out := by
  induction ho with
  | failed ha => exact .failed (h _ _ .first ha)
  | abort ha => exact .abort (h _ _ .first ha)
  | stuck ha hs => exact .stuck (h _ _ .first ha) hs
  | round ha hs _ ih =>
    exact .round (h _ _ .first ha) hs (ih fun _ _ hp => h _ _ (.later ha hs hp))
  | roundHalt ha hs _ ih =>
    exact .roundHalt (h _ _ .first ha) hs (ih fun _ _ hp => h _ _ (.later ha hs hp))

/-- What a node yields depends on the answers of the nodes it tries and of no others. -/
theorem Yields.imp {out : Except Halt ParseTree} (ho : Yields answer r rule start out)
    (h : ∀ rule' start' out, Tries answer r rule start rule' start' → answer rule' start' out →
      answer' rule' start' out) : Yields answer' r rule start out := by
  cases ho with
  | literal => exact .literal
  | anyToken => exact .anyToken
  | anyIdentifier => exact .anyIdentifier
  | newLine => exact .newLine
  | undefined hb => exact .undefined hb
  | extension hb => exact .extension hb
  | reference hb ha => exact .reference hb (h _ _ _ (.reference hb) ha)
  | sequence ht => exact .sequence (ht.imp fun _ _ _ hp => h _ _ _ (.sequence hp))
  | sequenceHalt ht => exact .sequenceHalt (ht.imp fun _ _ _ hp => h _ _ _ (.sequence hp))
  | choice hf => exact .choice (hf.imp fun _ _ hp => h _ _ _ (.choice hp))
  | noChoice hf => exact .noChoice (hf.imp fun _ _ hp => h _ _ _ (.choice hp))
  | choiceHalt hf => exact .choiceHalt (hf.imp fun _ _ hp => h _ _ _ (.choice hp))
  | present ha => exact .present (h _ _ _ .optional ha)
  | absent ha => exact .absent (h _ _ _ .optional ha)
  | optionalAbort ha => exact .optionalAbort (h _ _ _ .optional ha)
  | repetition hg => exact .repetition (hg.imp fun _ _ hp => h _ _ _ (.repetition hp))
  | repetitionHalt hg => exact .repetitionHalt (hg.imp fun _ _ hp => h _ _ _ (.repetition hp))

private theorem Part.imp {part : Rule} {start' : Nat} (hp : Part answer parts start part start')
    (h : ∀ part start' out, Part answer parts start part start' →
      Part answer' parts start part start' → answer part start' out → answer' part start' out) :
    Part answer' parts start part start' := by
  induction hp with
  | first => exact .first
  | later ha _ ih =>
    have hb := h _ _ _ .first .first ha
    exact .later hb (ih fun _ _ _ hp hq => h _ _ _ (.later ha hp) (.later hb hq))

private theorem Alternative.imp (hp : Alternative answer rules start rule)
    (h : ∀ rule out, Alternative answer rules start rule → Alternative answer' rules start rule →
      answer rule start out → answer' rule start out) : Alternative answer' rules start rule := by
  induction hp with
  | first => exact .first
  | later ha _ ih =>
    have hb := h _ _ .first .first ha
    exact .later hb (ih fun _ _ hp hq => h _ _ (.later ha hp) (.later hb hq))

private theorem Round.imp {start' : Nat} (hp : Round answer start body start')
    (h : ∀ start' out, Round answer start body start' → Round answer' start body start' →
      answer body start' out → answer' body start' out) : Round answer' start body start' := by
  induction hp with
  | first => exact .first
  | later ha hs _ ih =>
    have hb := h _ _ .first .first ha
    exact .later hb hs (ih fun _ _ hp hq => h _ _ (.later ha hs hp) (.later hb hs hq))

/-- Where the nodes tried under other answers are answered as before, the same nodes are tried. -/
theorem Tries.imp {rule' : Rule} {start' : Nat} (ht : Tries answer r rule start rule' start')
    (h : ∀ rule' start' out, Tries answer r rule start rule' start' →
      Tries answer' r rule start rule' start' → answer rule' start' out →
      answer' rule' start' out) : Tries answer' r rule start rule' start' := by
  cases ht with
  | reference hb => exact .reference hb
  | sequence hp =>
    exact .sequence (hp.imp fun _ _ _ hp hq => h _ _ _ (.sequence hp) (.sequence hq))
  | choice hp => exact .choice (hp.imp fun _ _ hp hq => h _ _ _ (.choice hp) (.choice hq))
  | optional => exact .optional
  | repetition hp =>
    exact .repetition (hp.imp fun _ _ hp hq => h _ _ _ (.repetition hp) (.repetition hq))

end Transfer

def Agree (answer answer' : Answers) : Prop :=
  ∀ ⦃rule start out out'⦄, answer rule start out → answer' rule start out' → out = out'

section Agreement
variable {answer answer' : Answers} {r : Reader} {rule body : Rule} {rules parts : List Rule}
  {start : Nat}

/-- Readers that agree on every part agree on the parts in turn. -/
private theorem InTurn.agree (h : Agree answer answer') {out out' : Except Halt (List ParseTree)}
    (ho : InTurn answer parts start out) (ho' : InTurn answer' parts start out') : out = out' := by
  induction ho generalizing out' <;> cases ho' <;> grind [Agree]

/-- Readers that agree on every alternative agree on the first one that matches. -/
private theorem FirstOf.agree (h : Agree answer answer')
    {out out' : Except Halt (Except (List Failure) (List (Option ParseTree)))}
    (ho : FirstOf answer rules start out) (ho' : FirstOf answer' rules start out') :
    out = out' := by
  induction ho generalizing out' <;> cases ho' <;> grind [Agree]

/-- Readers that agree on every round agree on the repetition. -/
theorem Again.agree (h : Agree answer answer') {out out' : Except Halt (List ParseTree)}
    (ho : Again answer start body out) (ho' : Again answer' start body out') : out = out' := by
  induction ho generalizing out' <;> cases ho' <;> grind [Agree]

/-- What a rule yields depends on the answers to its parts alone. -/
theorem Yields.agree (h : Agree answer answer') {out out' : Except Halt ParseTree}
    (ho : Yields answer r rule start out) (ho' : Yields answer' r rule start out') :
    out = out' := by
  cases ho <;> cases ho' <;> grind [Agree, InTurn.agree, FirstOf.agree, Again.agree]

/-- Every part that is asked for is answered. -/
private theorem InTurn.answered (h : Agree answer answer') {out : Except Halt (List ParseTree)}
    (ho : InTurn answer parts start out) {part : Rule} {start' : Nat}
    (hp : Part answer' parts start part start') : ∃ out, answer part start' out := by
  induction ho with
  | done => cases hp
  | _ => cases hp <;> grind [Agree]

/-- Every alternative that is asked for is answered. -/
private theorem FirstOf.answered (h : Agree answer answer')
    {out : Except Halt (Except (List Failure) (List (Option ParseTree)))}
    (ho : FirstOf answer rules start out) (hp : Alternative answer' rules start rule) :
    ∃ out, answer rule start out := by
  induction ho with
  | none => cases hp
  | _ => cases hp <;> grind [Agree]

/-- Every round that is asked for is answered. -/
private theorem Again.answered (h : Agree answer answer') {out : Except Halt (List ParseTree)}
    (ho : Again answer start body out) {start' : Nat} (hp : Round answer' start body start') :
    ∃ out, answer body start' out := by
  induction ho <;> cases hp <;> grind [Agree]

/-- A node that has yielded something got an answer from every node it tried. -/
theorem Yields.answered (h : Agree answer answer') {out : Except Halt ParseTree}
    (ho : Yields answer r rule start out) {rule' : Rule} {start' : Nat}
    (ht : Tries answer' r rule start rule' start') : ∃ out, answer rule' start' out := by
  cases ht with
  | reference hb => cases ho <;> grind
  | sequence hp =>
    cases ho with
    | sequence ht => exact ht.answered h hp
    | sequenceHalt ht => exact ht.answered h hp
  | choice hp =>
    cases ho with
    | choice hf => exact hf.answered h hp
    | noChoice hf => exact hf.answered h hp
    | choiceHalt hf => exact hf.answered h hp
  | optional => cases ho <;> exact ⟨_, ‹_›⟩
  | repetition hp =>
    cases ho with
    | repetition hg => exact hg.answered h hp
    | repetitionHalt hg => exact hg.answered h hp

end Agreement
end OrderedBnf.Reader
