import OrderedBnf.Proofs.Nesting
import OrderedBnf.Proofs.Refusals

/-! Where a parse skips. An error of the skipping ends the whole parse, and how the rest of the text
would be skipped has no part in what a parse comes to. -/
namespace OrderedBnf

namespace Reader
open Attempt Relation

section Aborting
variable {answer : Answers} {r : Reader} {rule body : Rule} {rules parts : List Rule}
  {start : Nat} {cause : Abort} (h : Agree answer answer)
include h

/-- Parts in turn abort where one of them does. -/
private theorem InTurn.aborted {out : Except Halt (List ParseTree)}
    (ho : InTurn answer parts start out) {part : Rule} {start' : Nat}
    (hp : Part answer parts start part start') (ha : answer part start' (.error (.abort cause))) :
    out = .error (.abort cause) := by
  induction ho with
  | done => cases hp
  | _ => cases hp <;> grind [Agree]

private theorem FirstOf.aborted
    {out : Except Halt (Except (List Failure) (List (Option ParseTree)))}
    (ho : FirstOf answer rules start out) (hp : Alternative answer rules start rule)
    (ha : answer rule start (.error (.abort cause))) : out = .error (.abort cause) := by
  induction ho with
  | none => cases hp
  | _ => cases hp <;> grind [Agree]

private theorem Again.aborted {out : Except Halt (List ParseTree)}
    (ho : Again answer start body out) {start' : Nat} (hp : Round answer start body start')
    (ha : answer body start' (.error (.abort cause))) : out = .error (.abort cause) := by
  induction ho <;> cases hp <;> grind [Agree]

/-- Where a node that is tried aborts, nothing recovers: its abort is what comes of it all. -/
theorem Yields.aborted {out : Except Halt ParseTree} (ho : Yields answer r rule start out)
    {rule' : Rule} {start' : Nat} (ht : Tries answer r rule start rule' start')
    (ha : answer rule' start' (.error (.abort cause))) : out = .error (.abort cause) := by
  cases ht with
  | reference hb => cases ho <;> grind [Agree]
  | sequence hp =>
    cases ho with
    | sequence ht => cases ht.aborted h hp ha
    | sequenceHalt ht => cases ht.aborted h hp ha; rfl
  | choice hp =>
    cases ho with
    | choice hf => cases hf.aborted h hp ha
    | noChoice hf => cases hf.aborted h hp ha
    | choiceHalt hf => cases hf.aborted h hp ha; rfl
  | optional => cases ho <;> grind [Agree]
  | repetition hp =>
    cases ho with
    | repetition hg => cases hg.aborted h hp ha
    | repetitionHalt hg => cases hg.aborted h hp ha; rfl

end Aborting

section Skipping
variable {r : Reader} {rule : Rule} {start : Nat} {cause : Abort}

inductive Skips (r : Reader) : Rule → Prop
  | literal {o} : (Rule.leaf .literal o).literal ≠ [] → Skips r (.leaf .literal o)
  | anyToken {o} : Skips r (.leaf .anyToken o)
  | anyIdentifier {o} : Skips r (.leaf .anyIdentifier o)
  | extension {o} : r.grammar.body? (Rule.leaf .reference o).target = some none →
      Skips r (.leaf .reference o)

theorem significant_bind_aborted (he : r.lexis.skip r.text start r.stop = .error cause)
    (f : Nat → Attempt ParseTree) :
    (r.significant start >>= f).result = .error (.abort cause) := by
  rw [result_bind_of_reached (r.significant_reached start), significant_result, he]
  rfl

theorem Skips.aborted {answer : Answers} {out : Except Halt ParseTree} (hs : r.Skips rule)
    (he : r.lexis.skip r.text start r.stop = .error cause)
    (ho : Yields answer r rule start out) : out = .error (.abort cause) := by
  cases hs with
  | literal hw =>
    cases ho
    rw [matchLiteral, matchWord, if_neg hw]
    exact significant_bind_aborted he _
  | anyToken =>
    cases ho
    exact significant_bind_aborted he _
  | anyIdentifier =>
    cases ho
    exact significant_bind_aborted he _
  | extension hb =>
    cases ho with
    | undefined hu => cases hu.symm.trans hb
    | extension => exact significant_bind_aborted he _
    | reference hu => cases hu.symm.trans hb

/-- The offsets at which the calls made in the course of a call skip. -/
inductive SkipsFrom (r : Reader) (c : Call) : Nat → Prop
  | intro {depth busy rule start} : r.Reaches c ⟨depth + 1, busy, rule, start⟩ →
      (start, rule) ∉ busy → r.Skips rule → SkipsFrom r c start

abbrev Call.result (r : Reader) (c : Call) : Except Halt ParseTree :=
  (r.run c.depth c.busy c.rule c.start).result

/-- A call aborts where a call within it does. -/
theorem Nests.aborted {c c' : Call} (hn : r.Nests c c')
    (ha : c'.result r = .error (.abort cause)) : c.result r = .error (.abort cause) := by
  cases hn with
  | intro hb ht =>
    exact (run_yields hb).aborted (fun _ _ _ _ ha ha' => ha.symm.trans ha') ht ha

/-- An abort ends every call that is open, with the same cause. -/
theorem Reaches.aborted {c c' : Call} (hr : r.Reaches c c')
    (ha : c'.result r = .error (.abort cause)) : c.result r = .error (.abort cause) := by
  induction hr with
  | refl => exact ha
  | tail _ hn ih => exact ih (hn.aborted ha)

theorem SkipsFrom.aborted {c : Call} {i : Nat} (hs : r.SkipsFrom c i)
    (he : r.lexis.skip r.text i r.stop = .error cause) : c.result r = .error (.abort cause) := by
  cases hs with
  | intro hr hb hs => exact hr.aborted (hs.aborted he (run_yields hb))

end Skipping

def skipping (r : Reader) (skip : Text → Nat → Nat → Except Abort Nat) : Reader :=
  { r with lexis := { r.lexis with skip := skip } }

section Replacing
variable {r : Reader} {skip : Text → Nat → Nat → Except Abort Nat} {rule : Rule} {start : Nat}

theorem significant_skipping
    (h : skip r.text start r.stop = r.lexis.skip r.text start r.stop) :
    (r.skipping skip).significant start = r.significant start := by
  have hskip : (r.skipping skip).skip start = r.skip start := by
    simp only [Reader.skip, skipping, h]
  rw [significant, hskip]
  rfl

theorem node_skipping {step : Step Attempt} (h : r.Skips rule →
      skip r.text start r.stop = r.lexis.skip r.text start r.stop) :
    (r.skipping skip).node (r.skipping skip).matchLiteral step rule start =
      r.node r.matchLiteral step rule start := by
  unfold node
  split
  · rw [matchLiteral, matchLiteral, matchWord, matchWord]
    split
    · rfl
    · rename_i hw
      rw [significant_skipping (h (.literal hw))]
      rfl
  · rw [matchToken, matchToken, significant_skipping (h .anyToken)]
    rfl
  · rw [matchIdentifier, matchIdentifier, significant_skipping (h .anyIdentifier)]
    rfl
  · rfl
  · rename_i o
    rw [show (r.skipping skip).grammar = r.grammar from rfl]
    cases hb : r.grammar.body? (Rule.leaf .reference o).target with
    | none => rfl
    | some body =>
      cases body with
      | some body => rfl
      | none =>
        dsimp only
        rw [matchExtension, matchExtension, significant_skipping (h (.extension hb))]
        rfl
  · rfl
  · rfl
  · rfl
  · rfl

theorem run_skipping (depth : Nat) : ∀ {busy : List (Nat × Rule)} {rule : Rule} {start : Nat},
    (∀ i, r.SkipsFrom ⟨depth, busy, rule, start⟩ i →
      skip r.text i r.stop = r.lexis.skip r.text i r.stop) →
    (r.skipping skip).run depth busy rule start = r.run depth busy rule start := by
  induction depth with
  | zero => exact fun _ => rfl
  | succ depth ih =>
    intro busy rule start h
    refine (run_congr_reader (fun hb => (node_skipping fun hs => h _ (.intro .refl hb hs)).symm)
      fun hb rule' start' ht => (ih fun i hi => h i ?_).symm).symm
    cases hi with
    | intro hr hb' hs => exact .intro (.head (.intro hb ht) hr) hb' hs

end Replacing
end Reader

namespace Language
open Attempt
variable {language : Language} {start : String} {text : Text} {filename : Option String}

/-- The offsets at which a parse skips: in the course of the run of the start rule's body, in
attempts that are given up as well, and behind the tree that the run gives. -/
inductive SkipsFrom (language : Language) (start : String) (text : Text) : Nat → Prop
  | within {body i} : language.grammar.body? start = some (some body) →
      (language.reader text).SkipsFrom ⟨depthLimit, [], body, 0⟩ i → SkipsFrom language start text i
  | behind {body tree} : language.grammar.body? start = some (some body) →
      ((language.reader text).run depthLimit [] body 0).result = .ok tree →
      SkipsFrom language start text tree.stop

def skipping (language : Language) (skip : Text → Nat → Nat → Except Abort Nat) : Language :=
  { language with lexis := { language.lexis with skip := skip } }

/-- How a text is skipped matters to a parse only at the offsets from which it skips. -/
theorem parse_skipping {skip : Text → Nat → Nat → Except Abort Nat}
    (h : ∀ i, language.SkipsFrom start text i →
      skip text i text.length = language.lexis.skip text i text.length) :
    (language.skipping skip).parse start text filename = language.parse start text filename := by
  rw [parse, parse, show (language.skipping skip).grammar = language.grammar from rfl]
  cases hb : language.grammar.body? start with
  | none => rfl
  | some body =>
    cases body with
    | none => rfl
    | some body =>
      have hrun : Reader.run ⟨language.grammar, (language.skipping skip).lexis, text, text.length⟩
          depthLimit [] body 0 = (language.reader text).run depthLimit [] body 0 :=
        Reader.run_skipping (r := language.reader text) depthLimit fun i hi => h i (.within hb hi)
      dsimp only
      rw [hrun, reader]
      rcases ho : (Reader.run ⟨language.grammar, language.lexis, text, text.length⟩ depthLimit []
        body 0).outcome 0 with ⟨(_ | cause) | tree, farthest⟩
      · rfl
      · cases cause <;> rfl
      · dsimp only [skipping]
        rw [h tree.stop (.behind hb (congrArg Prod.fst ho))]

/-- What the skipping stumbles over, wherever a parse skips, ends the parse. -/
theorem parse_of_skip_error {i : Nat} {error : LexicalError} (hs : language.SkipsFrom start text i)
    (he : language.lexis.skip text i text.length = .error (.lexical error)) :
    language.parse start text filename = .error (.aborted (.lexical error)) := by
  let r : Reader := ⟨language.grammar, language.lexis, text, text.length⟩
  unfold parse
  cases hs with
  | @within body _ hb hi =>
    have houtcome : (r.run depthLimit [] body 0).outcome 0 =
        (.error (.abort (.lexical error)), (r.run depthLimit [] body 0).reached) :=
      Prod.ext (hi.aborted he) rfl
    rw [hb]
    dsimp only
    rw [houtcome]
  | @behind body tree hb hr =>
    have houtcome : (r.run depthLimit [] body 0).outcome 0 =
        (.ok tree, (r.run depthLimit [] body 0).reached) := Prod.ext hr rfl
    rw [hb]
    dsimp only
    rw [houtcome]
    dsimp only
    rw [he]

/-- What ends a parse so, and can come from no scanner, is what the skipping stumbled over. -/
theorem skip_error_of_parse {bearable : Abort → Prop} {error : LexicalError}
    (hooks : language.lexis.Stays bearable text)
    (hextend : ∀ rule, (language.lexis.extend rule).Stays (· ≠ .lexical error) text)
    (h : language.parse start text filename = .error (.aborted (.lexical error))) :
    ∃ i, language.SkipsFrom start text i ∧
      language.lexis.skip text i text.length = .error (.lexical error) := by
  by_contra hnone
  let skip (text : Text) (start stop : Nat) : Except Abort Nat :=
    if language.lexis.skip text start stop = .error (.lexical error) then .ok 0
    else language.lexis.skip text start stop
  have hsame (i : Nat) (hi : language.SkipsFrom start text i) :
      skip text i text.length = language.lexis.skip text i text.length :=
    if_neg fun he => hnone ⟨i, hi, he⟩
  have hstays : (language.skipping skip).lexis.Stays (· ≠ .lexical error) text := by
    refine ⟨fun {i} hi => ?_, hextend⟩
    have hi := hooks.skip hi
    change Skipped _ _ (if _ then _ else _)
    split
    · exact Nat.zero_le _
    · rename_i hne
      cases hs : language.lexis.skip text i text.length with
      | ok j => exact (hs ▸ hi :)
      | error cause => exact fun hc => hne (hs.trans (congrArg _ hc))
  rcases parse_error hstays ((parse_skipping hsame).trans h) with ⟨_, he, -⟩ | ⟨cause, he, hc⟩
  · cases he
  · cases he
    exact hc rfl

end Language
end OrderedBnf
