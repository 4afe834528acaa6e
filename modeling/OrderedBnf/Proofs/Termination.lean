import OrderedBnf.Proofs.Nesting

/-! Every match ends: with hooks that come back, each node is answered by a tree or a failure, and
no bound that a run is given is what ends it. -/
namespace OrderedBnf.Reader
open Attempt

section Aborting
variable {answer : Answers} {r : Reader} {rule body : Rule} {rules parts : List Rule} {start : Nat}
  {halt : Halt}

theorem InTurn.halted (ho : InTurn answer parts start (.error halt)) :
    ∃ part start', Part answer parts start part start' ∧ answer part start' (.error halt) := by
  generalize ho' : Except.error halt = out at ho
  induction ho with
  | halt ha =>
    cases ho'
    exact ⟨_, _, .first, ha⟩
  | nextHalt ha _ ih =>
    cases ho'
    obtain ⟨part, start', hp, hb⟩ := ih rfl
    exact ⟨part, start', .later ha hp, hb⟩
  | _ => cases ho'

theorem FirstOf.halted (ho : FirstOf answer rules start (.error halt)) :
    ∃ cause rule, halt = .abort cause ∧ Alternative answer rules start rule ∧
      answer rule start (.error (.abort cause)) := by
  generalize ho' : Except.error halt = out at ho
  induction ho with
  | abort ha =>
    cases ho'
    exact ⟨_, _, rfl, .first, ha⟩
  | laterHalt ha _ ih =>
    cases ho'
    obtain ⟨cause, rule, hc, hp, hb⟩ := ih rfl
    exact ⟨cause, rule, hc, .later ha hp, hb⟩
  | _ => cases ho'

/-- The failures of a choice are those of the alternatives it tried. -/
theorem FirstOf.failures {failures : List Failure}
    (ho : FirstOf answer rules start (.ok (.error failures))) : ∀ failure ∈ failures,
      ∃ rule, Alternative answer rules start rule ∧
        answer rule start (.error (.failure failure)) := by
  generalize ho' : Except.ok (Except.error failures) = out at ho
  induction ho generalizing failures with
  | none =>
    cases ho'
    exact fun _ h => absurd h List.not_mem_nil
  | nowhere ha _ ih =>
    cases ho'
    intro failure hm
    rcases List.mem_cons.1 hm with rfl | hm
    · exact ⟨_, .first, ha⟩
    · obtain ⟨rule, hp, hb⟩ := ih rfl failure hm
      exact ⟨rule, .later ha hp, hb⟩
  | _ => cases ho'

theorem Again.halted (ho : Again answer start body (.error halt)) :
    ∃ cause start', halt = .abort cause ∧ Round answer start body start' ∧
      answer body start' (.error (.abort cause)) := by
  generalize ho' : Except.error halt = out at ho
  induction ho with
  | abort ha =>
    cases ho'
    exact ⟨_, _, rfl, .first, ha⟩
  | roundHalt ha hs _ ih =>
    cases ho'
    obtain ⟨cause, start', hc, hp, hb⟩ := ih rfl
    exact ⟨cause, start', hc, .later ha hs hp, hb⟩
  | _ => cases ho'

variable {cause : Abort}

/-- A rule does not abort where none of the rules that it tries does. -/
theorem Yields.not_aborted (hooks : r.lexis.Returns r.text r.stop) (ht : r.stop ≤ r.text.length)
    (hs : start ≤ r.text.length)
    (h : ∀ rule' start', Tries answer r rule start rule' start' →
      ¬ answer rule' start' (.error (.abort cause))) :
    ¬ Yields answer r rule start (.error (.abort cause)) := by
  intro ho
  generalize ho' : (Except.error (.abort cause) : Except Halt ParseTree) = out at ho
  cases ho with
  | literal => exact matchLiteral_not_aborted hooks ht hs ho'.symm
  | anyToken => exact matchToken_not_aborted hooks ht ho'.symm
  | anyIdentifier => exact matchIdentifier_not_aborted hooks ht ho'.symm
  | newLine => exact matchNewLine_not_aborted ht ho'.symm
  | extension => exact matchExtension_not_aborted hooks ho'.symm
  | reference hb ha => exact h _ _ (.reference hb) (ho' ▸ ha)
  | sequenceHalt hp =>
    cases ho'
    obtain ⟨part, start', hp, ha⟩ := hp.halted
    exact h _ _ (.sequence hp) ha
  | choiceHalt hp =>
    cases ho'
    obtain ⟨_, alternative, ⟨⟩, hp, ha⟩ := hp.halted
    exact h _ _ (.choice hp) ha
  | optionalAbort ha =>
    cases ho'
    exact h _ _ .optional ha
  | repetitionHalt hp =>
    cases ho'
    obtain ⟨_, start', ⟨⟩, hp, ha⟩ := hp.halted
    exact h _ _ (.repetition hp) ha
  | _ => cases ho'

end Aborting

variable {r : Reader}

theorem run_not_aborted (hooks : r.lexis.Returns r.text r.stop) (ht : r.stop ≤ r.text.length)
    {cause : Abort} : ∀ (depth : Nat) {busy : List (Nat × Rule)} {rule : Rule} {start : Nat},
      r.Deep ⟨depth, busy, rule, start⟩ → start ≤ r.text.length →
      (r.run depth busy rule start).result ≠ .error (.abort cause)
  | 0, _, _, _, hd, _ => absurd (hd _ .refl) (Nat.lt_irrefl 0)
  | depth + 1, busy, rule, start, hd, hs => by
    by_cases hb : (start, rule) ∈ busy
    · rw [run_busy hb]
      exact fun h => by cases h
    · intro h
      refine Yields.not_aborted hooks ht hs (fun rule' start' htry => ?_) (h ▸ run_yields hb)
      have hl := (htry.lands (run_lands _ _)).le_length hs
      exact run_not_aborted hooks ht depth (hd.nested (.intro hb htry)) hl

/-- Every round of a repetition ends farther on than the one before. -/
theorem Again.increasing {answer : Answers} {start : Nat} {body : Rule} {trees : List ParseTree}
    (ho : Again answer start body (.ok trees)) :
    (start :: trees.map ParseTree.stop).IsChain (· < ·) := by
  generalize ho' : Except.ok trees = out at ho
  induction ho generalizing trees with
  | round _ hs _ ih =>
    cases ho'
    exact .cons_cons hs (ih rfl)
  | failed =>
    cases ho'
    exact .singleton _
  | stuck =>
    cases ho'
    exact .singleton _
  | _ => cases ho'

/-- A repetition ends by itself, however many rounds more than the text is long it may make, and
every round that it keeps gets on. -/
theorem again_ends (hooks : r.lexis.Returns r.text r.stop) (ht : r.stop ≤ r.text.length)
    {depth : Nat} {busy : List (Nat × Rule)} {body : Rule} {o : Origin} {start : Nat}
    (hd : r.Deep ⟨depth + 1, busy, .repetition body o, start⟩)
    (hb : (start, .repetition body o) ∉ busy) (hs : start ≤ r.text.length) :
    ∃ trees, (start :: trees.map ParseTree.stop).IsChain (· < ·) ∧
      ∀ rounds, r.text.length < rounds →
        (again (r.run depth ((start, .repetition body o) :: busy)) body rounds start).result =
          .ok trees := by
  have hg (rounds : Nat) (hr : r.text.length < rounds) :=
    again_result (r.run_steady depth ((start, .repetition body o) :: busy)) body
      r.text.length
      (fun start' tree ha hlt => (run_lands _ _ _ _ _ ha).resolve_right (Nat.ne_of_gt hlt))
      rounds start (by omega)
  have hone := hg _ (Nat.lt_succ_self r.text.length)
  cases ho : (again (r.run depth ((start, .repetition body o) :: busy)) body
      (r.text.length + 1) start).result with
  | error halt =>
    obtain ⟨cause, start', -, hp, ha⟩ := (ho ▸ hone).halted
    have htry := Tries.repetition (r := r) (o := o) hp
    have hl := (htry.lands (run_lands _ _)).le_length hs
    exact absurd ha (run_not_aborted hooks ht depth (hd.nested (.intro hb htry)) hl)
  | ok trees =>
    rw [ho] at hone
    refine ⟨trees, hone.increasing, fun rounds hr => ?_⟩
    exact (hg rounds hr).agree (fun _ _ _ _ ha ha' => ha.symm.trans ha') hone

/-- A match comes back with a tree or a failure, and no greater depth changes what it does. The
calls open at one time are for different nodes and offsets, which bounds their number, and every
repetition among them ends by itself, getting on in each round that it keeps. -/
theorem match_terminates (r : Reader) (rule : Rule) (start : Nat) (hs : start ≤ r.stop)
    (ht : r.stop ≤ r.text.length) (hooks : r.lexis.Returns r.text r.stop) :
    (∃ out : Except Failure ParseTree,
      (r.attempt rule start).result = out.mapError Halt.failure) ∧
    (∀ depth, r.openLimit rule ≤ depth → r.run depth [] rule start = r.attempt rule start) ∧
    ∀ depth c, r.openLimit rule ≤ depth → r.Reaches ⟨depth, [], rule, start⟩ c →
      c.start ≤ r.text.length ∧ c.rule ∈ r.nodesWith rule ∧
      c.busy.Nodup ∧ c.busy.length + 1 ≤ r.openLimit rule ∧
      ∀ body o, c.rule = .repetition body o → (c.start, c.rule) ∉ c.busy →
        ∃ trees, (c.start :: trees.map ParseTree.stop).IsChain (· < ·) ∧
          ∀ rounds, r.text.length < rounds →
            (again (r.run (c.depth - 1) ((c.start, c.rule) :: c.busy)) body rounds c.start).result =
              .ok trees := by
  have hs := Nat.le_trans hs ht
  refine ⟨?_, fun depth hd => ?_, fun depth c hd hc => ?_⟩
  · cases ho : (r.attempt rule start).result with
    | ok tree => exact ⟨.ok tree, rfl⟩
    | error halt =>
      cases halt with
      | failure failure => exact ⟨.error failure, rfl⟩
      | abort cause =>
        exact absurd ho (run_not_aborted hooks ht _ deep_of_depthBound hs)
  · have h (depth : Nat) (hd : r.openLimit rule ≤ depth) :
        r.run depth [] rule start = r.run (r.openLimit rule) [] rule start := by
      obtain ⟨more, rfl⟩ := Nat.exists_eq_add_of_le hd
      exact run_add_of_deep more _ (deep_of_openLimit hs (Nat.le_refl _))
    exact (h depth hd).trans (h _ openLimit_le_depthBound).symm
  · obtain ⟨hl, hm⟩ := hc.asked _ List.mem_cons_self
    have hl := hl.le_length hs
    refine ⟨hl, hm, hc.nodup, hc.length_busy_lt hs, fun body o hr hb => ?_⟩
    have hdeep : r.Deep c := fun c' h => deep_of_openLimit hs hd c' (hc.trans h)
    have hpos := hdeep _ .refl
    cases c with
    | mk depth busy rule start =>
      cases depth with
      | zero => exact absurd hpos (Nat.lt_irrefl 0)
      | succ depth =>
        cases hr
        exact again_ends hooks ht hdeep hb hl

def selfMention : Reader :=
  ⟨.ofList [("loop", some (.leaf .reference ⟨0, 4, false, none, "loop".toList⟩))], .plain, ['x'], 1⟩

theorem self_mention_terminates : ∃ out : Except Failure ParseTree,
    (selfMention.attempt (.leaf .reference ⟨0, 4, false, none, "loop".toList⟩) 0).result =
      out.mapError Halt.failure :=
  (match_terminates selfMention _ 0 (by decide) (by decide) (Lexis.plain_returns (by decide))).1

end OrderedBnf.Reader
