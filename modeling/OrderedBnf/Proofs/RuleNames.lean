import OrderedBnf.Proofs.Completeness
import OrderedBnf.Proofs.Coverage

/-! The rule that the node of a match names. A rule whose body is just the name of another one is
matched by matching that one, and its name gets lost on the way. -/
namespace OrderedBnf

theorem Rule.name?_asBodyOf (rule : Rule) (name : String) :
    (rule.asBodyOf name).name? = some name := by
  cases rule <;> rfl

namespace Grammar
variable {grammar : Grammar}

def Titled (grammar : Grammar) : Prop :=
  ∀ entry ∈ grammar.entries, ∀ body, entry.body = some body → body.name? = some entry.name

theorem Titled.put (h : grammar.Titled) (name : String) (body : Option Rule) (line : Option Nat) :
    (grammar.put name body line).Titled := by
  have hnew (rule : Rule) (hr : body.map (·.asBodyOf name) = some rule) :
      rule.name? = some name := by
    obtain ⟨rule, -, rfl⟩ := Option.map_eq_some_iff.1 hr
    exact rule.name?_asBodyOf name
  intro entry he
  unfold Grammar.put at he
  dsimp only at he
  split at he
  · obtain ⟨old, hold, rfl⟩ := List.mem_map.1 he
    split
    · exact hnew
    · exact h old hold
  · rcases List.mem_append.1 he with he | he
    · exact h entry he
    · cases List.mem_singleton.1 he
      exact hnew

theorem ofDocument_titled {lines : List Text} {extensions : List String}
    (h : ofDocument lines extensions = .ok grammar) : grammar.Titled :=
  ofDocument_keeps (fun _ h => absurd h List.not_mem_nil)
    (fun _ name body line h => h.put name body line) h

theorem load_titled {lines : List Text} {extensions : List String}
    (h : load lines extensions = .ok grammar) : grammar.Titled := by
  rw [load] at h
  split at h
  · cases h
  · split at h
    · cases h
      exact ofDocument_titled ‹_›
    · cases h

/-- The body that stands for a name is titled with it. -/
theorem Titled.name? {name : String} {body : Rule} (h : grammar.Titled)
    (hb : grammar.body? name = some (some body)) :
    body.name? = some name := by
  obtain ⟨entry, he, hb⟩ := Option.map_eq_some_iff.1 hb
  have hname : entry.name = name := by simpa using List.find?_some he
  exact hname ▸ h entry (List.mem_of_find?_eq_some he) body hb

/-- A body that is nothing but the name of a rule that has a body itself. -/
def Alias (grammar : Grammar) (body : Rule) : Prop :=
  ∃ o other, body = .leaf .reference o ∧ grammar.body? body.target = some (some other)

/-- From a rule to the one that its matches are matches of, alias by alias. -/
inductive StandsFor (grammar : Grammar) : String → String → Prop
  | itself {name body} : grammar.body? name = some (some body) → ¬ grammar.Alias body →
      StandsFor grammar name name
  | another {name o other last} : grammar.body? name = some (some (.leaf .reference o)) →
      grammar.body? (Rule.leaf .reference o).target = some (some other) →
      StandsFor grammar (Rule.leaf .reference o).target last → StandsFor grammar name last

/-- A rule whose body is no alias stands for itself alone. -/
theorem StandsFor.eq_self {name last : String} {body : Rule} (h : grammar.StandsFor name last)
    (hb : grammar.body? name = some (some body)) (ha : ¬ grammar.Alias body) : last = name := by
  cases h with
  | itself => rfl
  | another hb' hother =>
    cases hb.symm.trans hb'
    exact absurd ⟨_, _, rfl, hother⟩ ha

end Grammar

namespace Reader
open Attempt
variable {r : Reader}

/-- A node knows the rule node it was matched against, which is the one that was asked for unless
this is a reference to a rule with a body. -/
theorem Yields.label_rule {answer : Answers} {rule : Rule} {start : Nat} {tree : ParseTree}
    (h : Yields answer r rule start (.ok tree)) (ha : ¬ r.grammar.Alias rule) :
    (Tree.label tree).rule = rule := by
  generalize ho : Except.ok tree = out at h
  cases h with
  | literal =>
    rcases matchLiteral_ok ho.symm with ⟨-, -, rfl⟩ | ⟨i, -, -, -, rfl⟩ <;> rfl
  | anyToken =>
    obtain ⟨i, stop, -, -, -, -, rfl⟩ := matchToken_ok ho.symm
    rfl
  | anyIdentifier =>
    obtain ⟨i, c, rest, -, -, -, -, rfl⟩ := matchIdentifier_ok ho.symm
    rfl
  | newLine =>
    obtain ⟨rest, -, rfl⟩ := matchNewLine_ok ho.symm
    rfl
  | extension =>
    obtain ⟨i, found, -, -, -, -, -, -, rfl⟩ := matchExtension_ok ho.symm
    rfl
  | reference hb => exact absurd ⟨_, _, rfl, hb⟩ ha
  | sequence | choice | present | absent | repetition =>
    cases ho
    exact ParseTree.spanning_rule
  | _ => cases ho

/-- The tree of a rule's body names the rule that this one stands for. -/
theorem run_ruleName? (ht : r.grammar.Titled) (depth : Nat) {busy : List (Nat × Rule)}
    {body : Rule} {start : Nat} {tree : ParseTree}
    (h : (r.run depth busy body start).result = .ok tree) {name : String}
    (hb : r.grammar.body? name = some (some body)) :
    ∃ last, r.grammar.StandsFor name last ∧ (Tree.label tree).ruleName? = some last := by
  refine run_builds (fun body _ tree => ∀ name, r.grammar.body? name = some (some body) →
    ∃ last, r.grammar.StandsFor name last ∧ (Tree.label tree).ruleName? = some last)
    (fun body start tree hy name hb => ?_) depth h name hb
  by_cases ha : r.grammar.Alias body
  · obtain ⟨o, other, rfl, hother⟩ := ha
    generalize ho : Except.ok tree = out at hy
    cases hy with
    | undefined hb' => cases hother.symm.trans hb'
    | extension hb' => cases hother.symm.trans hb'
    | reference hb' hanswer =>
      cases hother.symm.trans hb'
      obtain ⟨last, hlast, hname⟩ := hanswer tree ho.symm _ hother
      exact ⟨last, .another hb hother hlast, hname⟩
  · refine ⟨name, .itself hb ha, ?_⟩
    rw [Match.ruleName?, hy.label_rule ha, ht.name? hb]

theorem run_reference {depth : Nat} {busy : List (Nat × Rule)} {o : Origin} {start : Nat}
    {body : Rule} {tree : ParseTree}
    (hb : r.grammar.body? (Rule.leaf .reference o).target = some (some body))
    (h : (r.run depth busy (.leaf .reference o) start).result = .ok tree) :
    ∃ depth busy, (r.run depth busy body start).result = .ok tree := by
  cases depth with
  | zero => cases h
  | succ depth =>
    by_cases hbusy : (start, .leaf .reference o) ∈ busy
    · rw [run_busy hbusy] at h
      cases h
    · have hy : Yields _ r (.leaf .reference o) start (.ok tree) := h ▸ run_yields hbusy
      generalize ho : Except.ok tree = out at hy
      cases hy with
      | undefined hb' => cases hb.symm.trans hb'
      | extension hb' => cases hb.symm.trans hb'
      | reference hb' hanswer =>
        cases hb.symm.trans hb'
        exact ⟨depth, (start, .leaf .reference o) :: busy, hanswer⟩

end Reader

namespace Language
variable {language : Language} {name : String}

/-- With a loaded grammar and whatever hooks, a parse from a rule, and every match of a reference to
it in the course of a parse, gives a node that names the rule this one stands for: itself, unless
its body is just the name of another rule with a body. -/
theorem parse_rule_name {lines : List Text} {extensions : List String}
    (hload : Grammar.load lines extensions = .ok language.grammar) :
    (∀ text filename tree, language.parse name text filename = .ok tree →
      ∃ last, language.grammar.StandsFor name last ∧
        (Tree.label tree).ruleName? = some last) ∧
    (∀ text stop depth busy o start tree body, (Rule.leaf .reference o).target = name →
      language.grammar.body? name = some (some body) →
      (Reader.run ⟨language.grammar, language.lexis, text, stop⟩ depth busy (.leaf .reference o)
        start).result = .ok tree →
      ∃ last, language.grammar.StandsFor name last ∧
        (Tree.label tree).ruleName? = some last) ∧
    ∀ body last, language.grammar.body? name = some (some body) →
      ¬ language.grammar.Alias body → language.grammar.StandsFor name last → last = name := by
  have htitled := Grammar.load_titled hload
  refine ⟨?_, ?_, fun body last hb ha h => h.eq_self hb ha⟩
  · intro text filename tree h
    obtain ⟨body, hb, hrun, -⟩ := parse_ok h
    exact Reader.run_ruleName? (r := language.reader text) htitled depthLimit hrun hb
  · rintro text stop depth busy o start tree body rfl hb h
    obtain ⟨depth, busy, h⟩ := Reader.run_reference hb h
    exact Reader.run_ruleName? htitled depth h hb

/-- A chain of two aliases names its last rule. -/
theorem chain_rule_name : ∃ grammar tree,
    Grammar.load ["A: B".toList, "B: C".toList, "C: 'c'".toList] [] = .ok grammar ∧
      (Language.mk grammar .plain).parse "A" ['c'] none = .ok tree ∧
      (∃ last, grammar.StandsFor "A" last ∧ (Tree.label tree).ruleName? = some last) ∧
      (Tree.label tree).ruleName? = some "C" := by
  have hrun : (Grammar.load ["A: B".toList, "B: C".toList, "C: 'c'".toList] []).toOption.any
      fun grammar => ((Language.mk grammar .plain).parse "A" ['c'] none).toOption.any fun tree =>
        decide ((Tree.label tree).ruleName? = some "C") := by
    decide +kernel
  obtain ⟨grammar, hload, hrun⟩ := exists_of_any hrun
  obtain ⟨tree, hparse, hname⟩ := exists_of_any hrun
  exact ⟨grammar, tree, hload, hparse,
    (@parse_rule_name ⟨grammar, .plain⟩ "A" _ _ hload).1 ['c'] none tree hparse,
    of_decide_eq_true hname⟩

/-- A rule whose body is the name of another one, and a text of it. -/
theorem alias_loses_name : ∃ grammar tree,
    Grammar.load ["A: B".toList, "B: 'b'".toList] [] = .ok grammar ∧
      (Language.mk grammar .plain).parse "A" ['b'] none = .ok tree ∧
      (∃ body, grammar.body? "A" = some (some body)) ∧
      (Tree.label tree).ruleName? = some "B" := by
  have hrun : (Grammar.load ["A: B".toList, "B: 'b'".toList] []).toOption.any fun grammar =>
      ((Language.mk grammar .plain).parse "A" ['b'] none).toOption.any fun tree =>
        decide ((Tree.label tree).ruleName? = some "B") := by
    decide +kernel
  obtain ⟨grammar, hload, hrun⟩ := exists_of_any hrun
  obtain ⟨tree, hparse, hname⟩ := exists_of_any hrun
  obtain ⟨body, hb, -⟩ := parse_ok hparse
  exact ⟨grammar, tree, hload, hparse, ⟨body, hb⟩, of_decide_eq_true hname⟩

end Language
end OrderedBnf
