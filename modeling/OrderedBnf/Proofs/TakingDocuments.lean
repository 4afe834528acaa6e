import OrderedBnf.Proofs.NotationExpressions
import OrderedBnf.Proofs.PrintedRules

/-! Whole documents that the notation accepts: rules one after another, each with line breaks behind
it, and over further lines where the notation goes on. -/
namespace OrderedBnf.MetaGrammar
open Reader

inductive Behind (folds : Bool) (n : Nat) : Option Expression → Text → Prop
  | nothing : Behind folds n none []
  | expression {gap word e} : Fold folds gap → Spread Word (spaced folds) n .choice [e] word →
      Behind folds n (some e) (gap ++ word)

inductive Written (folds : Bool) (n : Nat) : List Definition → Text → Prop
  | nil : Written folds n [] []
  | cons {d ds indent body breaks rest} : Spaces indent → language.lexis.IsName d.name →
      Behind folds n d.body body → Written folds n ds rest →
      Written folds n (d :: ds) (indent ++ (d.name ++ ':' :: (body ++ '\n' ::
        (List.replicate breaks '\n' ++ rest))))

variable {text rest gap name left left' body indent : Text} {title : Option String} {sketch : Sketch}
  {tree : ParseTree} {depth n breaks : Nat} {folds : Bool} {d : Definition} {ds : List Definition}
  {e? : Option Expression}

/-- A line that starts with a name and a colon is no continuation. -/
theorem continues_head (hname : isIdentifier name) (rest : Text) :
    continues (name ++ ':' :: rest) = false := by
  have hline : (name ++ ':' :: rest).takeWhile (· ≠ '\n') =
      name ++ ':' :: rest.takeWhile (· ≠ '\n') := by
    have hfeed : ∀ c ∈ name, decide (c ≠ '\n') := fun c hc => by
      rw [decide_eq_true_eq]
      rintro rfl
      exact not_mem_of_identifier hname (by decide) hc
    rw [List.takeWhile_append_of_pos hfeed, List.takeWhile_cons_of_pos (by decide)]
  obtain ⟨words, hwords, hhead⟩ :=
    Option.bind_eq_some_iff.1 (titleOf?_head hname (rest.takeWhile (· ≠ '\n')))
  rw [continues, hline, significant?_trim hwords, hhead]
  exact Bool.and_false _

theorem Written.onward (h : Written folds n ds left) :
    ∃ indent rest, left = indent ++ rest ∧ Onward indent rest := by
  cases h with
  | nil => exact ⟨[], [], rfl, Spaces.nil, nofun, rfl, fun _ => rfl⟩
  | @cons d ds indent body breaks rest hindent hname =>
    obtain ⟨c, tail, hstart, hc, -⟩ := hname.start
    refine ⟨indent, _, rfl, hindent, fun c' hc' => ?_,
      continues_head (isIdentifier_of_isName hname) _, fun he => ?_⟩
    · rw [hstart] at hc'
      cases hc'
      exact hc
    · rw [hstart] at he
      cases he

section Trees

/-- The tree of a rule that was written: its first branch is the name, and it says what the rule
says. -/
structure Enters (text : Text) (d : Definition) (tree : ParseTree) : Prop where
  named : ∃ t rest, Tree.branches tree = some t :: rest ∧
    text.window (ParseTree.start t) (ParseTree.stop t) = d.name
  signs : signs text tree = d.signs

theorem read_of_takes {rule : Rule} (his : rule.is title sketch)
    (h : (language.reader text).TakesBy (answers text depth) rule left left' tree) :
    Read text title sketch ((language.reader text).offset left) tree :=
  have hle : (language.reader text).offset left ≤ text.length := Nat.sub_le ..
  ⟨hle, rule, his, run_fits (r := language.reader text) (advances text) _
    (EndsIn.ends h.ends).attempt hle⟩

theorem rulesOf_spanning {kind : Kind} {rule : Rule} {cursor : Nat}
    {branches : List (Option ParseTree)} (h : rule.name? ≠ some "Rule") :
    rulesOf (.spanning kind rule cursor branches) = (branches.filterMap id).flatMap rulesOf := by
  obtain ⟨m, hnode, -, hrule⟩ := @ParseTree.spanning_node kind rule cursor branches
  rw [hnode, rulesOf_node, Match.ruleName?, hrule, if_neg h, List.nil_append]

end Trees

section Bodies

def bodySketch : Sketch :=
  .optional (.sequence [.optional (.rule "Continuation"), .rule "Expression"])

theorem declines_expression (hs : '\n' :: rest <:+ text) :
    Declines text 9 (.rule "Expression") ('\n' :: rest) := by
  have hatom : Declines text 5 (.rule "Atom") ('\n' :: rest) :=
    @declines_atom _ [] _ _ (meets Spaces.nil (by decide) hs) (by decide) (by decide)
  exact declines_rule rfl (declines_first (declines_rule rfl (declines_first hatom)))

theorem accepts_body (h : Behind folds n e? body)
    (hs : body ++ '\n' :: (List.replicate breaks '\n' ++ (indent ++ rest)) <:+ text)
    (honward : Onward indent rest) :
    Accepts text (depthOf folds .choice n + 2) none bodySketch
      (body ++ '\n' :: (List.replicate breaks '\n' ++ (indent ++ rest)))
      ('\n' :: (List.replicate breaks '\n' ++ (indent ++ rest))) (e?.elim [] Expression.signs) := by
  have hline := (List.suffix_append _ _).trans hs
  cases h with
  | nothing =>
    have habsent : Accepts text 2 none (.optional (.rule "Continuation")) _ _ [] :=
      accepts_absent (by decide) (honward.declines_continuation hline)
    have hall := acceptsAll_cons (habsent.mono (by decide : 2 ≤ 9)) acceptsAll_nil
    have hnone : Accepts text 11 none bodySketch _ _ [] :=
      accepts_absent (by decide) (declines_after hall (declines_expression hline))
    exact hnone.mono (by simp only [depthOf]; omega)
  | @expression gap word e hgap hspread =>
    rw [List.append_assoc] at hs ⊢
    obtain ⟨gap', hgap', hsuffix, hcontinued⟩ := accepts_fold hgap (firm_of_spread hspread)
      (continues_spread hspread rfl (by simp)) hs
    have hs' := hsuffix.trans hs
    have hreads := says_of_spread hspread hgap' hs' (honward.stops hline)
    have hall := acceptsAll_cons (hcontinued.mono (by simp only [depthOf]; omega))
      (acceptsAll_cons (hreads.accepts hs') acceptsAll_nil)
    have hsigns : titleSigns none ++ (titleSigns none ++ ([] ++ (signsOfAll [e] ++ []))) =
        e.signs := by simp [signsOfAll, titleSigns]
    rw [show (some e).elim [] Expression.signs = e.signs from rfl, ← hsigns]
    exact accepts_present (by decide) (accepts_sequence (by decide) hall)

/-- The notation reads a rule with the line break behind it. -/
theorem takes_rule (hindent : Spaces gap) (hname : language.lexis.IsName d.name)
    (hbody : Behind folds n d.body body) (honward : Onward indent rest)
    (hs : gap ++ (d.name ++ ':' :: (body ++ '\n' ::
      (List.replicate breaks '\n' ++ (indent ++ rest)))) <:+ text)
    {rule : Rule} (his : rule.is none (.rule "Rule")) : ∃ tree,
      (language.reader text).TakesBy (answers text (depthOf folds .choice n + 4)) rule
        (gap ++ (d.name ++ ':' :: (body ++ '\n' :: (List.replicate breaks '\n' ++ (indent ++ rest)))))
        (List.replicate breaks '\n' ++ (indent ++ rest)) tree ∧ Enters text d tree := by
  obtain ⟨o, rfl, hrule⟩ := Rule.is_rule his
  obtain ⟨root, hb, hroot⟩ := body?_of_sketch (show sketches.lookup "Rule" = some (some _) from rfl)
  obtain ⟨rules, o', rfl, htitle, hrules⟩ := Rule.is_sequence hroot
  obtain ⟨first, rules, rfl, hfirst, hrules⟩ := Rule.areAll_cons hrules
  have hcolon := (List.suffix_append _ _).trans ((List.suffix_append _ _).trans hs)
  have htail := (List.suffix_cons ..).trans hcolon
  have hmeets := meets_firm hindent (firm_of_identifier (isIdentifier_of_isName hname)) hs
  obtain ⟨t, ht, hword, hsigns, -⟩ :=
    @covers_name _ (depthOf folds .choice n + 1) _ _ _ hmeets hname rfl _ hfirst
  have hparts := acceptsAll_cons (@accepts_mark _ (depthOf folds .choice n + 1) _ [] ':'
      (meets Spaces.nil (by decide) hcolon) rfl)
    (acceptsAll_cons (accepts_body hbody htail honward)
      (acceptsAll_cons (accepts_newLine ((List.suffix_append _ _).trans htail)) acceptsAll_nil))
  obtain ⟨ts, hts, htsigns⟩ := hparts hrules
  have htree := takes_reference EndsIn.closes (hrule ▸ hb)
    (takes_sequence EndsIn.closes (.cons ht hts))
  refine ⟨_, htree, ⟨t, ts.map some, ParseTree.spanning_branches, hword⟩, ?_⟩
  rw [signs_spanning (htitle ▸ by decide), branches_some, List.flatMap_cons, hsigns, htsigns, htitle]
  simp [titleSigns, Definition.signs]

end Bodies

section Documents

def roundSketch : Sketch := .sequence [.rule "Rule", .repetition .newLine]

theorem declines_rule_end (text : Text) : Declines text 3 (.rule "Rule") [] := by
  have hname : Declines text 1 .name [] := by
    intro title rule his
    obtain ⟨o, rfl⟩ := Rule.is_name his
    exact refuses_identifier_at_end (r := language.reader text) EndsIn.closes (skip_end text)
      (Nat.le_refl _)
  exact declines_rule rfl (declines_first hname)

/-- The notation reads rules one after another, each as a rule of the document. -/
theorem takes_rules (h : Written folds n ds left) (hs : left <:+ text) {rule : Rule}
    (his : rule.is none roundSketch) :
    ∃ trees, (language.reader text).TakesRoundsBy (answers text (depthOf folds .choice n + 5)) rule
      left [] trees ∧ List.Forall₂ (Enters text) ds (trees.flatMap rulesOf) := by
  induction h with
  | nil =>
    have hend : Declines text 4 roundSketch [] := declines_first (declines_rule_end text)
    exact ⟨[], .done (hend.mono (by simp only [depthOf]; omega) his), .nil⟩
  | @cons d ds gap body breaks left hindent hname hbody hmore ih =>
    obtain ⟨indent, rest, rfl, honward⟩ := hmore.onward
    obtain ⟨rules, o, rfl, htitle, hrules⟩ := Rule.is_sequence his
    obtain ⟨first, rules, rfl, hfirst, hrules⟩ := Rule.areAll_cons hrules
    obtain ⟨second, rules, rfl, hsecond, hrules⟩ := Rule.areAll_cons hrules
    obtain rfl := Rule.areAll_nil hrules
    obtain ⟨tree, ht, henters⟩ := takes_rule hindent hname hbody honward hs hfirst
    have hfollowing := ht.suffix.trans hs
    have hbreaks := (accepts_newLines hfollowing honward.ne_feed).mono
      (show 2 ≤ depthOf folds .choice n + 4 by omega)
    obtain ⟨lines, hlines, -⟩ := hbreaks hsecond
    obtain ⟨trees, hts, hforall⟩ := ih ((List.suffix_append _ _).trans hfollowing)
    have hround := takes_sequence (o := o) EndsIn.closes (.cons ht (.cons hlines .nil))
    refine ⟨_ :: trees, .round hround ?_ hts, ?_⟩
    · simp only [List.length_append, List.length_cons]
      omega
    · rw [List.flatMap_cons, rulesOf_spanning (htitle ▸ by simp), branches_some, List.flatMap_cons,
        List.flatMap_singleton, (read_of_takes hfirst ht).rulesOf_rule,
        (read_of_takes hsecond hlines).rulesOf_breaks]
      exact .cons henters hforall

/-- The notation reads a whole document of rules, with line breaks before them. -/
theorem takes_document (h : Written folds n ds left)
    (htext : text = List.replicate breaks '\n' ++ left) :
    ∃ body tree, language.grammar.body? "Grammar" = some (some body) ∧
      (language.reader text).TakesBy (answers text (depthOf folds .choice n + 7)) body text [] tree ∧
      List.Forall₂ (Enters text) ds (rulesOf tree) := by
  obtain ⟨body, hb, hbody⟩ :=
    body?_of_sketch (show sketches.lookup "Grammar" = some (some _) from rfl)
  obtain ⟨rules, o, rfl, htitle, hrules⟩ := Rule.is_sequence hbody
  obtain ⟨first, rules, rfl, hfirst, hrules⟩ := Rule.areAll_cons hrules
  obtain ⟨second, rules, rfl, hsecond, hrules⟩ := Rule.areAll_cons hrules
  obtain rfl := Rule.areAll_nil hrules
  obtain ⟨round, o', rfl, htitle', hround⟩ := Rule.is_repetition hsecond
  obtain ⟨indent, rest, rfl, honward⟩ := h.onward
  have hwhole : List.replicate breaks '\n' ++ (indent ++ rest) <:+ text := htext ▸ List.suffix_refl _
  have hdocument := (List.suffix_append _ _).trans hwhole
  have hbreaks := (accepts_newLines hwhole honward.ne_feed).mono
    (show 2 ≤ depthOf folds .choice n + 6 by omega)
  obtain ⟨lead, hlead, -⟩ := hbreaks hfirst
  obtain ⟨trees, htrees, hforall⟩ := takes_rules h hdocument hround
  have hrounds := takes_repetition (o := o') EndsIn.closes htrees hdocument
  have htree := takes_sequence (o := o) EndsIn.closes (.cons hlead (.cons hrounds .nil))
  rw [← htext] at htree
  refine ⟨_, _, hb, htree, ?_⟩
  rw [rulesOf_spanning (htitle ▸ by simp), branches_some, List.flatMap_cons, List.flatMap_singleton,
    (read_of_takes hfirst hlead).rulesOf_breaks, rulesOf_spanning (htitle' ▸ by simp), branches_some]
  exact hforall

/-- The notation accepts a document of rules, unless their brackets nest too deep for it. -/
theorem lint_written (h : Written folds n ds left)
    (htext : normalize text = List.replicate breaks '\n' ++ left) (filename : Option String) :
    ∃ tree, List.Forall₂ (Enters (normalize text)) ds (rulesOf tree) ∧
      (lint text filename = .ok tree ∨ Language.depthLimit < depthOf folds .choice n + 7 ∧
        ∃ diagnosis, lint text filename = .error (.failed diagnosis) ∧
          diagnosis.failure.reason = .tooDeep) := by
  obtain ⟨body, tree, hb, ht, hforall⟩ := takes_document h htext
  have hstart : (language.reader (normalize text)).offset (normalize text) = 0 := Nat.sub_self _
  have hends := hstart ▸ ht.ends
  have hskip : language.lexis.skip (normalize text) tree.stop (normalize text).length =
      .ok (normalize text).length := ht.stop ▸ skip_end (normalize text)
  refine ⟨tree, hforall, ?_⟩
  by_cases hlimit : depthOf folds .choice n + 7 ≤ Language.depthLimit
  · exact .inl (Language.parse_of_run hb (EndsIn.run hlimit hends) hskip)
  · exact (Language.parse_of_ends hb (EndsIn.ends hends) hskip).imp_right
      fun hdeep => ⟨Nat.lt_of_not_le hlimit, hdeep⟩

end Documents
end OrderedBnf.MetaGrammar
