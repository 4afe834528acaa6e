import OrderedBnf.Proofs.NotationReading

/-! The rules of a document, one after another, each from its own line to the end of a line. -/
namespace OrderedBnf.MetaGrammar
open Reader

inductive Bodied (terminal : Leaf → Text → Prop) (apart : Text → Prop) (depth : Nat) : Text → Prop
  | nothing : Bodied terminal apart depth []
  | expression {lead e body} : Layout lead → Spread terminal (spacing apart) depth .choice [e] body →
      Bodied terminal apart depth (lead ++ body)

structure Ruled (text : Text) (terminal : Leaf → Text → Prop) (apart : Text → Prop)
    (tree : ParseTree) (name gap body : Text) : Prop where
  named : (Tree.label tree).ruleName? = some "Rule"
  first : ∃ t rest, Tree.branches tree = some t :: rest ∧ ParseTree.start t = tree.start ∧
    text.window (ParseTree.start t) (ParseTree.stop t) = name
  isName : language.lexis.IsName name
  spaces : Spaces gap
  bodied {depth : Nat} : Tree.height tree ≤ 4 * depth → Bodied terminal apart depth body
  covered : text.window tree.start tree.stop = name ++ gap ++ ':' :: (body ++ ['\n'])

variable {text : Text} {title : Option String} {sketch : Sketch} {start : Nat} {tree : ParseTree}
  {trees : List ParseTree} {terminal : Leaf → Text → Prop} {apart : Text → Prop}

theorem Read.bodied (h : Read text title
      (.optional (.sequence [.optional (.rule "Continuation"), .rule "Expression"])) start tree)
    (hregular : Regular text terminal apart tree) :
    start ≤ tree.stop ∧ ∀ {depth : Nat}, Tree.height tree ≤ 4 * depth →
      Bodied terminal apart depth (text.window start tree.stop) := by
  rcases h.optional with ⟨m, rfl, -, -, hstop⟩ | ⟨m, t, rfl, -, -, hstop, ht⟩
  · refine ⟨Nat.le_of_eq hstop.symm, fun _ => ?_⟩
    change Bodied terminal apart _ (text.window start m.stop)
    rw [hstop, text.window_self]
    exact .nothing
  · obtain ⟨m', lead, ts, rfl, -, hstart', hstop', hlead, hrest⟩ := ht.sequence
    cases hrest with
    | @cons _ _ _ body _ hbody hrest =>
      cases hrest
      have hmem : some body ∈ Tree.branches (.node m' (some lead :: [body].map some)) := by
        simp [Tree.branches]
      have hmem' : some (.node m' (some lead :: [body].map some)) ∈
        Tree.branches (.node m [some (.node m' (some lead :: [body].map some))]) :=
          List.mem_cons_self
      have hlt := (Tree.height_branch_lt hmem).trans (Tree.height_branch_lt hmem')
      obtain ⟨hle, hlayout⟩ := hlead.optional_continuation
      have hend : m.stop = body.stop := hstop.trans hstop'
      have hstart : start ≤ m.stop := by
        rw [hend]
        exact Nat.le_trans hle (Nat.le_trans hbody.ahead hbody.le)
      refine ⟨hstart, fun {depth} hheight => ?_⟩
      obtain ⟨e, he⟩ := spreads depth (Nat.le_of_lt (hlt.trans_le hheight)) hbody
        ((hregular.branch hmem').branch hmem)
      change Bodied terminal apart depth (text.window start m.stop)
      rw [hend, text.window_append (Nat.le_trans hle hbody.ahead) hbody.le,
        text.window_append hle hbody.ahead]
      exact .expression (List.forall_mem_append.2 ⟨hlayout, hbody.gap.layout⟩) he

/-- A tree of a rule has a name, a gap and a body. -/
theorem Read.ruled (h : Read text title (.rule "Rule") start tree)
    (hregular : Regular text terminal apart tree) :
    ∃ name gap body, Ruled text terminal apart tree name gap body := by
  have hr := h.rule rfl
  obtain ⟨m, first, ts, rfl, htitle, hstart, hstop, hfirst, hrest⟩ := hr.sequence
  cases hrest with
  | @cons _ _ _ colon _ hcolon hrest =>
    cases hrest with
    | @cons _ _ _ body _ hbody hrest =>
      cases hrest with
      | @cons _ _ _ last _ hlast hrest =>
        cases hrest
        have hmem : some body ∈ Tree.branches (.node m (some first ::
            [colon, body, last].map some)) := by simp [Tree.branches]
        obtain ⟨name, hword, hname, -⟩ := hfirst.identifier
        obtain ⟨-, hlastStop, hbreak, -⟩ := hlast.newLine
        obtain ⟨hle, hbodied⟩ := hbody.bodied (hregular.branch hmem)
        have hcolonWord := (hcolon.word (List.cons_ne_nil _ _)).1
        refine ⟨name, text.window first.stop colon.start, text.window colon.stop body.stop, htitle,
          ⟨first, _, rfl, hstart.symm, hword⟩, hname, hcolon.gap,
          fun h => hbodied (Nat.le_trans (Nat.le_of_lt (Tree.height_branch_lt hmem)) h), ?_⟩
        change text.window m.start m.stop = _
        rw [hstart, show m.stop = body.stop + 1 from hstop.trans hlastStop]
        have h₁ := hfirst.le
        have h₂ := hcolon.ahead
        have h₃ := hcolon.le
        rw [text.window_append (b := first.stop) (by omega) (by omega), hword,
          text.window_append (b := colon.start) (by omega) (by omega),
          text.window_append (a := colon.start) (b := colon.stop) (by omega) (by omega), hcolonWord,
          text.window_append (a := colon.stop) (b := body.stop) (by omega) (by omega), hbreak]
        simp

/-- Rules from an offset to the end of the text, with line breaks after each of them. -/
inductive RulesFrom (text : Text) : Nat → List ParseTree → Prop
  | done {start : Nat} : text.length ≤ start → RulesFrom text start []
  | next {start next n : Nat} {rule : ParseTree} {rules : List ParseTree} :
      Read text none (.rule "Rule") start rule → rule.stop ≤ next →
      text.window rule.stop next = List.replicate n '\n' → RulesFrom text next rules →
      RulesFrom text start (rule :: rules)

section Names

def bodyRules : List String :=
  ["Expression", "Alternative", "Sequence", "Atom", "Literal", "DoubleQuoted", "Continuation",
    "Group", "Optional", "Repetition", "Reserved"]

theorem bodyRules_closed : sketches.all fun (name, sketch) =>
    !bodyRules.contains name || sketch.all fun sketch => sketch.mentions.all bodyRules.contains := by
  decide

theorem bodyRules_defined {name : String} (hn : name ∈ bodyRules) :
    ∃ sketch, sketches.lookup name = some sketch := by
  have hall : bodyRules.all fun name => (sketches.lookup name).isSome := by decide
  exact Option.isSome_iff_exists.1 (List.all_eq_true.1 hall name hn)

theorem bodyRules_mentions {name : String} {sketch : Sketch} (hn : name ∈ bodyRules)
    (hs : sketches.lookup name = some (some sketch)) : sketch.mentions ⊆ bodyRules := by
  obtain ⟨before, after, he, -⟩ := List.lookup_eq_some_iff.1 hs
  have hall := List.all_eq_true.1 bodyRules_closed (name, some sketch) (by simp [he])
  simp only [List.contains_iff_mem.2 hn, Bool.not_true, Bool.false_or, Option.all_some,
    List.all_eq_true] at hall
  exact fun name hm => List.contains_iff_mem.1 (hall name hm)

/-- A tree is no rule of a document if neither its own rule nor any that it refers to is. -/
theorem not_rule (h : Read text title sketch start tree) (hm : sketch.mentions ⊆ bodyRules)
    (ht : title ≠ some "Rule") :
    ∀ t ∈ Tree.subtrees tree, (Tree.label t).ruleName? ≠ some "Rule" := by
  obtain ⟨-, rule, his, hf⟩ := h
  refine Fits.ind (motive := fun rule _ tree => ∀ {title sketch}, rule.is title sketch →
    sketch.mentions ⊆ bodyRules → title ≠ some "Rule" →
    ∀ t ∈ Tree.subtrees tree, (Tree.label t).ruleName? ≠ some "Rule")
    (fun rule start tree hf title sketch his hm ht => ?_) hf his hm ht
  cases hf with
  | leaf hmatch =>
    intro t htree
    obtain rfl : t = .leaf _ := by simpa [Tree.leaf, Tree.subtrees, Tree.subtreesOfAll] using htree
    exact fun hname => ht ((Rule.name?_of_is his).symm.trans
      ((congrArg Rule.name? hmatch.rule_eq).symm.trans hname))
  | @reference o _ body _ hb hf =>
    cases sketch with
    | rule name =>
      obtain ⟨o', he, htarget⟩ := Rule.is_rule his
      cases he
      have hname : name ∈ bodyRules := hm List.mem_cons_self
      obtain ⟨sketch, hs⟩ := bodyRules_defined hname
      have hb : grammar.body? (Rule.leaf .reference o).target = some (some body) := hb
      rw [htarget] at hb
      cases sketch with
      | none =>
        rw [body?_extension hs] at hb
        cases hb
      | some sketch =>
        obtain ⟨body', hb', hbody⟩ := body?_of_sketch hs
        cases hb.symm.trans hb'
        refine hf.2 hbody (bodyRules_mentions hname hs) ?_
        rintro ⟨⟩
        exact absurd hname (by decide)
    | _ => simp [Rule.is] at his
  | @node rule start m branches hb hk hr hspan =>
    intro t htree
    rw [Tree.subtrees, Tree.subtreesOfAll_eq] at htree
    rcases List.mem_cons.1 htree with rfl | htree
    · exact fun hname => ht ((Rule.name?_of_is his).symm.trans
        ((congrArg Rule.name? hr).symm.trans hname))
    · obtain ⟨branch, hbranch, htree⟩ := List.mem_flatMap.1 htree
      obtain ⟨part, hpart, _, hf⟩ := hb.mem (by simpa using hbranch : some branch ∈ branches)
      obtain ⟨s, hs, his⟩ := Rule.is_part his hpart
      exact hf.2 his (fun _ h => hm (Sketch.mentions_of_part hs h)) (by simp) t htree

end Names

/-- The rules of a document, as nodes of its tree. -/
def rulesOf (tree : ParseTree) : List ParseTree :=
  (Tree.subtrees tree).filter fun t => (Tree.label t).ruleName? = some "Rule"

section Documents

theorem rulesOf_eq_nil
    (h : ∀ t ∈ Tree.subtrees tree, (Tree.label t).ruleName? ≠ some "Rule") : rulesOf tree = [] := by
  rw [rulesOf, List.filter_eq_nil_iff]
  simpa using h

theorem rulesOf_node {m : Match} {branches : List (Option ParseTree)} :
    rulesOf (.node m branches) =
      (if m.ruleName? = some "Rule" then [.node m branches] else []) ++
        (branches.filterMap id).flatMap rulesOf := by
  rw [rulesOf, Tree.subtrees, Tree.subtreesOfAll_eq, List.filter_cons, List.filter_flatMap]
  change (if decide (m.ruleName? = some "Rule") = true then _ else _) = _
  by_cases hm : m.ruleName? = some "Rule" <;> simp [hm] <;> rfl

/-- There is no rule within a rule. -/
theorem Read.rulesOf_rule (h : Read text title (.rule "Rule") start tree) :
    rulesOf tree = [tree] := by
  have hr := h.rule rfl
  obtain ⟨m, first, ts, rfl, htitle, -, -, hfirst, hrest⟩ := hr.sequence
  have hbranches : (some first :: ts.map some).filterMap id = first :: ts := by
    simp [List.filterMap_map]
  rw [rulesOf_node, htitle, if_pos rfl, hbranches, List.flatMap_eq_nil_iff.2, List.append_nil]
  intro t ht
  refine rulesOf_eq_nil ?_
  cases hrest with
  | @cons _ _ _ colon _ hcolon hrest =>
    cases hrest with
    | @cons _ _ _ body _ hbody hrest =>
      cases hrest with
      | @cons _ _ _ last _ hlast hrest =>
        cases hrest
        simp only [List.mem_cons, List.not_mem_nil, or_false] at ht
        rcases ht with rfl | rfl | rfl | rfl
        · exact not_rule hfirst (by decide) (by simp)
        · exact not_rule hcolon (by decide) (by simp)
        · exact not_rule hbody (by decide) (by simp)
        · exact not_rule hlast (by decide) (by simp)

theorem Read.rulesOf_breaks (h : Read text none (.repetition .newLine) start tree) :
    rulesOf tree = [] :=
  rulesOf_eq_nil (not_rule h (by decide) (by simp))

/-- Rules with line breaks after each of them, round by round. -/
theorem ReadRounds.rulesFrom
    (h : ReadRounds text (.sequence [.rule "Rule", .repetition .newLine]) start trees)
    (hend : text.length ≤ lastStop start trees) :
    RulesFrom text start (trees.flatMap rulesOf) := by
  induction h with
  | nil => exact .done hend
  | @cons start tree trees h _ ih =>
    rw [lastStop_cons] at hend
    obtain ⟨m, rule, ts, rfl, hname, hstart, hstop, hrule, hrest⟩ := h.sequence
    cases hrest with
    | @cons _ _ _ breaks _ hbreaks hrest =>
      cases hrest
      obtain ⟨hle, n, hnewLines⟩ := hbreaks.newLines
      have hstop : ParseTree.stop (.node m (some rule :: [breaks].map some)) = breaks.stop := hstop
      rw [List.flatMap_cons, rulesOf_node, hname, if_neg (by simp)]
      rw [hstop] at ih hend
      have hrules : [some rule, some breaks].filterMap id = [rule, breaks] := rfl
      rw [List.map_singleton, hrules, List.flatMap_cons, List.flatMap_singleton,
        hrule.rulesOf_rule, hbreaks.rulesOf_breaks]
      exact .next hrule hle hnewLines (ih hend)

/-- Nothing is skipped after the line break that ends a text. -/
theorem length_le_of_skip {stop : Nat} (hend : text.getLast? = some '\n')
    (h : language.lexis.skip text start text.length = .ok stop) (hstop : text.length ≤ stop) :
    text.length ≤ start := by
  refine Nat.le_of_not_lt fun hlt => ?_
  have h : skipWhile (fun c => c = ' ' || c = '\t') text start text.length = .ok stop := h
  rw [skipWhile_eq] at h
  cases h
  have hall : (text.drop start).takeWhile (fun c => c = ' ' || c = '\t') = text.drop start := by
    refine (List.takeWhile_prefix _).eq_of_length_le ?_
    rw [List.length_drop]
    omega
  have hlast : '\n' ∈ text.drop start := by
    refine List.mem_of_getLast? ?_
    rw [List.getLast?_drop, if_neg (by omega), hend]
  rw [← hall] at hlast
  simpa using List.mem_takeWhile_imp hlast

/-- A document is line breaks and rules. -/
theorem parse_rulesFrom {filename : Option String} (hend : text.getLast? = some '\n')
    (h : language.parse "Grammar" text filename = .ok tree) :
    ∃ start n, text.window 0 start = List.replicate n '\n' ∧
      RulesFrom text start (rulesOf tree) := by
  obtain ⟨body, hb, hrun, stop, hskip, hstop⟩ := Language.parse_ok h
  obtain ⟨_, hb', hbody⟩ :=
    body?_of_sketch (show sketches.lookup "Grammar" = some (some _) from rfl)
  cases hb'.symm.trans hb
  have hread : Read text (some "Grammar") _ 0 tree := ⟨Nat.zero_le _, body, hbody,
    run_fits (r := language.reader text) (advances text) _ hrun (Nat.zero_le _)⟩
  have hwhole := length_le_of_skip hend hskip hstop
  obtain ⟨m, breaks, ts, rfl, hname, hstart, hstop, hbreaks, hrest⟩ := hread.sequence
  cases hrest with
  | @cons _ _ _ rest _ hrest hnil =>
    cases hnil
    obtain ⟨m', trees, rfl, hname', hspan, hrounds⟩ := hrest.repetition
    obtain ⟨hle, n, hnewLines⟩ := hbreaks.newLines
    refine ⟨breaks.stop, n, hnewLines, ?_⟩
    have hrules := hrounds.rulesFrom (by
      rw [← show m'.stop = lastStop breaks.stop trees from hspan.2]
      exact (show m.stop = m'.stop from hstop) ▸ hwhole)
    have hbranches : [some breaks, some (.node m' (trees.map some))].filterMap id =
      [breaks, .node m' (trees.map some)] := rfl
    rw [rulesOf_node, hname, if_neg (by decide), List.map_singleton, hbranches, List.flatMap_cons,
      List.flatMap_singleton, hbreaks.rulesOf_breaks, rulesOf_node, hname', if_neg (by simp),
      List.filterMap_map, Function.id_comp, List.filterMap_some]
    exact hrules

end Documents

end OrderedBnf.MetaGrammar
