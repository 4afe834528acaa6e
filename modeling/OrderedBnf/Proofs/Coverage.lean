import OrderedBnf.Proofs.Runs

/-! No text is lost between the leaves of a parse tree, and none is matched twice. -/
namespace OrderedBnf

/-- Hooks that keep to the range they look at: skipping leads to an offset of the range, and an
extension matches some text from the offset it is asked about on. -/
structure Lexis.Advances (lexis : Lexis) (text : Text) (stop : Nat) : Prop where
  skip {start i : Nat} : start ≤ stop → lexis.skip text start stop = .ok i → start ≤ i ∧ i ≤ stop
  extend {rule : Rule} {start : Nat} {found : Found} : start < stop →
    lexis.extend rule text start stop = .ok (some found) →
    found.start = start ∧ start < found.stop ∧ found.stop ≤ stop

/-- Skipping stays within the range it looks at. -/
theorem skipWhile_within {p : Char → Bool} {text : Text} {start stop i : Nat} (hs : start ≤ stop)
    (h : skipWhile p text start stop = .ok i) : start ≤ i ∧ i ≤ stop := by
  have hl := (List.takeWhile_prefix (l := text.window start stop) p).length_le
  rw [Text.length_window] at hl
  unfold skipWhile at h
  dsimp only at h
  split at h
  · cases h
  · cases h
    omega

/-- Plain hooks keep to the range they look at. -/
theorem Lexis.plain_advances (text : Text) (stop : Nat) : Lexis.plain.Advances text stop where
  skip := skipWhile_within
  extend _ h := by cases h

namespace Tree
variable {α : Type}

theorem subtreesOfAll_eq (branches : List (Option (Tree α))) :
    subtreesOfAll branches = (branches.filterMap id).flatMap subtrees := by
  induction branches with
  | nil => rfl
  | cons branch rest ih => cases branch <;> simp [subtreesOfAll, ih]

theorem self_mem_subtrees (tree : Tree α) : tree ∈ subtrees tree := by
  cases tree
  exact List.mem_cons_self

theorem subtrees_subset {branch tree : Tree α} (h : some branch ∈ branches tree) :
    subtrees branch ⊆ subtrees tree := by
  cases tree with
  | node label branches =>
    intro t ht
    rw [subtrees, subtreesOfAll_eq]
    refine List.mem_cons_of_mem _ (List.mem_flatMap.2 ⟨branch, ?_, ht⟩)
    exact List.mem_filterMap.2 ⟨some branch, h, rfl⟩

mutual
def height : Tree α → Nat
  | node _ branches => heightOfAll branches + 1

def heightOfAll : List (Option (Tree α)) → Nat
  | [] => 0
  | none :: rest => heightOfAll rest
  | some t :: rest => max (height t) (heightOfAll rest)
end

theorem heightOfAll_le_iff {branches : List (Option (Tree α))} {n : Nat} :
    heightOfAll branches ≤ n ↔ ∀ t, some t ∈ branches → height t ≤ n := by
  induction branches with
  | nil => simp [heightOfAll]
  | cons branch rest ih =>
    cases branch with
    | none => simp [heightOfAll, ih]
    | some t =>
      rw [heightOfAll, Nat.max_le, ih]
      simp

theorem height_branch_lt {branch tree : Tree α} (h : some branch ∈ branches tree) :
    height branch < height tree := by
  cases tree with
  | node label branches =>
    exact Nat.lt_succ_of_le (heightOfAll_le_iff.1 (Nat.le_refl _) branch h)

theorem mem_subtrees_node {label : α} {branches : List (Option (Tree α))} {t : Tree α} :
    t ∈ subtrees (.node label branches) ↔
      t = .node label branches ∨ ∃ branch, some branch ∈ branches ∧ t ∈ subtrees branch := by
  rw [subtrees, subtreesOfAll_eq, List.mem_cons, List.mem_flatMap]
  refine or_congr_right (exists_congr fun branch => and_congr_left fun _ => ?_)
  simp

/-- A subtree of a subtree is a subtree. -/
theorem subtrees_trans {t : Tree α} : ∀ {tree : Tree α}, t ∈ subtrees tree →
    subtrees t ⊆ subtrees tree
  | .node label branches, h => by
    rcases mem_subtrees_node.1 h with rfl | ⟨branch, hb, ht⟩
    · exact fun _ h => h
    · exact fun _ h => mem_subtrees_node.2 (.inr ⟨branch, hb, subtrees_trans ht h⟩)
  termination_by tree => tree
  decreasing_by
    have := List.sizeOf_lt_of_mem hb
    simp only [Tree.node.sizeOf_spec, Option.some.sizeOf_spec] at *
    omega

end Tree

namespace ParseTree

def tokens (tree : ParseTree) : List Match :=
  ((Tree.subtrees tree).filter fun node =>
    (Tree.branches node).isEmpty && !(Tree.label node).isEmpty).map Tree.label

theorem tokens_leaf (m : Match) : tokens (.leaf m) = if m.isEmpty then [] else [m] := by
  cases h : m.isEmpty <;> simp [tokens, Tree.leaf, Tree.subtrees, Tree.subtreesOfAll,
    Tree.branches, Tree.label, h]

/-- The tokens of a node are those of its branches, in order. -/
theorem tokens_spanning (kind : Kind) (rule : Rule) (cursor : Nat)
    (branches : List (Option ParseTree)) :
    tokens (.spanning kind rule cursor branches) = (branches.filterMap id).flatMap tokens := by
  have hsub : tokens (.spanning kind rule cursor branches) =
      ((Tree.subtreesOfAll branches).filter fun node =>
        (Tree.branches node).isEmpty && !(Tree.label node).isEmpty).map Tree.label := by
    unfold spanning tokens
    split
    · simp [Tree.subtrees, Tree.branches, Tree.label, Match.isEmpty]
    · rename_i first rest hb
      have hne : branches ≠ [] := by
        rintro rfl
        cases hb
      simp [Tree.subtrees, Tree.branches, hne]
  rw [hsub, Tree.subtreesOfAll_eq, List.filter_flatMap, List.map_flatMap]
  rfl

theorem spanning_stop_eq {kind : Kind} {rule : Rule} {cursor : Nat}
    {branches : List (Option ParseTree)}
    (h : ∀ first rest, branches.filterMap id = first :: rest → cursor ≤ first.stop) :
    (spanning kind rule cursor branches).stop =
      ((branches.filterMap id).map stop).foldl max cursor := by
  unfold spanning
  split
  · rename_i hb
    rw [hb]
    rfl
  · rename_i first rest hb
    rw [hb, List.map_cons, List.foldl_cons, Nat.max_eq_right (h first rest hb)]
    rfl

section Spanning
variable {kind : Kind} {rule : Rule} {cursor : Nat} {branches : List (Option ParseTree)}

theorem spanning_branches : Tree.branches (spanning kind rule cursor branches) = branches := by
  unfold spanning
  split <;> rfl

theorem spanning_kind : (Tree.label (spanning kind rule cursor branches)).kind = kind := by
  unfold spanning
  split <;> rfl

theorem spanning_rule : (Tree.label (spanning kind rule cursor branches)).rule = rule := by
  unfold spanning
  split <;> rfl

theorem spanning_start {first : ParseTree} {rest : List ParseTree}
    (h : branches.filterMap id = first :: rest) :
    (spanning kind rule cursor branches).start = first.start := by
  rw [spanning, h]
  rfl

/-- Whatever its branches, a spanning node is a node over them. -/
theorem spanning_node : ∃ m : Match,
    spanning kind rule cursor branches = .node m branches ∧ m.kind = kind ∧ m.rule = rule := by
  unfold spanning
  split <;> exact ⟨_, rfl, rfl, rfl⟩

end Spanning

end ParseTree

namespace Reader

/-- The branches of a choice are one among absent ones. -/
theorem filterMap_single (before after : List Rule) (tree : ParseTree) :
    (before.map (fun _ => none) ++ some tree :: after.map fun _ => none).filterMap id = [tree] := by
  have hnone (rules : List Rule) : rules.filterMap (fun _ => (none : Option ParseTree)) = [] :=
    List.filterMap_eq_nil_iff.2 fun _ _ => rfl
  simp only [List.filterMap_append, List.filterMap_cons, List.filterMap_map, Function.comp_def, id,
    hnone, List.nil_append]

/-- A match that comes next after a cursor: where skipping leads to, or, when it is for a line
break, right there. -/
def Follows (r : Reader) (cursor : Nat) (m : Match) : Prop :=
  match m.rule with
  | .leaf .newLine _ => m.start = cursor
  | _ => r.lexis.skip r.text cursor r.stop = .ok m.start

/-- Matches that lie one after another from a cursor on, with nothing but skipped text between
them, up to the end of the last. -/
inductive Covers (r : Reader) : Nat → List Match → Nat → Prop
  | done {cursor} : Covers r cursor [] cursor
  | next {cursor m rest stop} : r.Follows cursor m → cursor ≤ m.start → m.start < m.stop →
      m.stop ≤ r.stop → Covers r m.stop rest stop → Covers r cursor (m :: rest) stop

namespace Covers
variable {r : Reader} {cursor middle stop : Nat} {ms more : List Match}

theorem le (h : r.Covers cursor ms stop) : cursor ≤ stop := by
  induction h with
  | done => exact Nat.le_refl _
  | next _ hc hm _ _ ih => exact Nat.le_trans (Nat.le_trans hc (Nat.le_of_lt hm)) ih

theorem le_stop (h : r.Covers cursor ms stop) (hc : cursor ≤ r.stop) : stop ≤ r.stop := by
  induction h with
  | done => exact hc
  | next _ _ _ hs _ ih => exact ih hs

/-- What is covered up to where the rest begins is covered with the rest. -/
theorem append (h : r.Covers cursor ms middle) (h' : r.Covers middle more stop) :
    r.Covers cursor (ms ++ more) stop := by
  induction h with
  | done => exact h'
  | next hf hc hm hs _ ih => exact .next hf hc hm hs (ih h')

theorem start_le (h : r.Covers cursor ms stop) : ∀ m ∈ ms, cursor ≤ m.start := by
  induction h with
  | done => exact fun _ hm => absurd hm List.not_mem_nil
  | next _ hc hm _ _ ih =>
    intro m' hm'
    rcases List.mem_cons.1 hm' with rfl | hm'
    · exact hc
    · exact Nat.le_trans (Nat.le_trans hc (Nat.le_of_lt hm)) (ih m' hm')

/-- Tokens that cover a text do not overlap. -/
theorem pairwise (h : r.Covers cursor ms stop) : ms.Pairwise fun a b => a.stop ≤ b.start := by
  induction h with
  | done => exact .nil
  | next _ _ _ _ hrest ih => exact .cons hrest.start_le ih

end Covers

section Matching
variable {answer : Answers} {r : Reader} {rule : Rule} {start : Nat} {tree : ParseTree}

def Covered (r : Reader) (start : Nat) (tree : ParseTree) : Prop :=
  start ≤ r.stop → r.Covers start tree.tokens tree.stop

/-- A match that is placed where skipping leads covers the text up to its end. -/
theorem Placed.covered (hooks : r.lexis.Advances r.text r.stop) {m : Match}
    (h : r.Placed rule start m) : r.Covered start (.leaf m) := by
  intro hs
  rw [ParseTree.tokens_leaf]
  cases h with
  | nothing =>
    rw [if_pos (by simp [Match.isEmpty])]
    exact .done
  | @newLine o _ hlt =>
    rw [if_neg (by simp [Match.isEmpty])]
    exact .next rfl (Nat.le_refl _) (Nat.lt_succ_self _) hlt .done
  | @word form o _ i kind stop hform hi hlt hstop =>
    have hf : r.Follows start ⟨kind, i, stop, .leaf form o⟩ := by
      cases form with
      | newLine => exact absurd rfl hform
      | _ => exact hi
    rw [if_neg (by simpa [Match.isEmpty] using Nat.ne_of_lt hlt)]
    exact .next hf (hooks.skip hs hi).1 hlt hstop .done
  | @extension o _ i found hi hlt hf =>
    obtain ⟨hstart, hgt, hstop⟩ := hooks.extend hlt hf
    have hfs : found.start.toNat = i := by omega
    rw [hfs, if_neg (by simp only [Match.isEmpty, decide_eq_true_eq]; omega)]
    refine .next hi (hooks.skip hs hi).1 ?_ ?_ .done <;> dsimp only <;> omega

/-- Trees that succeed one another cover the text together. -/
private theorem InSuccession.covers {good : Nat → ParseTree → Prop}
    (h : ∀ start tree, good start tree → r.Covered start tree) {trees : List ParseTree} :
    ∀ {start : Nat}, InSuccession good start trees → start ≤ r.stop →
      r.Covers start (trees.flatMap ParseTree.tokens)
        ((trees.map ParseTree.stop).foldl max start) := by
  induction trees with
  | nil => exact fun _ _ => .done
  | cons tree rest ih =>
    intro start hg hs
    have hc := h start tree hg.1 hs
    rw [List.flatMap_cons, List.map_cons, List.foldl_cons, Nat.max_eq_right hc.le]
    exact hc.append (ih hg.2 (hc.le_stop hs))

/-- A tree covers its text where its branches cover theirs. -/
theorem Builds.covered (hooks : r.lexis.Advances r.text r.stop)
    (h : ∀ rule start tree, answer rule start (.ok tree) → r.Covered start tree)
    (hb : Builds answer r rule start tree) : r.Covered start tree := by
  cases hb with
  | leaf hp => exact hp.covered hooks
  | reference _ ha => exact h _ _ _ ha
  | node hg =>
    intro hs
    have hgood := fun start tree (ha : ∃ part ∈ rule.branches, answer part start (.ok tree)) =>
      h _ start tree ha.choose_spec.2
    rw [ParseTree.tokens_spanning, ParseTree.spanning_stop_eq]
    · exact InSuccession.covers hgood hg hs
    · intro first rest hf
      rw [hf] at hg
      exact (hgood start first hg.1 hs).le

/-- The tree of a run covers the text from where the run has started. -/
theorem run_covered (hooks : r.lexis.Advances r.text r.stop) (depth : Nat)
    {busy : List (Nat × Rule)} (h : (r.run depth busy rule start).result = .ok tree) :
    r.Covered start tree :=
  run_builds (fun _ start tree => r.Covered start tree)
    (fun _ _ _ hy => hy.builds.covered hooks fun _ _ tree ha => ha tree rfl) depth h

end Matching
end Reader

/-- The leaves of a parse tree that match some text lie one after another from the start of the
text to the end of the tree, with nothing between them but what was skipped; and nothing comes
after the tree but what can be skipped. -/
theorem Language.parse_covers {language : Language} {start : String} {text : Text}
    {filename : Option String} {tree : ParseTree}
    (hooks : language.lexis.Advances text text.length)
    (h : language.parse start text filename = .ok tree) :
    (language.reader text).Covers 0 tree.tokens tree.stop ∧
      (tree.tokens.Pairwise fun a b => a.stop ≤ b.start) ∧
      ∃ stop, language.lexis.skip text tree.stop text.length = .ok stop ∧ text.length ≤ stop := by
  obtain ⟨body, -, ho, hrest⟩ := parse_ok h
  have hc := Reader.run_covered (r := language.reader text) hooks depthLimit ho (Nat.zero_le _)
  exact ⟨hc, hc.pairwise, hrest⟩

def twoLines : Language where
  grammar :=
    let written := "'a' NEW_LINE IDENTIFIER".toList
    let part (start stop : Nat) : Origin := ⟨start, stop, false, none, written⟩
    .ofList [("Lines", some (.sequence [.leaf .literal (part 0 3), .leaf .newLine (part 4 12),
      .leaf .anyIdentifier (part 13 23)] (part 0 23)))]
  lexis := .plain

theorem two_lines_covered : ∃ tree, twoLines.parse "Lines" " a\n b".toList none = .ok tree ∧
    tree.tokens.map (fun m => (m.start, m.stop)) = [(1, 2), (2, 3), (4, 5)] ∧
    (twoLines.reader " a\n b".toList).Covers 0 tree.tokens tree.stop := by
  have h : twoLines.parse "Lines" " a\n b".toList none = .ok _ := rfl
  exact ⟨_, h, rfl, (Language.parse_covers (Lexis.plain_advances _ _) h).1⟩

end OrderedBnf
