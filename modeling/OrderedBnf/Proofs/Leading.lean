import OrderedBnf.Proofs.Coverage

/-! Where a parse tree starts. A node stands where its first branch does, and one that matched
nothing stands where it was tried, so a tree that begins with nothing starts in front of what was
skipped. -/
namespace OrderedBnf

namespace ParseTree

mutual
def leftmost : ParseTree → Match
  | .node m branches => leftmostOfAll m branches

def leftmostOfAll (m : Match) : List (Option ParseTree) → Match
  | [] => m
  | none :: rest => leftmostOfAll m rest
  | some tree :: _ => leftmost tree
end

theorem leftmostOfAll_eq (m : Match) (branches : List (Option ParseTree)) :
    leftmostOfAll m branches = ((branches.filterMap id).head?.map leftmost).getD m := by
  induction branches with
  | nil => rfl
  | cons branch rest ih =>
    cases branch with
    | none => simpa [leftmostOfAll] using ih
    | some tree => rfl

theorem leftmost_leaf (m : Match) : leftmost (.leaf m) = m := rfl

variable {kind : Kind} {rule : Rule} {cursor : Nat} {branches : List (Option ParseTree)}

theorem leftmost_spanning_nil (h : branches.filterMap id = []) :
    leftmost (.spanning kind rule cursor branches) = ⟨kind, cursor, cursor, rule⟩ := by
  unfold spanning
  rw [h, leftmost, leftmostOfAll_eq, h]
  rfl

theorem leftmost_spanning_cons {first : ParseTree} {rest : List ParseTree}
    (h : branches.filterMap id = first :: rest) :
    leftmost (.spanning kind rule cursor branches) = leftmost first := by
  unfold spanning
  rw [h, leftmost, leftmostOfAll_eq, h]
  rfl

/-- A tree starts with its leftmost label: that of its first leaf that matches some text, or one
that matched nothing where the tree was tried. -/
structure Leading (cursor : Nat) (tree : ParseTree) : Prop where
  start_eq : tree.start = tree.leftmost.start
  empty : tree.leftmost.isEmpty → tree.start = cursor
  token : tree.leftmost.isEmpty = false → tree.tokens.head? = some tree.leftmost

theorem leading_leaf {m : Match} (h : m.isEmpty → m.start = cursor) :
    Leading cursor (.leaf m) where
  start_eq := rfl
  empty := h
  token hm := by
    rw [leftmost_leaf] at hm ⊢
    rw [tokens_leaf, if_neg (Bool.eq_false_iff.1 hm), List.head?_cons]

theorem leading_spanning
    (h : ∀ first rest, branches.filterMap id = first :: rest → Leading cursor first) :
    Leading cursor (.spanning kind rule cursor branches) := by
  cases hb : branches.filterMap id with
  | nil =>
    have hleft := @leftmost_spanning_nil kind rule cursor branches hb
    have hstart : (spanning kind rule cursor branches).start = cursor := by
      rw [spanning, hb]
      rfl
    refine ⟨by rw [hleft, hstart], fun _ => hstart, fun hm => ?_⟩
    rw [hleft, Match.isEmpty, decide_eq_false_iff_not] at hm
    exact absurd rfl hm
  | cons first rest =>
    have hleft := @leftmost_spanning_cons kind rule cursor branches first rest hb
    obtain ⟨hstart, hempty, htoken⟩ := h first rest hb
    refine ⟨?_, ?_, ?_⟩ <;> rw [hleft]
    · rw [spanning_start hb, hstart]
    · rwa [spanning_start hb]
    · intro hm
      rw [tokens_spanning, hb, List.flatMap_cons, List.head?_append, htoken hm]
      rfl

end ParseTree

namespace Reader
open ParseTree
variable {answer : Answers} {r : Reader} {rule : Rule} {start : Nat} {tree : ParseTree}

theorem Placed.leading (hooks : r.lexis.Advances r.text r.stop) {m : Match}
    (h : r.Placed rule start m) : Leading start (.leaf m) := by
  refine leading_leaf fun hm => ?_
  rw [Match.isEmpty, decide_eq_true_eq] at hm
  cases h with
  | nothing => rfl
  | newLine => rfl
  | word _ _ hlt => exact absurd hm (Nat.ne_of_lt hlt)
  | extension _ hlt hf =>
    obtain ⟨hstart, hgt, -⟩ := hooks.extend hlt hf
    dsimp only at hm
    omega

/-- A tree starts with its leftmost label where its branches do. -/
theorem Builds.leading (hooks : r.lexis.Advances r.text r.stop)
    (h : ∀ rule start tree, answer rule start (.ok tree) → Leading start tree)
    (hb : Builds answer r rule start tree) : Leading start tree := by
  cases hb with
  | leaf hp => exact hp.leading hooks
  | reference _ ha => exact h _ _ _ ha
  | node hs =>
    refine leading_spanning fun first rest hf => ?_
    rw [hf] at hs
    exact h _ _ _ hs.1.choose_spec.2

theorem run_leading (hooks : r.lexis.Advances r.text r.stop) (depth : Nat)
    {busy : List (Nat × Rule)} (h : (r.run depth busy rule start).result = .ok tree) :
    Leading start tree :=
  run_builds (fun _ => Leading)
    (fun _ _ _ hy => hy.builds.leading hooks fun _ _ tree ha => ha tree rfl) depth h

end Reader

/-- A parse tree whose first leaf with some text is no line break starts with that leaf, where the
skipping from the start of the text leads to; unless first branches lead to a match of nothing, for
then the tree starts where the text does. -/
theorem Language.parse_leading {language : Language} {start : String} {text : Text}
    {filename : Option String} {tree : ParseTree} {m : Match}
    (hooks : language.lexis.Advances text text.length)
    (h : language.parse start text filename = .ok tree) (hm : tree.tokens.head? = some m)
    (hline : ∀ o, m.rule ≠ .leaf .newLine o) :
    language.lexis.skip text 0 text.length = .ok m.start ∧
      tree.start = if tree.leftmost.isEmpty then 0 else m.start := by
  obtain ⟨body, -, ho, -⟩ := parse_ok h
  have hcovers := Reader.run_covered (r := language.reader text) hooks depthLimit ho (Nat.zero_le _)
  have hleading := Reader.run_leading (r := language.reader text) hooks depthLimit ho
  obtain ⟨rest, htokens⟩ := List.head?_eq_some_iff.1 hm
  rw [htokens] at hcovers
  constructor
  · cases hcovers with
    | next hf =>
      rw [Reader.Follows] at hf
      split at hf
      · exact absurd ‹_› (hline _)
      · exact hf
  · split
    · exact hleading.empty ‹_›
    · rename_i hne
      have hfirst := hleading.token (Bool.eq_false_iff.2 hne)
      rw [hleading.start_eq, Option.some.inj (hfirst.symm.trans hm)]

def optionalFront : Language where
  grammar :=
    let written := "[ 'a' ] 'b'".toList
    let part (start stop : Nat) : Origin := ⟨start, stop, false, none, written⟩
    .ofList [("S", some (.sequence [.optional (.leaf .literal (part 2 5)) (part 0 7),
      .leaf .literal (part 8 11)] (part 0 11)))]
  lexis := .plain

theorem optional_front_leading : ∃ tree m,
    optionalFront.parse "S" " a b".toList none = .ok tree ∧ tree.tokens.head? = some m ∧
      optionalFront.lexis.skip " a b".toList 0 4 = .ok m.start ∧ tree.start = m.start := by
  have h : optionalFront.parse "S" " a b".toList none = .ok _ := rfl
  obtain ⟨hskip, hstart⟩ := Language.parse_leading (Lexis.plain_advances _ _) h rfl nofun
  exact ⟨_, _, h, rfl, hskip, hstart⟩

/-- Left out, the word in front stands at the start of the text, and so does the tree, which covers
the blank before its first character. -/
theorem optional_front_blank : optionalFront.lexis.Advances " b".toList 2 ∧
    ∃ tree m, optionalFront.parse "S" " b".toList none = .ok tree ∧ tree.tokens.head? = some m ∧
      (∀ o, m.rule ≠ .leaf .newLine o) ∧ optionalFront.lexis.skip " b".toList 0 2 = .ok 1 ∧
        m.start = 1 ∧ tree.start = 0 :=
  ⟨Lexis.plain_advances _ _, _, _, rfl, rfl, nofun, rfl, rfl, rfl⟩

end OrderedBnf
