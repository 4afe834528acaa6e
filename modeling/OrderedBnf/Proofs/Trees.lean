import OrderedBnf.Proofs.Answers
import OrderedBnf.Proofs.Terminals

/-! The trees that nodes yield: a leaf where its text stands, the tree of the rule that is meant,
or a node over trees each of which starts where the one before it ended. -/
namespace OrderedBnf
open Attempt

inductive Grammar.IsTerminal (grammar : Grammar) : Rule → Prop
  | leaf {form o} : form ≠ .reference → IsTerminal grammar (.leaf form o)
  | extension {o} : grammar.body? (Rule.leaf .reference o).target = some none →
      IsTerminal grammar (.leaf .reference o)

/-- Where the leaf that a terminal yields stands, when the terminal is tried from an offset. -/
inductive Reader.Placed (r : Reader) : Rule → Nat → Match → Prop
  | nothing {o start} : start ≤ r.text.length →
      Placed r (.leaf .literal o) start ⟨.token, start, start, .leaf .literal o⟩
  | newLine {o start} : start < r.stop → start < r.text.length →
      Placed r (.leaf .newLine o) start ⟨.token, start, start + 1, .leaf .newLine o⟩
  | word {form o start i kind stop} : form ≠ .newLine →
      r.lexis.skip r.text start r.stop = .ok i → i < stop → stop ≤ r.stop →
      stop ≤ r.text.length → Placed r (.leaf form o) start ⟨kind, i, stop, .leaf form o⟩
  | extension {o start i found} : r.lexis.skip r.text start r.stop = .ok i → i < r.stop →
      r.lexis.extend (.leaf .reference o) r.text i r.stop = .ok (some found) →
      0 ≤ found.start → found.start ≤ found.stop → found.stop ≤ r.text.length →
      Placed r (.leaf .reference o) start
        ⟨found.kind, found.start.toNat, found.stop.toNat, .leaf .reference o⟩

def InSuccession (good : Nat → ParseTree → Prop) : Nat → List ParseTree → Prop
  | _, [] => True
  | start, tree :: rest => good start tree ∧ InSuccession good tree.stop rest

inductive Reader.Builds (answer : Answers) (r : Reader) : Rule → Nat → ParseTree → Prop
  | leaf {rule start m} : r.Placed rule start m → Builds answer r rule start (.leaf m)
  | reference {o start body tree} :
      r.grammar.body? (Rule.leaf .reference o).target = some (some body) →
      answer body start (.ok tree) → Builds answer r (.leaf .reference o) start tree
  | node {rule start kind branches} :
      InSuccession (fun start tree => ∃ part ∈ rule.branches, answer part start (.ok tree)) start
        (branches.filterMap id) →
      Builds answer r rule start (.spanning kind rule start branches)

theorem InSuccession.imp {good good' : Nat → ParseTree → Prop}
    (h : ∀ start tree, good start tree → good' start tree) {trees : List ParseTree} :
    ∀ {start : Nat}, InSuccession good start trees → InSuccession good' start trees := by
  induction trees with
  | nil => exact fun _ => trivial
  | cons tree rest ih => exact fun hs => ⟨h _ _ hs.1, ih hs.2⟩

namespace ParseTree
variable (kind : Kind) (rule : Rule) (cursor : Nat) (branches : List (Option ParseTree))

private theorem foldl_max_mem (first : Nat) (rest : List Nat) :
    rest.foldl max first ∈ first :: rest := by
  induction rest generalizing first with
  | nil => simp
  | cons next rest ih =>
    rcases List.mem_cons.1 (ih (max first next)) with h | h
    · rw [List.foldl_cons, h]
      rcases Nat.le_total first next with hle | hle
      · simp [Nat.max_eq_right hle]
      · simp [Nat.max_eq_left hle]
    · simp [h]

/-- A node ends where it stands, if it has no branch, or where one of its branches does. -/
theorem spanning_stop :
    (spanning kind rule cursor branches).stop = cursor ∨
      ∃ tree, some tree ∈ branches ∧
        (spanning kind rule cursor branches).stop = tree.stop := by
  unfold spanning
  split
  · exact .inl rfl
  · rename_i first rest hb
    have hm := foldl_max_mem first.stop (rest.map ParseTree.stop)
    rw [← List.map_cons, ← hb] at hm
    obtain ⟨tree, ht, hs⟩ := List.mem_map.1 hm
    exact .inr ⟨tree, by simpa using ht, hs.symm⟩

end ParseTree

namespace Reader
section Views
variable {answer : Answers} {r : Reader} {rule body : Rule} {rules parts : List Rule} {start : Nat}

/-- Parts that match in turn succeed one another. -/
theorem InTurn.inSuccession {trees : List ParseTree}
    (ho : InTurn answer parts start (.ok trees)) :
    InSuccession (fun start tree => ∃ part ∈ parts, answer part start (.ok tree)) start trees := by
  generalize ho' : Except.ok trees = out at ho
  induction ho generalizing trees with
  | done =>
    cases ho'
    trivial
  | next ha _ ih =>
    cases ho'
    refine ⟨⟨_, List.mem_cons_self, ha⟩, (ih rfl).imp fun _ _ ⟨part, hp, hb⟩ => ?_⟩
    exact ⟨part, List.mem_cons_of_mem _ hp, hb⟩
  | _ => cases ho'

/-- Of the alternatives exactly one is filled. -/
theorem FirstOf.filled {places : List (Option ParseTree)}
    (ho : FirstOf answer rules start (.ok (.ok places))) :
    ∃ rule ∈ rules, ∃ tree, answer rule start (.ok tree) ∧ places.filterMap id = [tree] := by
  generalize ho' : (Except.ok (.ok places) :
    Except Halt (Except (List Failure) (List (Option ParseTree)))) = out at ho
  induction ho generalizing places with
  | here ha =>
    cases ho'
    exact ⟨_, List.mem_cons_self, _, ha, by simp⟩
  | later _ _ ih =>
    cases ho'
    obtain ⟨rule, hr, tree, ha, hp⟩ := ih rfl
    exact ⟨rule, List.mem_cons_of_mem _ hr, tree, ha, by simpa using hp⟩
  | _ => cases ho'

/-- The rounds of a repetition succeed one another. -/
theorem Again.inSuccession {trees : List ParseTree} (ho : Again answer start body (.ok trees)) :
    InSuccession (fun start tree => answer body start (.ok tree)) start trees := by
  generalize ho' : Except.ok trees = out at ho
  induction ho generalizing trees with
  | round ha _ _ ih =>
    cases ho'
    exact ⟨ha, ih rfl⟩
  | failed =>
    cases ho'
    trivial
  | stuck =>
    cases ho'
    trivial
  | _ => cases ho'

private theorem node_map {kind : Kind} {trees : List ParseTree}
    (h : InSuccession (fun start tree => ∃ part ∈ rule.branches, answer part start (.ok tree)) start
      trees) : Builds answer r rule start (.spanning kind rule start (trees.map some)) := by
  refine .node ?_
  rwa [List.filterMap_map, Function.id_comp, List.filterMap_some]

/-- What a terminal yields when it matches. -/
theorem Yields.placed {tree : ParseTree} (ho : Yields answer r rule start (.ok tree))
    (ht : r.grammar.IsTerminal rule) : ∃ m, tree = .leaf m ∧ r.Placed rule start m := by
  generalize ho' : Except.ok tree = out at ho
  cases ho with
  | literal =>
    rcases matchLiteral_ok ho'.symm with ⟨_, hs, rfl⟩ | ⟨i, hw, hi, hp, rfl⟩
    · exact ⟨_, rfl, .nothing hs⟩
    · obtain ⟨hs, hl⟩ := rest_prefix_bound hp hw
      have hlt := Nat.lt_add_of_pos_right (n := i) (List.length_pos_iff.2 hw)
      exact ⟨_, rfl, .word (by decide) hi hlt hs hl⟩
  | anyToken =>
    obtain ⟨i, last, hi, hlt, hs, hl, rfl⟩ := matchToken_ok ho'.symm
    exact ⟨_, rfl, .word (by decide) hi (Nat.lt_succ_of_lt hlt) hs hl⟩
  | anyIdentifier =>
    obtain ⟨i, c, rest, hi, hr, _, _, rfl⟩ := matchIdentifier_ok ho'.symm
    have hp : c :: rest.takeWhile isIdentifierChar <+: r.rest i :=
      hr ▸ (List.prefix_cons_inj c).2 (List.takeWhile_prefix _)
    obtain ⟨hs, hl⟩ := rest_prefix_bound hp (List.cons_ne_nil _ _)
    exact ⟨_, rfl, .word (by decide) hi (Nat.lt_add_of_pos_right (Nat.succ_pos _)) hs hl⟩
  | newLine =>
    obtain ⟨rest, hr, rfl⟩ := matchNewLine_ok ho'.symm
    have hp : ['\n'] <+: r.rest start := hr ▸ ⟨rest, rfl⟩
    obtain ⟨hs, hl⟩ := rest_prefix_bound hp (List.cons_ne_nil _ _)
    exact ⟨_, rfl, .newLine hs hl⟩
  | extension =>
    obtain ⟨i, found, hi, hs, hf, hstart, hstop, hl, rfl⟩ := matchExtension_ok ho'.symm
    exact ⟨_, rfl, .extension hi hs hf hstart hstop hl⟩
  | reference hb =>
    cases ht with
    | leaf hform => exact absurd rfl hform
    | extension hn => cases hb.symm.trans hn
  | undefined => cases ho'
  | _ => cases ht

/-- What a node yields when it matches. -/
theorem Yields.builds {tree : ParseTree} (ho : Yields answer r rule start (.ok tree)) :
    Builds answer r rule start tree := by
  by_cases ht : r.grammar.IsTerminal rule
  · obtain ⟨m, rfl, hp⟩ := ho.placed ht
    exact .leaf hp
  generalize ho' : Except.ok tree = out at ho
  cases ho with
  | literal | anyToken | anyIdentifier | newLine => exact absurd (.leaf (by decide)) ht
  | undefined => cases ho'
  | extension hb => exact absurd (.extension hb) ht
  | reference hb ha => exact .reference hb (ho' ▸ ha)
  | sequence ht =>
    cases ho'
    exact node_map ht.inSuccession
  | choice hf =>
    cases ho'
    obtain ⟨alternative, hr, tree, ha, hp⟩ := hf.filled
    refine .node ?_
    rw [hp]
    exact ⟨⟨alternative, hr, ha⟩, trivial⟩
  | present ha =>
    cases ho'
    exact .node ⟨⟨_, List.mem_singleton_self _, ha⟩, trivial⟩
  | absent =>
    cases ho'
    exact .node trivial
  | repetition hg =>
    cases ho'
    exact node_map (hg.inSuccession.imp fun _ _ ha => ⟨_, List.mem_singleton_self _, ha⟩)
  | _ => cases ho'

end Views
end Reader
end OrderedBnf
