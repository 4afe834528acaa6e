import OrderedBnf.Proofs.Nesting
import OrderedBnf.Proofs.Reachability

/-! Parsing with a part of a grammar. -/
namespace OrderedBnf

def Grammar.restrict (grammar : Grammar) (names : List String) : Grammar :=
  ⟨grammar.entries.filter (names.contains ·.name),
    grammar.distinct.sublist (List.filter_sublist.map _)⟩

theorem Grammar.body?_restrict {grammar : Grammar} {names : List String} {name : String}
    (h : name ∈ names) : (grammar.restrict names).body? name = grammar.body? name := by
  have hfind : (grammar.restrict names).find? name = grammar.find? name := by
    rw [find?, find?, restrict, List.find?_filter]
    congr 1
    funext entry
    by_cases he : entry.name = name
    · simp [he, h]
    · simp [he]
  rw [body?, body?, hfind]

theorem Rule.mentions_branch {rule branch : Rule} (h : branch ∈ rule.branches) :
    branch.mentions ⊆ rule.mentions := by
  have hn : branch.nodes ⊆ rule.nodes :=
    nodes_subset (mem_nodes.2 (.inr ⟨branch, h, branch.self_mem_nodes⟩))
  refine List.map_subset _ fun node hm => ?_
  rw [List.mem_filter] at hm ⊢
  exact ⟨hn hm.1, hm.2⟩

theorem Rule.target_mem_mentions (o : Origin) :
    (leaf .reference o).target ∈ (leaf .reference o).mentions := by
  simp [mentions, nodes, kind, Leaf.kind]

namespace Reader
open Relation

def Closed (r : Reader) (names : List String) : Prop :=
  ∀ name ∈ names, ∀ body, r.grammar.body? name = some (some body) → body.mentions ⊆ names

section
variable {answer : Answers} {r : Reader} {names : List String}

/-- A rule tries only rules that mention names of a closed set. -/
theorem Tries.mentions {rule rule' : Rule} {start start' : Nat} (hc : r.Closed names)
    (ht : Tries answer r rule start rule' start') (h : rule.mentions ⊆ names) :
    rule'.mentions ⊆ names := by
  rcases ht.branch_or_body with hb | ⟨o, rfl, hb⟩
  · exact List.Subset.trans (Rule.mentions_branch hb) h
  · exact hc _ (h (Rule.target_mem_mentions o)) rule' hb

/-- No call asks for a rule outside names that mention no others. -/
theorem Reaches.mentions {c c' : Call} (hc : r.Closed names) (hr : r.Reaches c c')
    (h : c.rule.mentions ⊆ names) : c'.rule.mentions ⊆ names := by
  induction hr with
  | refl => exact h
  | tail _ hn ih =>
    cases hn with
    | intro _ ht => exact ht.mentions hc ih

/-- The rules outside such names have no part in a run. -/
theorem run_restrict (hc : r.Closed names) : ∀ (depth : Nat) (busy : List (Nat × Rule))
    {rule : Rule} (start : Nat), rule.mentions ⊆ names →
      run { r with grammar := r.grammar.restrict names } depth busy rule start =
        r.run depth busy rule start
  | 0, _, _, _, _ => rfl
  | depth + 1, busy, rule, start, h => by
    refine (run_congr_grammar (fun o ho => ?_) fun _ rule' start' ht => ?_).symm
    · subst ho
      exact Grammar.body?_restrict (h (Rule.target_mem_mentions o))
    · exact (run_restrict hc depth _ start' (ht.mentions hc h)).symm

end
end Reader

namespace Language
variable (language : Language) (start : String) (text : Text) (filename : Option String)

/-- The language with the rules that a start rule leads to, and its lexis as it is. -/
def reachableFrom : Language :=
  { language with grammar := language.grammar.restrict (language.grammar.reachable start) }

private theorem closed_reachable :
    (language.reader text).Closed (language.grammar.reachable start) :=
  fun _ hn _ hb => Grammar.mentions_reachable hn hb

/-- Rules that a start rule does not lead to have no part in a parse from it: without them it comes
to the same tree or the same diagnosis, and no call in its course, not even one that is given up
later, is for a reference to one of them. -/
theorem parse_reachable :
    (language.reachableFrom start).parse start text filename =
        language.parse start text filename ∧
      ∀ body, language.grammar.body? start = some (some body) →
        ∀ c o, (language.reader text).Reaches ⟨depthLimit, [], body, 0⟩ c →
          c.rule = .leaf .reference o → c.rule.target ∈ language.grammar.reachable start := by
  have hself := language.grammar.self_mem_reachable start
  have hclosed := language.closed_reachable start text
  have hbody : (language.reachableFrom start).grammar.body? start =
      language.grammar.body? start := Grammar.body?_restrict hself
  constructor
  · rw [parse, parse, hbody]
    dsimp only
    split
    · rfl
    · rfl
    · rename_i body hb
      have hrun : Reader.run ⟨(language.reachableFrom start).grammar,
            (language.reachableFrom start).lexis, text, text.length⟩ depthLimit [] body 0 =
          Reader.run ⟨language.grammar, language.lexis, text, text.length⟩ depthLimit [] body 0 :=
        Reader.run_restrict hclosed depthLimit [] 0 (Grammar.mentions_reachable hself hb)
      rw [hrun]
      rfl
  · intro body hb c o hr ho
    have hm := hr.mentions hclosed (Grammar.mentions_reachable hself hb)
    rw [ho] at hm ⊢
    exact hm (Rule.target_mem_mentions o)

end Language
end OrderedBnf
