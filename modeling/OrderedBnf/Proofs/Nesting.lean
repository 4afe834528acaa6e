import Mathlib.Data.List.Dedup
import Mathlib.Data.List.Perm.Subperm
import Mathlib.Data.List.ProdSigma
import Mathlib.Logic.Relation
import OrderedBnf.Proofs.Runs

/-! The calls that are open at one time while a node is matched. No two of them are for the same
node and offset, so there is a bound on how deep they nest. -/
namespace OrderedBnf

namespace Rule

theorem self_mem_nodes (rule : Rule) : rule ∈ rule.nodes := by
  cases rule <;> simp [nodes]

theorem mem_nodesOfAll {rules : List Rule} {node : Rule} :
    node ∈ nodesOfAll rules ↔ ∃ rule ∈ rules, node ∈ rule.nodes := by
  induction rules with
  | nil => simp [nodesOfAll]
  | cons rule rest ih => simp [nodesOfAll, ih]

theorem mem_nodes {rule node : Rule} :
    node ∈ rule.nodes ↔ node = rule ∨ ∃ branch ∈ rule.branches, node ∈ branch.nodes := by
  cases rule <;> simp [nodes, branches, mem_nodesOfAll]

mutual
theorem nodes_subset : ∀ {rule node : Rule}, node ∈ rule.nodes → node.nodes ⊆ rule.nodes
  | leaf _ _, node, h => by
    rcases List.mem_singleton.1 h with rfl
    exact List.Subset.refl _
  | sequence rules _, node, h => by
    rcases List.mem_cons.1 h with rfl | h
    · exact List.Subset.refl _
    · exact List.subset_cons_of_subset _ (nodesOfAll_subset h)
  | choice rules _, node, h => by
    rcases List.mem_cons.1 h with rfl | h
    · exact List.Subset.refl _
    · exact List.subset_cons_of_subset _ (nodesOfAll_subset h)
  | optional body _, node, h => by
    rcases List.mem_cons.1 h with rfl | h
    · exact List.Subset.refl _
    · exact List.subset_cons_of_subset _ (nodes_subset h)
  | repetition body _, node, h => by
    rcases List.mem_cons.1 h with rfl | h
    · exact List.Subset.refl _
    · exact List.subset_cons_of_subset _ (nodes_subset h)

theorem nodesOfAll_subset : ∀ {rules : List Rule} {node : Rule}, node ∈ nodesOfAll rules →
    node.nodes ⊆ nodesOfAll rules
  | [], _, h => absurd h List.not_mem_nil
  | rule :: rest, node, h => by
    rcases List.mem_append.1 h with h | h
    · exact List.subset_append_of_subset_left _ (nodes_subset h)
    · exact List.subset_append_of_subset_right _ (nodesOfAll_subset h)
end

end Rule

namespace Grammar
variable {grammar : Grammar}

theorem mem_bodies {name : String} {body : Rule} (h : grammar.body? name = some (some body)) :
    body ∈ grammar.bodies := by
  obtain ⟨entry, he, hb⟩ := Option.map_eq_some_iff.1 h
  exact List.mem_filterMap.2 ⟨entry, List.mem_of_find?_eq_some he, hb⟩

def nodes (grammar : Grammar) : List Rule := grammar.bodies.flatMap Rule.nodes

theorem nodes_subset {rule : Rule} (h : rule ∈ grammar.nodes) : rule.nodes ⊆ grammar.nodes := by
  obtain ⟨body, hb, hm⟩ := List.mem_flatMap.1 h
  exact List.Subset.trans (Rule.nodes_subset hm) fun node hn => List.mem_flatMap.2 ⟨body, hb, hn⟩

theorem mem_nodes {rule branch : Rule} (h : rule ∈ grammar.nodes) (hb : branch ∈ rule.branches) :
    branch ∈ grammar.nodes :=
  nodes_subset h (Rule.mem_nodes.2 (.inr ⟨branch, hb, branch.self_mem_nodes⟩))

theorem body_mem_nodes {name : String} {body : Rule}
    (h : grammar.body? name = some (some body)) : body ∈ grammar.nodes :=
  List.mem_flatMap.2 ⟨body, mem_bodies h, body.self_mem_nodes⟩

end Grammar

namespace Reader
open Attempt Relation

section Trying
variable {answer : Answers} {r : Reader} {rule rule' : Rule} {rules parts : List Rule}
  {start start' : Nat}

private theorem Part.mem {part : Rule} (hp : Part answer parts start part start') :
    part ∈ parts := by
  induction hp with
  | first => exact List.mem_cons_self
  | later _ _ ih => exact List.mem_cons_of_mem _ ih

theorem Alternative.mem (hp : Alternative answer rules start rule) : rule ∈ rules := by
  induction hp with
  | first => exact List.mem_cons_self
  | later _ _ ih => exact List.mem_cons_of_mem _ ih

def nodesWith (r : Reader) (rule : Rule) : List Rule :=
  (r.grammar.bodies.flatMap Rule.nodes ++ rule.nodes).dedup

theorem self_mem_nodesWith : rule ∈ r.nodesWith rule := by
  simp [nodesWith, rule.self_mem_nodes]

/-- What a node tries is one of its branches, or the body of the rule that it refers to. -/
theorem Tries.branch_or_body (ht : Tries answer r rule start rule' start') :
    rule' ∈ rule.branches ∨
      ∃ o, rule = .leaf .reference o ∧ r.grammar.body? rule.target = some (some rule') := by
  cases ht with
  | reference hb => exact .inr ⟨_, rfl, hb⟩
  | sequence hp => exact .inl hp.mem
  | choice hp => exact .inl hp.mem
  | optional => exact .inl (List.mem_singleton.2 rfl)
  | repetition => exact .inl (List.mem_singleton.2 rfl)

theorem Tries.mem_nodesWith {root : Rule} (ht : Tries answer r rule start rule' start')
    (h : rule ∈ r.nodesWith root) : rule' ∈ r.nodesWith root := by
  have hb : rule' ∈ rule.branches ∨ rule' ∈ r.grammar.bodies :=
    ht.branch_or_body.imp_right fun ⟨_, _, hb⟩ => Grammar.mem_bodies hb
  simp only [nodesWith, List.mem_dedup, List.mem_append, List.mem_flatMap] at h ⊢
  rcases hb with hb | hb
  · have hn : rule' ∈ rule.nodes := Rule.mem_nodes.2 (.inr ⟨rule', hb, rule'.self_mem_nodes⟩)
    rcases h with ⟨body, hbody, h⟩ | h
    · exact .inl ⟨body, hbody, Rule.nodes_subset h hn⟩
    · exact .inr (Rule.nodes_subset h hn)
  · exact .inl ⟨rule', hb, rule'.self_mem_nodes⟩

end Trying

/-- A call of the descent: how many nodes deep it may go, the calls open around it, innermost
first, and the node to be matched from an offset. The end of the range is the reader's, and so the
same in all calls. -/
structure Call where
  depth : Nat
  busy : List (Nat × Rule)
  rule : Rule
  start : Nat

/-- A call that the guard lets through makes one call for each node that is tried. -/
inductive Nests (r : Reader) : Call → Call → Prop
  | intro {depth busy rule start rule' start'} : (start, rule) ∉ busy →
      Tries (answers (r.run depth ((start, rule) :: busy))) r rule start rule' start' →
      Nests r ⟨depth + 1, busy, rule, start⟩ ⟨depth, (start, rule) :: busy, rule', start'⟩

abbrev Reaches (r : Reader) : Call → Call → Prop := ReflTransGen (Nests r)

variable {r : Reader} {rule : Rule} {start depth : Nat} {c : Call}

theorem Reaches.depth_add (h : r.Reaches ⟨depth, [], rule, start⟩ c) :
    c.depth + c.busy.length = depth := by
  induction h with
  | refl => rfl
  | tail _ hn ih =>
    cases hn
    simp only [List.length_cons] at ih ⊢
    omega

/-- No two of the calls that are open together are the same. -/
theorem Reaches.nodup (h : r.Reaches ⟨depth, [], rule, start⟩ c) : c.busy.Nodup := by
  induction h with
  | refl => exact List.nodup_nil
  | tail _ hn ih =>
    cases hn with
    | intro hb => exact List.nodup_cons.2 ⟨hb, ih⟩

/-- Open calls are about nodes of the grammar or of the rule asked for, at offsets that its start
leads to. -/
theorem Reaches.asked (h : r.Reaches ⟨depth, [], rule, start⟩ c) :
    ∀ key ∈ (c.start, c.rule) :: c.busy, r.Lands start key.1 ∧ key.2 ∈ r.nodesWith rule := by
  induction h with
  | refl =>
    rintro key hk
    cases List.mem_singleton.1 hk
    exact ⟨.inr rfl, self_mem_nodesWith⟩
  | tail _ hn ih =>
    cases hn with
    | intro hb ht =>
      intro key hk
      rcases List.mem_cons.1 hk with rfl | hk
      · obtain ⟨hl, hm⟩ := ih _ List.mem_cons_self
        exact ⟨hl.trans (ht.lands (run_lands _ _)), ht.mem_nodesWith hm⟩
      · exact ih key hk

/-- The open calls are pairwise different, so they are no more than there are nodes and offsets. -/
theorem Reaches.length_busy_le (h : r.Reaches ⟨depth, [], rule, start⟩ c) (offsets : List Nat)
    (ho : ∀ offset, r.Lands start offset → offset ∈ offsets) :
    c.busy.length ≤ (r.nodesWith rule).length * offsets.length := by
  have hs : c.busy ⊆ offsets ×ˢ r.nodesWith rule := fun key hk => by
    obtain ⟨hl, hm⟩ := h.asked key (List.mem_cons_of_mem _ hk)
    exact List.mem_product.2 ⟨ho _ hl, hm⟩
  calc c.busy.length
      ≤ (offsets ×ˢ r.nodesWith rule).length := (h.nodup.subperm hs).length_le
    _ = (r.nodesWith rule).length * offsets.length := by rw [List.length_product, Nat.mul_comm]

/-- The number of calls that can be open at one time, the one that the guard refuses included. -/
def openLimit (r : Reader) (rule : Rule) : Nat :=
  (r.nodesWith rule).length * (r.text.length + 1) + 1

/-- Fewer calls are open at a time than the limit says. -/
theorem Reaches.length_busy_lt (h : r.Reaches ⟨depth, [], rule, start⟩ c)
    (hs : start ≤ r.text.length) : c.busy.length < r.openLimit rule := by
  have hb := h.length_busy_le (List.range (r.text.length + 1)) fun offset hl => by
    exact List.mem_range.2 (Nat.lt_succ_of_le (hl.le_length hs))
  rw [List.length_range] at hb
  exact Nat.lt_succ_of_le hb

def Deep (r : Reader) (c : Call) : Prop := ∀ c', r.Reaches c c' → 0 < c'.depth

/-- A run with room for as many open calls never runs out of depth. -/
theorem deep_of_openLimit (hs : start ≤ r.text.length) (hd : r.openLimit rule ≤ depth) :
    r.Deep ⟨depth, [], rule, start⟩ := by
  intro c h
  have := h.length_busy_lt hs
  have := h.depth_add
  omega

theorem length_nodesWith_le (r : Reader) (rule : Rule) : (r.nodesWith rule).length ≤
    (r.grammar.bodies.flatMap Rule.nodes).length + rule.nodes.length := by
  rw [← List.length_append]
  exact (List.dedup_sublist _).length_le

theorem openLimit_le_depthBound : r.openLimit rule ≤ r.depthBound rule := by
  have h := Nat.mul_le_mul (length_nodesWith_le r rule)
    (Nat.le_succ (r.text.length + 1))
  exact Nat.succ_le_succ h

/-- The bound on the depth is never reached, wherever the match starts. -/
theorem deep_of_depthBound : r.Deep ⟨r.depthBound rule, [], rule, start⟩ := by
  intro c h
  have hb := h.length_busy_le (start :: List.range (r.text.length + 1))
    fun offset hl => by
      rw [List.mem_cons, List.mem_range]
      unfold Lands at hl
      omega
  have hn := Nat.mul_le_mul_right (r.text.length + 2) (length_nodesWith_le r rule)
  have ha := h.depth_add
  rw [List.length_cons, List.length_range] at hb
  unfold depthBound at ha
  change c.busy.length ≤ (r.nodesWith rule).length * (r.text.length + 2) at hb
  omega

theorem Deep.nested {c' : Call} (hd : r.Deep c) (hn : Nests r c c') : r.Deep c' :=
  fun c'' h => hd c'' (.head hn h)

/-- A run that does not run out of depth is the same with more of it. -/
theorem run_add_of_deep (more : Nat) : ∀ (depth : Nat) {busy : List (Nat × Rule)} {rule : Rule}
    {start : Nat}, r.Deep ⟨depth, busy, rule, start⟩ →
      r.run (depth + more) busy rule start = r.run depth busy rule start
  | 0, _, _, _, hd => absurd (hd _ .refl) (Nat.lt_irrefl 0)
  | depth + 1, busy, rule, start, hd => by
    rw [Nat.add_right_comm]
    refine (run_congr fun hb rule' start' ht => ?_).symm
    exact (run_add_of_deep more depth (hd.nested (.intro hb ht))).symm

end Reader
end OrderedBnf
