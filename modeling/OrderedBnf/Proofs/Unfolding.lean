import Mathlib.Data.List.Perm.Subperm
import OrderedBnf.Tree.Draft
import OrderedBnf.Proofs.Coverage
import OrderedBnf.Proofs.Written

/-! The trees that drafts unfold to. -/
namespace OrderedBnf

namespace Draft
open OrderedBnf.Tree (label height)
variable {d : Draft} {tree : Tree Nat}

/-- A tree of numbers whose nodes have the branches that they have in a draft. A node has such a
tree where no way along branches comes back to where it has been. -/
inductive Unfolds (d : Draft) : Tree Nat → Prop
  | node {i : Nat} {branches : List (Option (Tree Nat))} :
      (d.node i).branches = branches.map (Option.map label) →
      (∀ t, some t ∈ branches → Unfolds d t) → Unfolds d (.node i branches)

/-- A draft unfolds to one tree from each place. -/
theorem Unfolds.unique (h : d.Unfolds tree) :
    ∀ {other : Tree Nat}, d.Unfolds other → label other = label tree → other = tree := by
  induction h with
  | @node i branches hb _ ih =>
    rintro _ (@⟨i, others, ho, hs⟩) rfl
    refine congrArg _ (List.ext_getElem? fun n => ?_)
    have hn := congrArg (·[n]?) (ho.symm.trans hb)
    simp only [List.getElem?_map] at hn
    cases hbranch : branches[n]? with
    | none => simpa [hbranch] using hn
    | some branch =>
      cases branch with
      | none => simpa [hbranch] using hn
      | some t =>
        obtain ⟨_, hother, hlabel⟩ : ∃ t', others[n]? = some (some t') ∧ label t' = label t := by
          simpa [hbranch, Option.map_eq_some_iff] using hn
        rw [hother, ih t (List.mem_of_getElem? hbranch) (hs _ (List.mem_of_getElem? hother)) hlabel]

theorem Unfolds.exists_of_mem (h : d.Unfolds tree) : ∀ k ∈ tree.walk,
    ∃ t, d.Unfolds t ∧ label t = k ∧ height t ≤ height tree := by
  induction h with
  | @node i branches hb hs ih =>
    intro k hk
    rcases List.mem_cons.1 hk with rfl | hk
    · exact ⟨_, .node hb hs, rfl, Nat.le_refl _⟩
    · obtain ⟨branch, hbranch, hk⟩ := Tree.mem_walkAll.1 hk
      obtain ⟨t, ht, hlabel, hle⟩ := ih branch hbranch k hk
      have hlt := @Tree.height_branch_lt _ branch (.node i branches) hbranch
      exact ⟨t, ht, hlabel, Nat.le_trans hle (Nat.le_of_lt hlt)⟩

theorem Unfolds.not_mem_branch {i : Nat} {branches : List (Option (Tree Nat))}
    (h : d.Unfolds (.node i branches)) {branch : Tree Nat} (hbranch : some branch ∈ branches)
    (hunfolds : d.Unfolds branch) : i ∉ branch.walk := by
  intro hmem
  obtain ⟨t, ht, hlabel, hle⟩ := hunfolds.exists_of_mem i hmem
  obtain rfl := h.unique ht hlabel
  exact Nat.not_lt.2 hle (Tree.height_branch_lt hbranch)

theorem node_of_le {i : Nat} (hi : d.nodes.length ≤ i) : d.node i = blank := by
  rw [Draft.node, List.getD_eq_getElem?_getD, List.getElem?_eq_none hi, Option.getD_none]

/-- The nodes that a way has passed are all different, so it is at most as long as the draft. -/
theorem Unfolds.grow (h : d.Unfolds tree) : ∀ {depth : Nat} {passed : List Nat}, passed.Nodup →
    (∀ k ∈ passed, k < d.nodes.length) → (∀ k ∈ tree.walk, k ∉ passed) →
    d.nodes.length ≤ depth + passed.length → d.grow depth (label tree) = tree := by
  induction h with
  | @node i branches hb hs ih =>
    intro depth passed hnodup hknown hfresh hdepth
    have hnode : d.Unfolds (.node i branches) := .node hb hs
    rcases Nat.lt_or_ge i d.nodes.length with hi | hi
    · have hnodup' : (i :: passed).Nodup :=
        List.nodup_cons.2 ⟨hfresh i List.mem_cons_self, hnodup⟩
      have hknown' : ∀ k ∈ i :: passed, k < d.nodes.length := List.forall_mem_cons.2 ⟨hi, hknown⟩
      have hlength := (List.subperm_of_subset hnodup'
        fun k hk => List.mem_range.2 (hknown' k hk)).length_le
      rw [List.length_cons, List.length_range] at hlength
      obtain ⟨depth, rfl⟩ : ∃ n, depth = n + 1 := ⟨depth - 1, by omega⟩
      rw [label, Draft.grow, hb, List.map_map]
      refine congrArg _ ((List.map_congr_left fun branch hbranch => ?_).trans (List.map_id _))
      cases branch with
      | none => rfl
      | some t =>
        refine congrArg some (ih t hbranch hnodup' hknown' (fun k hk => ?_) ?_)
        · rw [List.mem_cons, not_or]
          refine ⟨fun he => ?_, hfresh k ?_⟩
          · exact hnode.not_mem_branch hbranch (hs t hbranch) (he ▸ hk)
          · exact List.mem_cons_of_mem _ (Tree.mem_walkAll.2 ⟨t, hbranch, hk⟩)
        · rw [List.length_cons]
          omega
    · have hnone : branches = [] := by simpa [node_of_le hi, blank] using hb.symm
      subst hnone
      cases depth with
      | zero => rfl
      | succ depth => rw [label, Draft.grow, hb, List.map_nil, List.map_nil]

/-- The tree that a draft unfolds to is the one that is read off it. -/
theorem Unfolds.tree_eq (h : d.Unfolds tree) : d.tree (label tree) = tree :=
  h.grow List.nodup_nil (by simp) (by simp) (Nat.le_refl _)

end Draft

end OrderedBnf
