import Mathlib.Data.List.Basic
import Mathlib.Data.List.Pairwise
import OrderedBnf.Tree.Decoration

/-! Trees whose ranges nest, and how their non-empty nodes lie to one another. -/
namespace OrderedBnf

namespace Tree
variable {α : Type}

def deeper (more : Nat) (n : Nat × α) : Nat × α := (n.1 + more, n.2)

mutual
theorem levels_add (depth more : Nat) : ∀ tree : Tree α,
    levels (depth + more) tree = (levels depth tree).map (deeper more)
  | node a branches => by
    rw [levels, levels, Nat.add_right_comm, levelsOfAll_add (depth + 1) more branches]
    rfl

theorem levelsOfAll_add (depth more : Nat) : ∀ branches : List (Option (Tree α)),
    levelsOfAll (depth + more) branches = (levelsOfAll depth branches).map (deeper more)
  | [] => rfl
  | none :: rest => by
    rw [levelsOfAll, levelsOfAll, levelsOfAll_add depth more rest]
    rfl
  | some t :: rest => by
    rw [levelsOfAll, levelsOfAll, List.map_append, levels_add depth more t,
      levelsOfAll_add depth more rest]
end

end Tree

/-- No node ends before it starts, and the branches of a node lie within it, one after another. -/
inductive Tree.WellFormed : Tree Mark → Prop
  | node {m branches} : m.start ≤ m.stop →
      (∀ t, some t ∈ branches → m.start ≤ (Tree.label t).start ∧ (Tree.label t).stop ≤ m.stop) →
      ((branches.filterMap id).Pairwise fun a b => (Tree.label a).stop ≤ (Tree.label b).start) →
      (∀ t, some t ∈ branches → WellFormed t) → WellFormed (.node m branches)

namespace Tree

mutual
def isWellFormed : Tree Mark → Bool
  | node m branches => m.start ≤ m.stop && areInOrder m.start m.stop branches

def areInOrder (cursor stop : Int) : List (Option (Tree Mark)) → Bool
  | [] => true
  | none :: rest => areInOrder cursor stop rest
  | some t :: rest =>
    isWellFormed t && (cursor ≤ (label t).start && ((label t).stop ≤ stop &&
      areInOrder (label t).stop stop rest))
end

theorem WellFormed.le {tree : Tree Mark} (h : tree.WellFormed) :
    (Tree.label tree).start ≤ (Tree.label tree).stop := by
  cases h with
  | node hle => exact hle

mutual
theorem isWellFormed_iff : ∀ tree : Tree Mark, tree.isWellFormed ↔ tree.WellFormed
  | node m branches => by
    rw [isWellFormed, Bool.and_eq_true, decide_eq_true_eq, areInOrder_iff]
    constructor
    · rintro ⟨hle, hin, hord⟩
      exact .node hle (fun t ht => (hin t ht).2) hord fun t ht => (hin t ht).1
    · rintro (⟨hle, hin, hord, hwf⟩)
      exact ⟨hle, fun t ht => ⟨hwf t ht, hin t ht⟩, hord⟩

theorem areInOrder_iff {stop : Int} : ∀ {cursor : Int} (branches : List (Option (Tree Mark))),
    areInOrder cursor stop branches ↔
      (∀ t, some t ∈ branches → t.WellFormed ∧ cursor ≤ (label t).start ∧ (label t).stop ≤ stop) ∧
        (branches.filterMap id).Pairwise fun a b => (label a).stop ≤ (label b).start
  | _, [] => by simp [areInOrder]
  | cursor, none :: rest => by
    rw [areInOrder, areInOrder_iff rest]
    simp
  | cursor, some t :: rest => by
    have hmem {t : Tree Mark} : t ∈ rest.filterMap id ↔ some t ∈ rest := by simp
    have hpresent : (some t :: rest).filterMap id = t :: rest.filterMap id := rfl
    rw [areInOrder, Bool.and_eq_true, Bool.and_eq_true, Bool.and_eq_true, decide_eq_true_eq,
      decide_eq_true_eq, isWellFormed_iff t, areInOrder_iff rest, hpresent, List.pairwise_cons]
    constructor
    · rintro ⟨hw, hs, hst, hin, hord⟩
      refine ⟨fun t' ht' => ?_, fun t' ht' => (hin t' (hmem.1 ht')).2.1, hord⟩
      rcases List.mem_cons.1 ht' with ht' | ht'
      · obtain rfl := Option.some.inj ht'
        exact ⟨hw, hs, hst⟩
      · obtain ⟨hw', hs', hst'⟩ := hin t' ht'
        exact ⟨hw', Int.le_trans hs (Int.le_trans hw.le hs'), hst'⟩
    · rintro ⟨hin, hfirst, hord⟩
      obtain ⟨hw, hs, hst⟩ := hin t List.mem_cons_self
      refine ⟨hw, hs, hst, fun t' ht' => ?_, hord⟩
      obtain ⟨hw', -, hst'⟩ := hin t' (List.mem_cons_of_mem _ ht')
      exact ⟨hw', hfirst t' (hmem.2 ht'), hst'⟩
end

instance (tree : Tree Mark) : Decidable tree.WellFormed :=
  decidable_of_iff _ (isWellFormed_iff tree)

end Tree

def Tree.solid (tree : Tree Mark) (depth : Nat) : List (Nat × Mark) :=
  (tree.levels depth).filterMap fun (depth, m?) => (m?.filter (!·.isEmpty)).map (depth, ·)

namespace Render

/-- A node is followed by nodes within it and below it, and by nodes to its right. -/
def Precedes (a b : Nat × Mark) : Prop :=
  a.1 < b.1 ∧ a.2.start ≤ b.2.start ∧ b.2.stop ≤ a.2.stop ∨ a.2.stop ≤ b.2.start

section Branches
variable {m : Mark} {branches : List (Option (Tree Mark))} (depth : Nat)

theorem solid_levelsOfAll : (Tree.levelsOfAll depth branches).filterMap
    (fun (depth, m?) => (m?.filter (!·.isEmpty)).map (depth, ·)) =
      (branches.filterMap id).flatMap (Tree.solid · depth) := by
  induction branches with
  | nil => rfl
  | cons branch rest ih => cases branch <;> simp [Tree.levelsOfAll, Tree.solid, ih]

theorem solid_node : (Tree.node m branches).solid depth =
    (if m.isEmpty then [] else [(depth, m)]) ++
      (branches.filterMap id).flatMap (Tree.solid · (depth + 1)) := by
  rw [← solid_levelsOfAll, Tree.solid, Tree.levels]
  cases h : m.isEmpty <;> simp [Option.filter, h]

theorem solid_add (tree : Tree Mark) (more : Nat) :
    tree.solid (depth + more) = (tree.solid depth).map (Tree.deeper more) := by
  rw [Tree.solid, Tree.solid, Tree.levels_add, List.filterMap_map, List.map_filterMap]
  apply List.filterMap_congr
  rintro ⟨d, m?⟩ -
  cases m? with
  | none => rfl
  | some m => cases h : m.isEmpty <;> simp [Option.filter, Tree.deeper, h]

theorem marksOfAll_eq : marksOfAll depth branches = (branches.filterMap id).flatMap fun t =>
    if (Tree.label t).isEmpty then [] else marks depth t := by
  induction branches with
  | nil => simp [marksOfAll]
  | cons branch rest ih =>
    cases branch with
    | none => simp [marksOfAll, ih]
    | some t =>
      cases t
      simp only [marksOfAll, marks, ih]
      rfl

theorem hiddenOfAll_eq : hiddenOfAll branches = (branches.filterMap id).flatMap fun t =>
    if (Tree.label t).isEmpty then [] else hidden t := by
  induction branches with
  | nil => simp [hiddenOfAll]
  | cons branch rest ih =>
    cases branch with
    | none => simp [hiddenOfAll, ih]
    | some t =>
      cases t
      simp only [hiddenOfAll, hidden, ih]
      rfl

end Branches

variable {tree : Tree Mark}

private theorem mem_branches {branches : List (Option (Tree Mark))} {t : Tree Mark} :
    t ∈ branches.filterMap id ↔ some t ∈ branches := by
  simp

/-- The nodes that are not empty lie within the tree. -/
theorem solid_within (h : tree.WellFormed) : ∀ {depth : Nat}, ∀ n ∈ tree.solid depth,
    depth ≤ n.1 ∧ (Tree.label tree).start ≤ n.2.start ∧ n.2.start < n.2.stop ∧
      n.2.stop ≤ (Tree.label tree).stop := by
  induction h with
  | @node m branches hle hin _ _ ih =>
    intro depth n hn
    rw [solid_node, List.mem_append, List.mem_flatMap] at hn
    rcases hn with hn | ⟨t, ht, hn⟩
    · split at hn
      · cases hn
      · rename_i he
        obtain rfl := List.mem_singleton.1 hn
        have hne : m.start ≠ m.stop := by simpa [Mark.isEmpty] using he
        exact ⟨Nat.le_refl _, Int.le_refl _, Int.lt_iff_le_and_ne.2 ⟨hle, hne⟩, Int.le_refl _⟩
    · rw [mem_branches] at ht
      obtain ⟨hd, hs, hlt, hst⟩ := ih t ht n hn
      obtain ⟨hs', hst'⟩ := hin t ht
      exact ⟨by omega, Int.le_trans hs' hs, hlt, Int.le_trans hst hst'⟩

theorem solid_eq_nil (h : tree.WellFormed) (he : (Tree.label tree).isEmpty) (depth : Nat) :
    tree.solid depth = [] := by
  rw [List.eq_nil_iff_forall_not_mem]
  intro n hn
  obtain ⟨_, hs, hlt, hst⟩ := solid_within h n hn
  simp only [Mark.isEmpty, decide_eq_true_eq] at he
  omega

theorem solid_precedes (h : tree.WellFormed) : ∀ depth, (tree.solid depth).Pairwise Precedes := by
  induction h with
  | @node m branches hle hin hord hwf ih =>
    intro depth
    rw [solid_node, List.pairwise_append, List.pairwise_flatMap]
    refine ⟨?_, ⟨fun t ht => ih t (mem_branches.1 ht) _, ?_⟩, ?_⟩
    · split
      · exact .nil
      · exact List.pairwise_singleton _ _
    · refine hord.imp_of_mem fun {a b} ha hb hab x hx y hy => .inr ?_
      obtain ⟨_, _, _, hxs⟩ := solid_within (hwf a (mem_branches.1 ha)) x hx
      obtain ⟨_, hys, _, _⟩ := solid_within (hwf b (mem_branches.1 hb)) y hy
      omega
    · intro x hx y hy
      obtain ⟨t, ht, hy⟩ := List.mem_flatMap.1 hy
      rw [mem_branches] at ht
      obtain ⟨hd, hs, _, hst⟩ := solid_within (hwf t ht) y hy
      obtain ⟨hs', hst'⟩ := hin t ht
      split at hx
      · cases hx
      · obtain rfl := List.mem_singleton.1 hx
        exact .inl ⟨hd, Int.le_trans hs' hs, Int.le_trans hst hst'⟩

theorem solid_nodup (h : tree.WellFormed) (depth : Nat) : (tree.solid depth).Nodup := by
  refine (solid_precedes h depth).imp_of_mem fun {a b} ha _ hab => ?_
  rintro rfl
  have hlt := (solid_within h a ha).2.2.1
  rcases hab with ⟨hd, -⟩ | hab
  · exact Nat.lt_irrefl _ hd
  · omega

/-- Of two nodes one lies within the other or to its right. -/
theorem solid_comparable (h : tree.WellFormed) {depth : Nat} {a b : Nat × Mark}
    (ha : a ∈ tree.solid depth) (hb : b ∈ tree.solid depth) (hne : a ≠ b) :
    Precedes a b ∨ Precedes b a := by
  have hsymm : Std.Symm fun a b => Precedes a b ∨ Precedes b a := ⟨fun _ _ => Or.symm⟩
  have hall : (tree.solid depth).Pairwise fun a b => Precedes a b ∨ Precedes b a :=
    (solid_precedes h depth).imp Or.inl
  exact hall.forall ha hb hne

/-- The nodes that are gathered from a tree that is not empty are those that are not. -/
theorem marks_eq_solid (h : tree.WellFormed) : ∀ depth, ¬ (Tree.label tree).isEmpty →
    marks depth tree = tree.solid depth := by
  induction h with
  | @node m branches _ _ _ hwf ih =>
    intro depth he
    have hb : ∀ t ∈ branches.filterMap id,
        (if (Tree.label t).isEmpty then [] else marks (depth + 1) t) = t.solid (depth + 1) := by
      intro t ht
      rw [mem_branches] at ht
      split
      · rename_i hte
        exact (solid_eq_nil (hwf t ht) hte _).symm
      · rename_i hte
        exact ih t ht _ hte
    replace he : ¬ m.isEmpty = true := he
    rw [marks, marksOfAll_eq, solid_node, if_neg he, List.singleton_append]
    exact congrArg _ (List.flatMap_congr hb)

/-- Every outermost hidden node is a hidden node that is not empty. -/
theorem hidden_solid (h : tree.WellFormed) : ∀ depth, ¬ (Tree.label tree).isEmpty →
    ∀ m ∈ hidden tree, m.hidden ∧ ∃ n ∈ tree.solid depth, n.2 = m := by
  induction h with
  | @node m branches _ _ _ _ ih =>
    intro depth he m' hm
    replace he : ¬ m.isEmpty = true := he
    rw [solid_node, if_neg he]
    rw [hidden] at hm
    split at hm
    · rename_i hh
      obtain rfl := List.mem_singleton.1 hm
      exact ⟨hh, _, List.mem_cons_self, rfl⟩
    · rw [hiddenOfAll_eq, List.mem_flatMap] at hm
      obtain ⟨t, ht, hm⟩ := hm
      split at hm
      · cases hm
      · rename_i hte
        obtain ⟨hh, n, hn, rfl⟩ := ih t (mem_branches.1 ht) (depth + 1) hte m' hm
        exact ⟨hh, n, List.mem_cons_of_mem _ (List.mem_flatMap.2 ⟨t, ht, hn⟩), rfl⟩

/-- What is hidden lies within the tree. -/
theorem hidden_within (h : tree.WellFormed) (he : ¬ (Tree.label tree).isEmpty) :
    ∀ m ∈ hidden tree, (Tree.label tree).start ≤ m.start ∧ m.start < m.stop ∧
      m.stop ≤ (Tree.label tree).stop := by
  intro m hm
  obtain ⟨_, n, hn, rfl⟩ := hidden_solid h 0 he m hm
  exact (solid_within h n hn).2

/-- Hidden ranges do not overlap. -/
theorem hidden_inOrder (h : tree.WellFormed) : ¬ (Tree.label tree).isEmpty →
    (hidden tree).Pairwise fun a b => a.stop ≤ b.start := by
  induction h with
  | @node m branches _ _ hord hwf ih =>
    intro _
    rw [hidden]
    split
    · exact List.pairwise_singleton _ _
    · rw [hiddenOfAll_eq, List.pairwise_flatMap]
      constructor
      · intro t ht
        split
        · exact .nil
        · exact ih t (mem_branches.1 ht) ‹_›
      · refine hord.imp_of_mem fun {a b} ha hb hab x hx y hy => ?_
        split at hx
        · cases hx
        · split at hy
          · cases hy
          · have hxs := hidden_within (hwf a (mem_branches.1 ha)) ‹_› x hx
            have hys := hidden_within (hwf b (mem_branches.1 hb)) ‹_› y hy
            omega

/-- Every hidden node lies within an outermost one. -/
theorem hidden_covers (h : tree.WellFormed) : ∀ depth, ∀ n ∈ tree.solid depth, n.2.hidden →
    ∃ m ∈ hidden tree, m.start ≤ n.2.start ∧ n.2.stop ≤ m.stop := by
  induction h with
  | @node m branches hle hin hord hwf ih =>
    intro depth n hn hh
    by_cases hm : m.hidden
    · obtain ⟨_, hs, _, hst⟩ := solid_within (.node hle hin hord hwf) n hn
      exact ⟨m, by simp [hidden, hm], hs, hst⟩
    · rw [solid_node, List.mem_append, List.mem_flatMap] at hn
      rcases hn with hn | ⟨t, ht, hn⟩
      · split at hn
        · cases hn
        · obtain rfl := List.mem_singleton.1 hn
          exact absurd hh hm
      · obtain ⟨m', hm', hb⟩ := ih t (mem_branches.1 ht) _ n hn hh
        have hte : ¬ (Tree.label t).isEmpty := fun he => by
          rw [solid_eq_nil (hwf t (mem_branches.1 ht)) he] at hn
          cases hn
        refine ⟨m', ?_, hb⟩
        rw [hidden, if_neg hm, hiddenOfAll_eq, List.mem_flatMap]
        exact ⟨t, ht, by rwa [if_neg hte]⟩

end Render
end OrderedBnf
