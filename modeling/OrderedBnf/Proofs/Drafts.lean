import Mathlib.Data.List.Perm.Lattice
import Mathlib.Order.Nat
import OrderedBnf.Rule.Assemble
import OrderedBnf.Proofs.Fitting
import OrderedBnf.Proofs.Unfolding

/-! Trees that stand in drafts. Each node holds its branches, and each branch knows the node that
holds it; a new node over trees that have no node in common makes a tree of them. -/
namespace OrderedBnf

namespace Tree
variable {α β : Type}

theorem walkAll_some (trees : List (Tree α)) : walkAll (trees.map some) = trees.flatMap walk := by
  induction trees with
  | nil => rfl
  | cons tree trees ih => rw [List.map_cons, walkAll, ih, List.flatMap_cons]

theorem mapAll_some (f : α → β) (trees : List (Tree α)) :
    mapAll f (trees.map some) = trees.map fun tree => some (map f tree) := by
  induction trees with
  | nil => rfl
  | cons tree trees ih => rw [List.map_cons, mapAll, ih, List.map_cons]

theorem label_mem_walk (tree : Tree α) : label tree ∈ walk tree := by
  cases tree
  exact List.mem_cons_self

mutual
theorem map_congr {f g : α → β} : ∀ tree : Tree α, (∀ a ∈ walk tree, f a = g a) →
    map f tree = map g tree
  | .node a bs, h => by
    rw [walk, List.forall_mem_cons] at h
    rw [map, map, h.1, mapAll_congr bs h.2]

theorem mapAll_congr {f g : α → β} : ∀ branches : List (Option (Tree α)),
    (∀ a ∈ walkAll branches, f a = g a) → mapAll f branches = mapAll g branches
  | [], _ => rfl
  | none :: rest, h => by rw [mapAll, mapAll, mapAll_congr rest h]
  | some tree :: rest, h => by
    rw [walkAll, List.forall_mem_append] at h
    rw [mapAll, mapAll, map_congr tree h.1, mapAll_congr rest h.2]
end

/-- Of trees that have no label twice, none has a label of a root further down. -/
theorem label_not_mem_tail {trees : List (Tree α)} (h : (trees.flatMap walk).Nodup)
    {tree other : Tree α} (ht : tree ∈ trees) (ho : other ∈ trees) :
    label other ∉ (walk tree).tail := by
  intro hm
  obtain ⟨heach, happart⟩ := List.nodup_flatMap.1 h
  by_cases he : tree = other
  · subst he
    cases tree
    exact (List.nodup_cons.1 (heach _ ht)).1 hm
  · have : Std.Symm (Function.onFun List.Disjoint (@walk α)) := ⟨fun _ _ h => h.symm⟩
    exact happart.forall ht ho he (List.mem_of_mem_tail hm) (label_mem_walk other)

end Tree

namespace Draft
variable {d d' : Draft} {i : Nat} {tree : Tree Nat} {trees : List (Tree Nat)}

theorem node_add (d : Draft) (node : DraftNode) (k : Nat) :
    (d.add node).node k = if k = d.nodes.length then node else d.node k := by
  simp only [Draft.node, add, List.getD_eq_getElem?_getD, List.getElem?_append]
  rcases Nat.lt_trichotomy k d.nodes.length with hlt | rfl | hgt
  · rw [if_pos hlt, if_neg hlt.ne]
  · simp
  · have hge : 1 ≤ k - d.nodes.length := by omega
    rw [if_neg (by omega), if_neg hgt.ne', List.getElem?_eq_none hgt.le,
      List.getElem?_eq_none (by simpa using hge)]

theorem node_update (change : DraftNode → DraftNode) (hi : i < d.nodes.length) (k : Nat) :
    (d.update i change).node k = if k = i then change (d.node k) else d.node k := by
  simp only [Draft.node, update, List.getD_eq_getElem?_getD, List.getElem?_modify]
  by_cases h : i = k
  · subst h
    simp [List.getElem?_eq_getElem hi]
  · simp [h, Ne.symm h]

theorem length_update (d : Draft) (i : Nat) (change : DraftNode → DraftNode) :
    (d.update i change).nodes.length = d.nodes.length :=
  List.length_modify ..

theorem node_place {start stop : Nat} (hi : i < d.nodes.length) (k : Nat) :
    (d.place i start stop).node k =
      if k = i then { d.node k with range := some (start, stop) } else d.node k :=
  node_update _ hi k

theorem length_place (d : Draft) (i start stop : Nat) :
    (d.place i start stop).nodes.length = d.nodes.length :=
  d.length_update i _

structure Kept (d d' : Draft) : Prop where
  text : d'.text = d.text
  length : d.nodes.length ≤ d'.nodes.length
  node : ∀ k < d.nodes.length, d'.node k = d.node k

theorem Kept.refl (d : Draft) : d.Kept d := ⟨rfl, Nat.le_refl _, fun _ _ => rfl⟩

/-- What is kept from draft to draft is kept from the first to the last. -/
theorem Kept.trans {d₁ : Draft} (h : d.Kept d₁) (h' : d₁.Kept d') : d.Kept d' where
  text := h'.text.trans h.text
  length := h.length.trans h'.length
  node k hk := (h'.node k (hk.trans_le h.length)).trans (h.node k hk)

structure Attached (d d' : Draft) (i : Nat) (children : List Nat) (range : Option (Int × Int)) :
    Prop where
  text : d'.text = d.text
  length : d'.nodes.length = d.nodes.length
  here : d'.node i =
    { d.node i with range := range, branches := (d.node i).branches ++ children.map some }
  child : ∀ k ∈ children, d'.node k = { d.node k with parent := some i }
  other : ∀ k, k ≠ i → k ∉ children → d'.node k = d.node k

theorem Attached.span {children : List Nat} {range : Option (Int × Int)}
    (h : Attached d d' i children range) {k : Nat} (hk : k ≠ i) :
    (d'.node k).kind = (d.node k).kind ∧ (d'.node k).range = (d.node k).range ∧
      (d'.node k).branches = (d.node k).branches := by
  by_cases hc : k ∈ children
  · rw [h.child k hc]
    exact ⟨rfl, rfl, rfl⟩
  · rw [h.other k hk hc]
    exact ⟨rfl, rfl, rfl⟩

/-- Children that are attached one by one are attached together. -/
theorem Attached.trans {d'' : Draft} {child : Nat} {children : List Nat}
    {range range' : Option (Int × Int)} (hne : child ≠ i) (hi : i ∉ children)
    (h : Attached d d' i [child] range) (h' : Attached d' d'' i children range') :
    Attached d d'' i (child :: children) range' where
  text := h'.text.trans h.text
  length := h'.length.trans h.length
  here := by simp [h'.here, h.here]
  child k hk := by
    by_cases hc : k ∈ children
    · rw [h'.child k hc]
      by_cases he : k = child
      · rw [h.child k (List.mem_singleton.2 he)]
      · rw [h.other k (fun hki => hi (hki ▸ hc)) (mt List.mem_singleton.1 he)]
    · obtain rfl := (List.mem_cons.1 hk).resolve_right hc
      rw [h'.other k hne hc, h.child k (List.mem_singleton.2 rfl)]
  other k hk hc := by
    rw [List.mem_cons, not_or] at hc
    rw [h'.other k hk hc.2, h.other k hk (mt List.mem_singleton.1 hc.1)]

theorem attach_ok {child : Nat} {range : Option (Int × Int)} (hi : i < d.nodes.length)
    (hc : child < d.nodes.length) (hne : child ≠ i)
    (h : extend (d.node i).range (d.node child).range = .ok range) :
    ∃ d', d.attach i child = .ok d' ∧ Attached d d' i [child] range := by
  simp only [attach, h, bind, Except.bind, pure, Except.pure]
  refine ⟨_, rfl, rfl, ?_, ?_, ?_, ?_⟩
  · rw [length_update, length_update]
  · rw [node_update _ (by rwa [length_update]), if_neg hne.symm, node_update _ hi, if_pos rfl]
    rfl
  · rw [List.forall_mem_singleton, node_update _ (by rwa [length_update]), if_pos rfl,
      node_update _ hi, if_neg hne]
  · intro k hk hkc
    rw [node_update _ (by rwa [length_update]), if_neg (mt List.mem_singleton.2 hkc),
      node_update _ hi, if_neg hk]

theorem attachAll_cons (d : Draft) (i child : Nat) (branches : List (Option Nat)) :
    d.attachAll i (some child :: branches) = (d.attach i child).bind (·.attachAll i branches) :=
  rfl

theorem attachAll_ok {children : List Nat} {range : Option (Int × Int)} (hi : i < d.nodes.length)
    (hall : ∀ c ∈ children, c < d.nodes.length ∧ c ≠ i)
    (h : (children.map fun c => (d.node c).range).foldlM extend (d.node i).range = .ok range) :
    ∃ d', d.attachAll i (children.map some) = .ok d' ∧ Attached d d' i children range := by
  induction children generalizing d with
  | nil =>
    cases h
    refine ⟨d, rfl, rfl, rfl, ?_, nofun, fun _ _ _ => rfl⟩
    simp
  | cons c cs ih =>
    rw [List.forall_mem_cons] at hall
    obtain ⟨⟨hc, hne⟩, hcs⟩ := hall
    rw [List.map_cons, List.foldlM_cons] at h
    cases hr : extend (d.node i).range (d.node c).range with
    | error => rw [hr] at h; cases h
    | ok range₁ =>
      rw [hr] at h
      obtain ⟨d₁, hd₁, hone⟩ := attach_ok hi hc hne hr
      have hranges : (cs.map fun c => (d₁.node c).range) = cs.map fun c => (d.node c).range :=
        List.map_congr_left fun k hk => (hone.span (hcs k hk).2).2.1
      obtain ⟨d', hd', hrest⟩ := @ih d₁ (hone.length ▸ hi) (hone.length ▸ hcs)
        (by rw [hone.here, hranges]; exact h)
      refine ⟨d', ?_, hone.trans hne (fun hi => (hcs i hi).2 rfl) hrest⟩
      rw [List.map_cons, attachAll_cons, hd₁]
      exact hd'

/-- A tree of numbers that stands in a draft. Each node holds its branches, none of them absent, and
is the parent of each. -/
inductive Stands (d : Draft) : Tree Nat → Prop
  | node {i : Nat} {below : List (Tree Nat)} :
      (d.node i).branches = (below.map fun tree => some tree.label) →
      (∀ tree ∈ below, (d.node tree.label).parent = some i) → (∀ tree ∈ below, Stands d tree) →
      Stands d (.node i (below.map some))

/-- What is below a tree stays where it is when its root gets another parent. -/
theorem Stands.frame (h : d.Stands tree)
    (hbranches : ∀ k ∈ tree.walk, (d'.node k).branches = (d.node k).branches)
    (hparents : ∀ k ∈ tree.walk.tail, (d'.node k).parent = (d.node k).parent) :
    d'.Stands tree := by
  induction h with
  | @node i below hb hp _ ih =>
    rw [Tree.walk, Tree.walkAll_some, List.forall_mem_cons] at hbranches
    rw [Tree.walk, Tree.walkAll_some, List.tail_cons] at hparents
    have hmem {tree : Tree Nat} (ht : tree ∈ below) {k : Nat} (hk : k ∈ tree.walk) :
        k ∈ below.flatMap Tree.walk := List.mem_flatMap.2 ⟨tree, ht, hk⟩
    refine .node (hbranches.1.trans hb) (fun tree ht => ?_) fun tree ht => ih tree ht ?_ ?_
    · exact (hparents _ (hmem ht tree.label_mem_walk)).trans (hp tree ht)
    · exact fun k hk => hbranches.2 k (hmem ht hk)
    · exact fun k hk => hparents k (hmem ht (List.mem_of_mem_tail hk))

/-- In a tree that stands, every child has its node as a parent. -/
theorem Stands.parents (h : d.Stands tree) : ∀ k ∈ tree.walk, ∀ branch ∈ (d.node k).branches,
    ∃ child, branch = some child ∧ (d.node child).parent = some k := by
  induction h with
  | @node i below hb hp _ ih =>
    rw [Tree.walk, Tree.walkAll_some, List.forall_mem_cons, hb, List.forall_mem_map]
    refine ⟨fun tree ht => ⟨tree.label, rfl, hp tree ht⟩, fun k hk => ?_⟩
    obtain ⟨tree, ht, hk⟩ := List.mem_flatMap.1 hk
    exact ih tree ht k hk

theorem Stands.unfolds (h : d.Stands tree) : d.Unfolds tree := by
  induction h with
  | @node i below hb _ _ ih =>
    refine .node ?_ fun t ht => ih t (by simpa using ht)
    rw [hb, List.map_map]
    rfl

/-- Trees that stand in a draft apart from each other, with no number twice. -/
structure Planted (d : Draft) (trees : List (Tree Nat)) : Prop where
  stands : ∀ tree ∈ trees, d.Stands tree
  known : ∀ k ∈ trees.flatMap Tree.walk, k < d.nodes.length
  nodup : (trees.flatMap Tree.walk).Nodup

theorem Planted.tree_eq (h : d.Planted [tree]) : d.tree tree.label = tree :=
  (h.stands tree List.mem_cons_self).unfolds.tree_eq

theorem Planted.mem (h : d.Planted trees) (ht : tree ∈ trees) {k : Nat} (hk : k ∈ tree.walk) :
    k ∈ trees.flatMap Tree.walk ∧ k < d.nodes.length :=
  have hmem := List.mem_flatMap.2 ⟨tree, ht, hk⟩
  ⟨hmem, h.known k hmem⟩

theorem Planted.label_lt (h : d.Planted trees) (ht : tree ∈ trees) : tree.label < d.nodes.length :=
  (h.mem ht tree.label_mem_walk).2

/-- Trees stay planted in a draft that keeps what was there. -/
theorem Planted.kept (h : d.Planted trees) (hkept : d.Kept d') : d'.Planted trees where
  stands tree ht := (h.stands tree ht).frame (fun k hk => by rw [hkept.node k (h.mem ht hk).2])
    fun k hk => by rw [hkept.node k (h.mem ht (List.mem_of_mem_tail hk)).2]
  known k hk := (h.known k hk).trans_le hkept.length
  nodup := h.nodup

/-- A tree may be planted beside others where they share no place. -/
theorem Planted.cons (h : d.Planted [tree]) (h' : d.Planted trees)
    (hapart : ∀ k ∈ tree.walk, k ∉ trees.flatMap Tree.walk) : d.Planted (tree :: trees) where
  stands := List.forall_mem_cons.2 ⟨h.stands tree List.mem_cons_self, h'.stands⟩
  known := by
    have hknown := h.known
    rw [List.flatMap_singleton] at hknown
    rw [List.flatMap_cons, List.forall_mem_append]
    exact ⟨hknown, h'.known⟩
  nodup := by
    have hnodup := h.nodup
    rw [List.flatMap_singleton] at hnodup
    rw [List.flatMap_cons]
    exact hnodup.append h'.nodup hapart

/-- Changing the range of a root leaves the tree planted. -/
theorem Planted.place (h : d.Planted [tree]) (start stop : Nat) :
    (d.place tree.label start stop).Planted [tree] where
  stands := by
    have hnode := @node_place d tree.label start stop (h.label_lt List.mem_cons_self)
    have hstands := h.stands tree List.mem_cons_self
    refine List.forall_mem_singleton.2 (hstands.frame (fun k _ => ?_) fun k _ => ?_)
    · rw [hnode]
      split <;> rfl
    · rw [hnode]
      split <;> rfl
  known := by
    rw [length_place]
    exact h.known
  nodup := h.nodup

theorem Planted.map_place {branches : List (Option (Tree Nat))} (h : d.Planted [.node i branches])
    (start stop : Nat) : (Tree.node i branches).map (d.place i start stop).kindAndRange =
      .node ((d.node i).kind, some (start, stop)) (Tree.mapAll d.kindAndRange branches) := by
  have hnode := @node_place d i start stop (h.label_lt List.mem_cons_self)
  have hnodup := h.nodup
  rw [List.flatMap_singleton, Tree.walk, List.nodup_cons] at hnodup
  rw [Tree.map, kindAndRange, hnode, if_pos rfl]
  refine congrArg _ (Tree.mapAll_congr branches fun k hk => ?_)
  have hne : k ≠ i := fun he => hnodup.1 (he ▸ hk)
  rw [kindAndRange, hnode, if_neg hne, kindAndRange]

structure Over (d d' : Draft) (kind : Kind) (range : Option (Int × Int)) (trees : List (Tree Nat)) :
    Prop where
  text : d'.text = d.text
  length : d'.nodes.length = d.nodes.length + 1
  here : d'.node d.nodes.length =
    ⟨kind, false, none, range, trees.map fun tree => some tree.label, none, {}⟩
  child : ∀ tree ∈ trees,
    d'.node tree.label = { d.node tree.label with parent := some d.nodes.length }
  other : ∀ k < d.nodes.length, k ∉ trees.map Tree.label → d'.node k = d.node k

section Over
variable {kind : Kind} {range : Option (Int × Int)}

/-- A new node may be put over trees that are planted, and it has the range of them all. -/
theorem Planted.exists_over (h : d.Planted trees) (kind : Kind)
    (hrange : (trees.map fun tree => (d.node tree.label).range).foldlM extend none = .ok range) :
    ∃ d', (d.addNode kind).1.attachAll d.nodes.length (trees.map fun tree => some tree.label) =
      .ok d' ∧ d.Over d' kind range trees := by
  generalize hd₀ : (d.addNode kind).1 = d₀
  have hlength : d₀.nodes.length = d.nodes.length + 1 := by
    rw [← hd₀]
    exact List.length_append
  have hnew : d₀.node d.nodes.length = ⟨kind, false, none, none, [], none, {}⟩ := by
    rw [← hd₀]
    exact (d.node_add _ _).trans (if_pos rfl)
  have hold {k : Nat} (hk : k < d.nodes.length) : d₀.node k = d.node k := by
    rw [← hd₀]
    exact (d.node_add _ _).trans (if_neg hk.ne)
  have hranges : ((trees.map Tree.label).map fun c => (d₀.node c).range) =
      trees.map fun tree => (d.node tree.label).range := by
    rw [List.map_map]
    exact List.map_congr_left fun tree ht => congrArg DraftNode.range (hold (h.label_lt ht))
  have hlt {k : Nat} (hk : k ≤ d.nodes.length) : k < d₀.nodes.length := by omega
  obtain ⟨d', hd', hattached⟩ := attachAll_ok (hlt (Nat.le_refl _))
    (List.forall_mem_map.2 fun tree ht => ⟨hlt (h.label_lt ht).le, (h.label_lt ht).ne⟩)
    (by rw [hranges, hnew]; exact hrange)
  rw [List.map_map] at hd'
  refine ⟨d', hd', hattached.text.trans (hd₀ ▸ rfl), hattached.length.trans hlength, ?_, ?_, ?_⟩
  · rw [hattached.here, hnew, List.map_map]
    rfl
  · intro tree ht
    rw [hattached.child _ (List.mem_map_of_mem ht), hold (h.label_lt ht)]
  · intro k hk hl
    rw [hattached.other k hk.ne hl, hold hk]

theorem Over.same (h : d.Over d' kind range trees) {k : Nat} (hk : k < d.nodes.length) :
    d'.kindAndRange k = d.kindAndRange k ∧ (d'.node k).branches = (d.node k).branches := by
  rw [kindAndRange, kindAndRange]
  by_cases hl : k ∈ trees.map Tree.label
  · obtain ⟨tree, ht, rfl⟩ := List.mem_map.1 hl
    rw [h.child tree ht]
    exact ⟨rfl, rfl⟩
  · rw [h.other k hk hl]
    exact ⟨rfl, rfl⟩

theorem walk_over (i : Nat) (trees : List (Tree Nat)) :
    [Tree.node i (trees.map some)].flatMap Tree.walk = i :: trees.flatMap Tree.walk := by
  rw [List.flatMap_singleton, Tree.walk, Tree.walkAll_some]

/-- The new node is the parent of each of the trees now, and nothing moves below them. -/
theorem Over.planted (h : d.Over d' kind range trees) (hp : d.Planted trees) :
    d'.Planted [.node d.nodes.length (trees.map some)] where
  stands := by
    rw [List.forall_mem_singleton]
    refine .node (by rw [h.here]) (fun tree ht => by rw [h.child tree ht]) fun tree ht => ?_
    refine (hp.stands tree ht).frame (fun k hk => (h.same (hp.mem ht hk).2).2) fun k hk => ?_
    have hroot : k ∉ trees.map Tree.label := by
      intro hl
      obtain ⟨other, ho, rfl⟩ := List.mem_map.1 hl
      exact Tree.label_not_mem_tail hp.nodup ht ho hk
    rw [h.other k (hp.mem ht (List.mem_of_mem_tail hk)).2 hroot]
  known := by
    rw [walk_over, h.length, List.forall_mem_cons]
    exact ⟨Nat.lt_succ_self _, fun k hk => (hp.known k hk).trans (Nat.lt_succ_self _)⟩
  nodup := by
    rw [walk_over, List.nodup_cons]
    exact ⟨fun hmem => Nat.lt_irrefl _ (hp.known _ hmem), hp.nodup⟩

/-- A node over several trees is the root of a tree with these branches. -/
theorem Over.map (h : d.Over d' kind range trees) (hp : d.Planted trees) :
    (Tree.node d.nodes.length (trees.map some)).map d'.kindAndRange =
      .node (kind, range) (trees.map fun tree => some (tree.map d.kindAndRange)) := by
  have hbelow : trees.map (fun tree => some (tree.map d'.kindAndRange)) =
      trees.map fun tree => some (tree.map d.kindAndRange) :=
    List.map_congr_left fun tree ht => congrArg some <|
      tree.map_congr fun k hk => (h.same (hp.mem ht hk).2).1
  rw [Tree.map, Tree.mapAll_some, kindAndRange, h.here, hbelow]

end Over

end Draft
end OrderedBnf
