import OrderedBnf.Proofs.Unfolding

/-! Walks and outlines. What comes off the stack of a walk is each node, and each absent branch that
is asked for, in the order of its place in the tree; and an outline has a line for each of them. -/
namespace OrderedBnf

namespace Tree
variable {α β : Type} {branches : List (Option (Tree α))}

theorem followed_true (branches : List (Option (Tree α))) : followed true branches = branches :=
  List.filter_eq_self.2 fun _ _ => rfl

theorem followed_false (branches : List (Option (Tree α))) :
    followed false branches = branches.filter Option.isSome := rfl

/-- What is further down on a stack waits until all above it is done. -/
theorem visit_append (absent : Bool) (stack waiting : List (Option (Tree α))) :
    visit absent (stack ++ waiting) = visit absent stack ++ visit absent waiting := by
  fun_induction visit absent stack with
  | case1 => rfl
  | case2 stack ih => rw [List.cons_append, visit, ih, List.cons_append]
  | case3 a branches stack ih =>
    rw [List.cons_append, visit, ← List.append_assoc, ih, List.cons_append]

theorem visit_cons (absent : Bool) (item : Option (Tree α)) (waiting : List (Option (Tree α))) :
    visit absent (item :: waiting) = visit absent [item] ++ visit absent waiting :=
  visit_append absent [item] waiting

theorem visit_flatMap (absent : Bool) (stack : List (Option (Tree α))) :
    visit absent stack = stack.flatMap fun item => visit absent [item] := by
  induction stack with
  | nil => rw [visit, List.flatMap_nil]
  | cons item stack ih => rw [visit_cons, ih, List.flatMap_cons]

theorem items_node (absent : Bool) (a : α) (branches : List (Option (Tree α))) :
    items absent (node a branches) = some (node a branches) ::
      visit absent (followed absent branches) := by
  rw [items, visit, List.append_nil]

theorem visit_none (absent : Bool) : visit absent [(none : Option (Tree α))] = [none] := by
  rw [visit, visit]

/-- Without the absent branches, a walk is the same but for their places. -/
theorem visit_present (stack : List (Option (Tree α))) :
    visit false (stack.filter Option.isSome) = (visit true stack).filter Option.isSome := by
  fun_induction visit true stack with
  | case1 => rw [List.filter_nil, visit]
  | case2 stack ih => exact ih
  | case3 a branches stack ih =>
    rw [List.filter_cons_of_pos rfl, List.filter_cons_of_pos rfl, visit, ← ih, followed_true,
      List.filter_append, followed_false]

theorem items_present (tree : Tree α) :
    tree.items false = (tree.items true).filter Option.isSome :=
  visit_present [some tree]

mutual
/-- A tree and all below it in the order of a walk, each item with its place: the numbers of the
branches on the way to it. -/
def entries : Tree α → List (List Nat × Option (Tree α))
  | node a branches => ([], some (node a branches)) :: entriesFrom 0 branches

def entriesFrom (k : Nat) : List (Option (Tree α)) → List (List Nat × Option (Tree α))
  | [] => []
  | none :: rest => ([k], none) :: entriesFrom (k + 1) rest
  | some t :: rest => (entries t).map (fun e => (k :: e.1, e.2)) ++ entriesFrom (k + 1) rest
end

/-- What stands at a place below an item: a node, or nothing where a branch is absent. -/
def itemAt? : Option (Tree α) → List Nat → Option (Option (Tree α))
  | item, [] => some item
  | none, _ :: _ => none
  | some (node _ branches), k :: place => branches[k]?.bind fun branch => itemAt? branch place

mutual
theorem visit_entries : ∀ tree : Tree α, visit true [some tree] = (entries tree).map Prod.snd
  | node a branches => by
    rw [← items, items_node, followed_true, visit_entriesFrom 0 branches, entries, List.map_cons]

theorem visit_entriesFrom (k : Nat) : ∀ branches : List (Option (Tree α)),
    visit true branches = (entriesFrom k branches).map Prod.snd
  | [] => by rw [visit, entriesFrom, List.map_nil]
  | none :: rest => by
    rw [visit, visit_entriesFrom (k + 1) rest, entriesFrom, List.map_cons]
  | some t :: rest => by
    rw [visit_cons, visit_entries t, visit_entriesFrom (k + 1) rest, entriesFrom, List.map_append,
      List.map_map]
    rfl
end

theorem exists_place_iff {p : Nat → List Nat → Prop} {place : List Nat} {k : Nat} :
    (∃ j rest, place = (k + j) :: rest ∧ p j rest) ↔ (∃ rest, place = k :: rest ∧ p 0 rest) ∨
      ∃ j rest, place = (k + 1 + j) :: rest ∧ p (j + 1) rest := by
  simp only [Nat.add_assoc, Nat.add_comm 1]
  exact Nat.or_exists_add_one.symm

mutual
theorem mem_entries {place : List Nat} {found : Option (Tree α)} : ∀ tree : Tree α,
    (place, found) ∈ entries tree ↔ itemAt? (some tree) place = some found
  | node a branches => by
    rw [entries, List.mem_cons, mem_entriesFrom 0 branches]
    cases place with
    | nil => simp [itemAt?, eq_comm]
    | cons k place => simp [itemAt?]

theorem mem_entriesFrom {place : List Nat} {found : Option (Tree α)} (k : Nat) :
    ∀ branches : List (Option (Tree α)), (place, found) ∈ entriesFrom k branches ↔
      ∃ j rest, place = (k + j) :: rest ∧
        (branches[j]?.bind fun branch => itemAt? branch rest) = some found
  | [] => by simp [entriesFrom]
  | none :: rest => by
    rw [entriesFrom, List.mem_cons, mem_entriesFrom (k + 1) rest, exists_place_iff (k := k)]
    refine or_congr_left ⟨fun h => ?_, ?_⟩
    · cases h
      exact ⟨[], rfl, rfl⟩
    · rintro ⟨_ | ⟨j, place⟩, rfl, hfound⟩ <;> cases hfound
      rfl
  | some t :: rest => by
    rw [entriesFrom, List.mem_append, List.mem_map, mem_entriesFrom (k + 1) rest,
      exists_place_iff (k := k)]
    refine or_congr_left ⟨?_, ?_⟩
    · rintro ⟨⟨place, found⟩, he, rfl, rfl⟩
      exact ⟨place, rfl, (mem_entries t).1 he⟩
    · rintro ⟨place, rfl, hfound⟩
      exact ⟨(place, found), (mem_entries t).2 hfound, rfl⟩
end

theorem lt_of_mem_entriesFrom {k j : Nat} {place : List Nat} {e : List Nat × Option (Tree α)}
    (h : e ∈ entriesFrom k branches) (hj : j < k) : j :: place < e.1 := by
  obtain ⟨m, rest, he, -⟩ := (mem_entriesFrom k branches).1 h
  rw [he, List.cons_lt_cons_iff]
  exact .inl (by omega)

mutual
theorem entries_ascending : ∀ tree : Tree α, (entries tree).Pairwise fun e f => e.1 < f.1
  | node a branches => by
    rw [entries, List.pairwise_cons]
    refine ⟨fun e he => ?_, entriesFrom_ascending 0 branches⟩
    obtain ⟨m, rest, he, -⟩ := (mem_entriesFrom 0 branches).1 he
    rw [he]
    exact List.nil_lt_cons ..

theorem entriesFrom_ascending (k : Nat) : ∀ branches : List (Option (Tree α)),
    (entriesFrom k branches).Pairwise fun e f => e.1 < f.1
  | [] => by
    rw [entriesFrom]
    exact .nil
  | none :: rest => by
    rw [entriesFrom, List.pairwise_cons]
    refine ⟨fun f hf => ?_, entriesFrom_ascending (k + 1) rest⟩
    exact lt_of_mem_entriesFrom hf (Nat.lt_succ_self k)
  | some t :: rest => by
    rw [entriesFrom, List.pairwise_append, List.pairwise_map]
    refine ⟨(entries_ascending t).imp fun h => ?_, entriesFrom_ascending (k + 1) rest,
      fun e he f hf => ?_⟩
    · exact List.cons_lt_cons_iff.2 (.inr ⟨rfl, h⟩)
    · obtain ⟨e, -, rfl⟩ := List.mem_map.1 he
      exact lt_of_mem_entriesFrom hf (Nat.lt_succ_self k)
end

mutual
theorem levels_entries (depth : Nat) : ∀ tree : Tree α,
    levels depth tree = (entries tree).map fun e => (depth + e.1.length, e.2.map label)
  | node a branches => by
    rw [levels, levelsOfAll_entriesFrom depth 0 branches, entries, List.map_cons]
    rfl

theorem levelsOfAll_entriesFrom (depth k : Nat) : ∀ branches : List (Option (Tree α)),
    levelsOfAll (depth + 1) branches =
      (entriesFrom k branches).map fun e => (depth + e.1.length, e.2.map label)
  | [] => by rw [levelsOfAll, entriesFrom, List.map_nil]
  | none :: rest => by
    rw [levelsOfAll, levelsOfAll_entriesFrom depth (k + 1) rest, entriesFrom, List.map_cons]
    rfl
  | some t :: rest => by
    rw [levelsOfAll, levels_entries (depth + 1) t, levelsOfAll_entriesFrom depth (k + 1) rest,
      entriesFrom, List.map_append, List.map_map]
    refine congrArg (· ++ _) (List.map_congr_left fun e _ => ?_)
    simp only [Function.comp, List.length_cons, Nat.add_assoc, Nat.add_comm 1]
end

mutual
theorem walk_levels (depth : Nat) : ∀ tree : Tree α,
    walk tree = (levels depth tree).filterMap Prod.snd
  | node a branches => by
    rw [walk, levels, List.filterMap_cons, walkAll_levelsOfAll (depth + 1) branches]

theorem walkAll_levelsOfAll (depth : Nat) : ∀ branches : List (Option (Tree α)),
    walkAll branches = (levelsOfAll depth branches).filterMap Prod.snd
  | [] => rfl
  | none :: rest => by
    rw [walkAll, levelsOfAll, List.filterMap_cons, walkAll_levelsOfAll depth rest]
  | some t :: rest => by
    rw [walkAll, levelsOfAll, List.filterMap_append, walk_levels depth t,
      walkAll_levelsOfAll depth rest]
end

theorem map_some_present (items : List (Option α)) :
    (items.filterMap id).map some = items.filter Option.isSome := by
  induction items with
  | nil => rfl
  | cons item items ih =>
    cases item with
    | none => exact ih
    | some a => exact congrArg (some a :: ·) ih

theorem items_levels (tree : Tree α) :
    (tree.items true).map (Option.map label) = (tree.levels 0).map Prod.snd := by
  rw [levels_entries, items, visit_entries, List.map_map, List.map_map]
  rfl

theorem items_walk (tree : Tree α) :
    (tree.items false).map (Option.map label) = tree.walk.map some := by
  have hfilter : ((tree.items true).filter Option.isSome).map (Option.map label) =
      ((tree.items true).map (Option.map label)).filter Option.isSome := by
    rw [List.filter_map]
    simp only [Function.comp_def, Option.isSome_map]
  rw [items_present, hfilter, items_levels, ← map_some_present, List.filterMap_map,
    walk_levels 0]
  rfl

/-- How a walk goes. A node comes first and then, from left to right, the walks of its branches; and
what stands at a place of the tree comes up once, further on than all that came before it and not
above any of that. -/
structure Walked (tree : Tree α) : Prop where
  present : tree.items false = some tree :: (tree.branches.filterMap id).flatMap (items false)
  absent : tree.items true =
    some tree :: tree.branches.flatMap fun branch => (branch.map (items true)).getD [none]
  filter : tree.items false = (tree.items true).filter Option.isSome
  place : tree.items true = tree.entries.map Prod.snd
  once : ∀ place item, (place, item) ∈ tree.entries ↔ itemAt? (some tree) place = some item
  order : tree.entries.Pairwise fun e f => e.1 < f.1 ∧ ¬ f.1 <+: e.1
  walk : (tree.items false).map (Option.map label) = tree.walk.map some
  levels : (tree.items true).map (Option.map label) = (tree.levels 0).map Prod.snd

theorem walked (tree : Tree α) : tree.Walked where
  present := by
    cases tree with
    | node a branches =>
      rw [items_node, followed_false, visit_flatMap, ← map_some_present, List.flatMap_map]
      rfl
  absent := by
    cases tree with
    | node a branches =>
      rw [items_node, followed_true, visit_flatMap]
      refine congrArg _ (List.flatMap_congr fun branch _ => ?_)
      cases branch with
      | none => exact visit_none true
      | some t => rfl
  filter := items_present tree
  place := visit_entries tree
  once := fun place item => mem_entries tree
  order := (entries_ascending tree).imp fun h => ⟨h, fun hfront => hfront.le h⟩
  walk := items_walk tree
  levels := items_levels tree

mutual
theorem levels_map (f : α → β) (depth : Nat) : ∀ tree : Tree α,
    levels depth (map f tree) = (levels depth tree).map fun e => (e.1, e.2.map f)
  | node a branches => by
    rw [map, levels, levels, List.map_cons, levelsOfAll_mapAll f (depth + 1) branches]
    rfl

theorem levelsOfAll_mapAll (f : α → β) (depth : Nat) : ∀ branches : List (Option (Tree α)),
    levelsOfAll depth (mapAll f branches) =
      (levelsOfAll depth branches).map fun e => (e.1, e.2.map f)
  | [] => rfl
  | none :: rest => by
    rw [mapAll, levelsOfAll, levelsOfAll, List.map_cons, levelsOfAll_mapAll f depth rest]
    rfl
  | some t :: rest => by
    rw [mapAll, levelsOfAll, levelsOfAll, List.map_append, levels_map f depth t,
      levelsOfAll_mapAll f depth rest]
end

end Tree

namespace Outline
variable {options : Options}

def row (options : Options) (depth : Nat) : Option Heading → String
  | none => absentLine options depth
  | some heading => line options depth heading

theorem lines_append (options : Options) (stack waiting : List (Nat × Option (Tree Heading))) :
    lines options (stack ++ waiting) = lines options stack ++ lines options waiting := by
  fun_induction lines options stack with
  | case1 => rfl
  | case2 depth stack ih => rw [List.cons_append, lines, ih, List.cons_append]
  | case3 depth heading branches stack ih =>
    rw [List.cons_append, lines, ← List.append_assoc, ih, List.cons_append]

theorem lines_cons (item : Nat × Option (Tree Heading))
    (waiting : List (Nat × Option (Tree Heading))) :
    lines options (item :: waiting) = lines options [item] ++ lines options waiting :=
  lines_append options [item] waiting

mutual
theorem lines_levels (depth : Nat) : ∀ tree : Tree Heading,
    lines options [(depth, some tree)] = (tree.levels depth).map fun e => row options e.1 e.2
  | .node heading branches => by
    rw [lines, List.append_nil, lines_levelsOfAll (depth + 1) branches, Tree.levels, List.map_cons]
    rfl

theorem lines_levelsOfAll (depth : Nat) : ∀ branches : List (Option (Tree Heading)),
    lines options (atDepth depth branches) =
      (Tree.levelsOfAll depth branches).map fun e => row options e.1 e.2
  | [] => by
    rw [atDepth, List.map_nil, lines]
    rfl
  | none :: rest => by
    rw [atDepth, List.map_cons, lines, ← atDepth, lines_levelsOfAll depth rest, Tree.levelsOfAll]
    rfl
  | some t :: rest => by
    rw [atDepth, List.map_cons, ← atDepth, lines_cons, lines_levels depth t,
      lines_levelsOfAll depth rest, Tree.levelsOfAll, List.map_append]
end

/-- Of what is indented, only a lone dash stands for an absent branch. -/
theorem row_shown (options : Options) (depth : Nat) (item : Option Heading) :
    ∃ shown, row options depth item = String.ofList (indentation options depth ++ shown) ∧
      (shown = ['-'] ↔ item = none) := by
  cases item with
  | none => exact ⟨['-'], rfl, by simp⟩
  | some heading =>
    obtain ⟨label, rest, hline⟩ : ∃ label rest : String, line options depth heading =
        String.ofList (indentation options depth) ++ (label ++ (" [" ++ rest)) :=
      ⟨_, _, by simp only [line, String.append_assoc]; rfl⟩
    refine ⟨(label ++ (" [" ++ rest)).toList, ?_, iff_of_false (fun h => ?_) nofun⟩
    · rw [row, hline, String.ofList_append, String.ofList_toList]
    · have hlength := congrArg List.length h
      simp only [String.toList_append, List.length_append] at hlength
      have hbracket : " [".toList.length = 2 := rfl
      rw [hbracket, List.length_singleton] at hlength
      omega

/-- A walk goes through a tree in order, and an outline has one line for each of its items, indented
by its depth, with a dash for the absent branches only. This holds for the trees that are handed
over, and for the nodes of a draft that have a range and below which nothing comes back. -/
theorem follows_walk (options : Options) :
    (∀ (α : Type) (tree : Tree α) (heading : α → Heading), tree.Walked ∧
      (tree.map heading).outline options = tree.entries.map fun e =>
        row options e.1.length (e.2.map fun t => heading t.label)) ∧
    (∀ (d : Draft) (tree : Tree Nat), d.Unfolds tree → (∀ i ∈ tree.walk, (d.node i).range.isSome) →
      d.tree tree.label = tree ∧
        d.outline tree.label options = .ok ((tree.map d.heading).outline options)) ∧
    ∀ depth item, ∃ shown,
      row options depth item = String.ofList (indentation options depth ++ shown) ∧
        (shown = ['-'] ↔ item = none) := by
  refine ⟨fun α tree heading => ⟨tree.walked, ?_⟩, fun d tree h hranges => ?_, row_shown options⟩
  · rw [Tree.outline, lines_levels, Tree.levels_map, Tree.levels_entries, List.map_map,
      List.map_map]
    refine List.map_congr_left fun e _ => ?_
    simp only [Function.comp, Nat.zero_add, Option.map_map]
    rfl
  · have hall : tree.walk.all (fun i => (d.node i).range.isSome) := List.all_eq_true.2 hranges
    rw [Draft.outline, h.tree_eq]
    exact ⟨rfl, if_pos hall⟩

def chosen : Draft :=
  ⟨"b".toList, some "S",
    [⟨.token, true, none, some (0, 1), [], some 1, {}⟩,
      ⟨.choice, true, none, some (0, 1), [none, some 0, none], none, {}⟩]⟩

theorem chosen_follows :
    let tree : Tree Nat := .node 1 [none, some (.leaf 0), none]
    chosen.Unfolds tree ∧ (∀ i ∈ tree.walk, (chosen.node i).range.isSome) ∧
      (tree.items true).map (Option.map Tree.label) = [some 1, none, some 0, none] ∧
      chosen.outline 1 {} = .ok ["S choice [0:1] 'b'", "  -", "  S token [0:1] 'b'", "  -"] := by
  intro tree
  have hunfolds : chosen.Unfolds tree := by
    refine .node rfl fun t ht => ?_
    obtain rfl : t = .leaf 0 := by simpa using ht
    exact .node rfl (by simp)
  have hranges : ∀ i ∈ tree.walk, (chosen.node i).range.isSome := by decide
  obtain ⟨hwalk, hdraft, -⟩ := follows_walk {}
  obtain ⟨hwalked, hlines⟩ := hwalk Nat tree chosen.heading
  refine ⟨hunfolds, hranges, hwalked.levels, ?_⟩
  refine (hdraft chosen tree hunfolds hranges).2.trans ?_
  rw [hlines]
  rfl

end Outline
end OrderedBnf
