import OrderedBnf.Proofs.Drafts
import OrderedBnf.Proofs.NormalForm

/-! Compiling an expression into a draft comes to the same tree as compiling it, or to the same
fault. -/
namespace OrderedBnf

namespace Rule

theorem shapesOf_eq (rules : List Rule) :
    shapesOf rules = rules.map fun rule => some rule.shape := by
  induction rules with
  | nil => rfl
  | cons rule rules ih => rw [shapesOf, ih, List.map_cons]

theorem shape_eq (rule : Rule) : rule.shape =
    .node (rule.kind, some (rule.start, rule.stop))
      (rule.branches.map fun branch => some branch.shape) := by
  cases rule with
  | leaf | optional | repetition => rfl
  | sequence rules o | choice rules o =>
    rw [shape, shapesOf_eq]
    rfl

end Rule

namespace Draft
variable {d d' : Draft} {tree : Tree Nat} {trees : List (Tree Nat)}

/-- The kinds and ranges of a tree tell those of its root. -/
theorem root_of_shape {rule : Rule} (h : tree.map d.kindAndRange = rule.shape) :
    (d.node tree.label).kind = rule.kind ∧
      (d.node tree.label).range = some ((rule.start : Int), (rule.stop : Int)) := by
  have hlabel := congrArg Tree.label h
  rw [Tree.label_map, rule.shape_eq] at hlabel
  exact Prod.mk.inj hlabel

theorem extend_shapes {rules : List Rule} (start stop : Nat)
    (h : trees.map (Tree.map d.kindAndRange) = rules.map Rule.shape) :
    (trees.map fun tree => (d.node tree.label).range).foldlM extend
        (some ((start : Int), (stop : Int))) =
      .ok (some ((start : Int), ((rules.map Rule.stop).foldl max stop : Nat))) := by
  induction trees generalizing rules stop with
  | nil =>
    obtain rfl := List.map_eq_nil_iff.1 h.symm
    rfl
  | cons tree trees ih =>
    obtain ⟨rule, rules, rfl, hrule, hrules⟩ := List.map_eq_cons_iff.1 h.symm
    rw [List.map_cons, List.foldlM_cons, (root_of_shape hrule.symm).2]
    have hmax : max (stop : Int) rule.stop = (max stop rule.stop : Nat) := by omega
    rw [extend, hmax]
    exact ih _ hrules.symm

/-- What the right side of a cut gives to the chain stands in the draft as well. -/
theorem Planted.exists_operands {right : Rule} (h : d.Planted [tree])
    (hshape : tree.map d.kindAndRange = right.shape) (kind : Kind) :
    ∃ trees, (if (d.node tree.label).kind = kind then (d.node tree.label).branches
        else [some tree.label]) = (trees.map fun tree => some tree.label) ∧
      d.Planted trees ∧ trees.map (Tree.map d.kindAndRange) = (right.operands kind).map Rule.shape ∧
      ∀ k ∈ trees.flatMap Tree.walk, k ∈ tree.walk := by
  rw [Rule.operands, (root_of_shape hshape).1]
  split
  · have hknown := h.known
    have hnodup := h.nodup
    cases h.stands tree List.mem_cons_self with
    | @node i below hb _ hstands =>
      rw [walk_over] at hknown hnodup
      refine ⟨below, hb, ⟨hstands, fun k hk => hknown k (List.mem_cons_of_mem _ hk),
        (List.nodup_cons.1 hnodup).2⟩, ?_, fun k hk => ?_⟩
      · rw [Tree.map, Tree.mapAll_some, Rule.shape_eq, Tree.node.injEq] at hshape
        refine List.map_injective_iff.2 (fun _ _ h => Option.some.inj h) ?_
        rw [List.map_map, List.map_map]
        exact hshape.2
      · rw [Tree.walk, Tree.walkAll_some]
        exact List.mem_cons_of_mem _ hk
  · refine ⟨[tree], rfl, h, ?_, fun k hk => ?_⟩
    · rw [List.map_singleton, List.map_singleton, hshape]
    · rwa [List.flatMap_singleton] at hk

theorem extend_new {rule : Rule} {rules : List Rule}
    (h : trees.map (Tree.map d.kindAndRange) = (rule :: rules).map Rule.shape) :
    (trees.map fun tree => (d.node tree.label).range).foldlM extend none =
      .ok (some ((rule.start : Int), (((rule :: rules).map Rule.stop).foldl max 0 : Nat))) := by
  obtain ⟨tree, trees, rfl, hrule, hrules⟩ := List.map_eq_cons_iff.1 h
  rw [List.map_cons, List.foldlM_cons, (root_of_shape hrule).2, List.map_cons, List.foldl_cons,
    Nat.max_eq_right (Nat.zero_le _)]
  exact extend_shapes rule.start rule.stop hrules

/-- What a draft comes to hold with a tree that is made in it: what it held, and the nodes of the
tree, all of them new. -/
structure Built (d d' : Draft) (rule : Rule) (tree : Tree Nat) : Prop extends Kept d d' where
  fresh : ∀ k ∈ tree.walk, d.nodes.length ≤ k
  planted : d'.Planted [tree]
  root : (d'.node tree.label).parent = none
  shape : tree.map d'.kindAndRange = rule.shape

namespace Built
variable {d₁ : Draft} {rule : Rule}

/-- What has been built stands in the draft. -/
theorem stands (h : Built d d' rule tree) : d'.Stands tree :=
  h.planted.stands tree List.mem_cons_self

/-- A new node over trees that are new themselves. -/
theorem above {kind : Kind} {range : Option (Int × Int)} {rules : List Rule} (hkept : d.Kept d₁)
    (hfresh : ∀ k ∈ trees.flatMap Tree.walk, d.nodes.length ≤ k) (hp : d₁.Planted trees)
    (hshapes : trees.map (Tree.map d₁.kindAndRange) = rules.map Rule.shape)
    (hrule : rule.shape = .node (kind, range) (rules.map fun branch => some branch.shape))
    (h : d₁.Over d' kind range trees) :
    Built d d' rule (.node d₁.nodes.length (trees.map some)) where
  text := h.text.trans hkept.text
  length := by
    rw [h.length]
    exact hkept.length.trans (Nat.le_succ _)
  node k hk := by
    rw [h.other k (hk.trans_le hkept.length), hkept.node k hk]
    intro hl
    obtain ⟨tree, ht, rfl⟩ := List.mem_map.1 hl
    exact absurd hk (Nat.not_lt.2 (hfresh _ (hp.mem ht tree.label_mem_walk).1))
  fresh := by
    rw [Tree.walk, Tree.walkAll_some, List.forall_mem_cons]
    exact ⟨hkept.length, hfresh⟩
  planted := h.planted hp
  root := by rw [Tree.label, h.here]
  shape := by
    have hsome := congrArg (List.map some) hshapes
    rw [List.map_map, List.map_map] at hsome
    rw [h.map hp, hrule]
    exact congrArg _ hsome

theorem place (h : Built d d' rule tree) (start stop : Nat) (text : Text) :
    Built d (d'.place tree.label start stop)
      (rule.withOrigin ⟨start, stop, false, none, text⟩) tree where
  text := h.text
  length := by
    rw [length_place]
    exact h.length
  node k hk := by
    have hne : k ≠ tree.label := (hk.trans_le (h.fresh _ tree.label_mem_walk)).ne
    rw [node_place (h.planted.label_lt List.mem_cons_self), if_neg hne, h.node k hk]
  fresh := h.fresh
  planted := h.planted.place start stop
  root := by
    rw [node_place (h.planted.label_lt List.mem_cons_self), if_pos rfl]
    exact h.root
  shape := by
    have hshape := h.shape
    cases tree with
    | node i branches =>
      rw [Tree.map, Rule.shape_eq, Tree.node.injEq, kindAndRange, Prod.mk.injEq] at hshape
      rw [Tree.label, h.planted.map_place, Rule.shape_eq, Rule.withOrigin_kind,
        Rule.withOrigin_branches, Rule.start, Rule.stop, Rule.withOrigin_origin, hshape.1.1,
        hshape.2]

end Built

section Steps
variable {d₁ d₂ : Draft} {left right body : Rule} {leftTree rightTree : Tree Nat} (text : Text)

/-- Joining two built operands builds the chain of both. -/
theorem Built.join (cut : Cut) (hl : Built d d₁ left leftTree) (hr : Built d₁ d₂ right rightTree) :
    ∃ d' tree, d₂.join cut leftTree.label rightTree.label = .ok (d', tree.label) ∧
      Built d d' (Rule.join text cut left right) tree := by
  obtain ⟨operands, hoperands, hp, hshapes, hsub⟩ := hr.planted.exists_operands hr.shape cut.kind
  have hleft : leftTree.map d₂.kindAndRange = left.shape := by
    rw [← hl.shape]
    refine leftTree.map_congr fun k hk => ?_
    rw [kindAndRange, kindAndRange, hr.node k (hl.planted.mem List.mem_cons_self hk).2]
  replace hp : d₂.Planted (leftTree :: operands) := by
    refine (hl.planted.kept hr.toKept).cons hp fun k hk hmem => ?_
    have hlt := (hl.planted.mem List.mem_cons_self hk).2
    exact absurd hlt (Nat.not_lt.2 (hr.fresh k (hsub k hmem)))
  replace hshapes : (leftTree :: operands).map (Tree.map d₂.kindAndRange) =
      (left :: right.operands cut.kind).map Rule.shape := by
    rw [List.map_cons, List.map_cons, hleft, hshapes]
  obtain ⟨d', hd', hover⟩ := hp.exists_over cut.kind (extend_new hshapes)
  refine ⟨d', _, ?_, .above (hl.toKept.trans hr.toKept) ?_ hp hshapes ?_ hover⟩
  · rw [Draft.join, hoperands]
    exact congrArg (Except.bind · _) hd'
  · rw [List.flatMap_cons, List.forall_mem_append]
    exact ⟨hl.fresh, fun k hk => hl.length.trans (hr.fresh k (hsub k hk))⟩
  · rw [Rule.shape_eq, Rule.join_kind, Rule.join_branches, Rule.start, Rule.stop, Rule.join_origin]

theorem Built.branches_isEmpty (h : Built d d₁ body tree) :
    (d₁.node tree.label).branches.isEmpty = body.branches.isEmpty := by
  have hshape := h.shape
  cases h.stands with
  | node hb =>
    rw [Tree.map, Tree.mapAll_some, Rule.shape_eq, Tree.node.injEq] at hshape
    have hempty := congrArg List.isEmpty hshape.2
    rw [List.isEmpty_map, List.isEmpty_map] at hempty
    rw [Tree.label, hb, List.isEmpty_map, hempty]

/-- A new node over one that is new itself, in the range of the brackets around it. -/
theorem Built.enclose {kind : Kind} {rule : Rule} {start stop : Nat} (h : Built d d₁ body tree)
    (hkind : rule.kind = kind) (hbranches : rule.branches = [body])
    (horigin : rule.origin = ⟨start, stop, false, none, text⟩) :
    ∃ d' tree', (d₁.addNode kind).1.attachAll d₁.nodes.length [some tree.label] = .ok d' ∧
      tree'.label = d₁.nodes.length ∧
      Built d (d'.place d₁.nodes.length start stop) rule tree' := by
  have hshapes : [tree].map (Tree.map d₁.kindAndRange) = [body].map Rule.shape :=
    congrArg (fun shape => [shape]) h.shape
  obtain ⟨d', hd', hover⟩ := h.planted.exists_over kind (extend_new hshapes)
  refine ⟨d', .node d₁.nodes.length ([tree].map some), hd', rfl, ?_⟩
  let covering := rule.withOrigin ⟨body.start, max 0 body.stop, false, none, text⟩
  have hagain : covering.withOrigin ⟨start, stop, false, none, text⟩ = rule := by
    rw [← horigin]
    cases rule <;> rfl
  have hfresh : ∀ k ∈ [tree].flatMap Tree.walk, d.nodes.length ≤ k := by
    rw [List.flatMap_singleton]
    exact h.fresh
  have hcovering : covering.shape = .node (kind, some (body.start, (max 0 body.stop : Nat)))
      ([body].map fun branch => some branch.shape) := by
    rw [Rule.shape_eq, Rule.withOrigin_kind, Rule.withOrigin_branches, Rule.start, Rule.stop,
      Rule.withOrigin_origin, hkind, hbranches]
  rw [← hagain]
  exact Built.place (.above h.toKept hfresh h.planted hshapes hcovering hover) ..

/-- Bracketing a built body builds the group, the optional or the repetition of it. -/
theorem Built.bracket (s : Stretch) (opening : Char) (h : Built d d₁ body tree)
    (hnormal : body.Normal text) :
    ∃ d' tree', d₁.bracket s opening tree.label = .ok (d', tree'.label) ∧
      Built d d' (Rule.bracket text s opening body) tree' := by
  unfold Draft.bracket Rule.bracket
  by_cases hgroup : opening = '('
  · simp only [if_pos hgroup, h.branches_isEmpty]
    cases body with
    | leaf => exact ⟨d₁, tree, rfl, h⟩
    | sequence rules | choice rules =>
      have hne : rules ≠ [] := by
        rintro rfl
        exact absurd (hnormal.chain (by simp [Rule.kind])).1 (by simp [Rule.branches])
      refine ⟨_, tree, if_neg ?_, h.place s.start s.stop text⟩
      rwa [Rule.branches, List.isEmpty_iff]
    | _ => exact ⟨_, tree, rfl, h.place s.start s.stop text⟩
  · simp only [if_neg hgroup]
    by_cases hoptional : opening = '['
    · simp only [if_pos hoptional]
      have hkind : (Rule.optional body ⟨s.start, s.stop, false, none, text⟩).kind = .optional := rfl
      obtain ⟨d', tree', hd', hlabel, hbuilt⟩ := h.enclose text hkind rfl rfl
      refine ⟨_, tree', ?_, hbuilt⟩
      rw [hlabel]
      exact congrArg (Except.bind · _) hd'
    · simp only [if_neg hoptional]
      have hkind : (Rule.repetition body ⟨s.start, s.stop, false, none, text⟩).kind = .repetition :=
        rfl
      obtain ⟨d', tree', hd', hlabel, hbuilt⟩ := h.enclose text hkind rfl rfl
      refine ⟨_, tree', ?_, hbuilt⟩
      rw [hlabel]
      exact congrArg (Except.bind · _) hd'

end Steps

/-- Assembling comes to what compiling does: to the same fault, or to the same tree. -/
def Agrees (d : Draft) (assembled : Except AssemblyError (Draft × Nat)) :
    Except SyntaxError Rule → Prop
  | .error error => assembled = .error (.malformed error)
  | .ok rule => ∃ d' tree, assembled = .ok (d', Tree.label tree) ∧ Built d d' rule tree

/-- What goes on alike with whatever is built first agrees as a whole. -/
theorem Agrees.bind {d₁ : Draft} {assembled : Except AssemblyError (Draft × Nat)}
    {compiled : Except SyntaxError Rule} (h : d₁.Agrees assembled compiled)
    {next : Draft × Nat → Except AssemblyError (Draft × Nat)}
    {next' : Rule → Except SyntaxError Rule}
    (hnext : ∀ d₂ tree rule, compiled = .ok rule → Built d₁ d₂ rule tree →
      d.Agrees (next (d₂, tree.label)) (next' rule)) :
    d.Agrees (assembled.bind next) (compiled.bind next') := by
  cases compiled with
  | error error =>
    obtain rfl : assembled = .error (.malformed error) := h
    rfl
  | ok rule =>
    obtain ⟨d₂, tree, rfl, hbuilt⟩ := h
    exact hnext d₂ tree rule rfl hbuilt

section Agreement
variable {s : Stretch} {text : Text}

theorem assembleStretch_error {error : SyntaxError} (h : s.cut? = .error error) :
    d.assembleStretch s = .error (.malformed error) := by
  rw [assembleStretch]
  split <;> simp_all

theorem assembleStretch_cut {cut : Cut} (h : s.cut? = .ok (some cut)) :
    d.assembleStretch s = (do
      let (d, left) ← d.assembleStretch (s.before cut).trim
      let (d, right) ← d.assembleStretch (s.after cut).trim
      (d.join cut left right).mapError .unattached) := by
  rw [assembleStretch]
  split
  · simp_all
  · rename_i cut' h'
    obtain rfl : cut = cut' := by simpa [h] using h'
    rfl
  · simp_all

theorem assembleStretch_piece (h : s.cut? = .ok none) (hne : s.chars ≠ []) :
    d.assembleStretch s = (match closingOf? (s.chars.head hne) with
      | none => do
        let rule ← (Rule.compileLeaf d.text s (s.chars.head hne) (s.chars.getLast hne)).mapError
          .malformed
        let d' ← (d.addLeaf rule.kind s.start s.stop false none).mapError .unattached
        return (d', d.nodes.length)
      | some closing =>
        if s.chars.getLast hne ≠ closing then
          .error (.malformed
            ((Fault.wrongClosing s.chars (s.chars.head hne) closing).atOffset s.start))
        else if s.inner.trim.chars = [] then
          .error (.malformed (Fault.emptyBrackets.atOffset s.start))
        else do
          let (d, body) ← d.assembleStretch s.inner.trim
          (d.bracket s (s.chars.head hne) body).mapError .unattached) := by
  rw [assembleStretch]
  split
  · simp_all
  · simp_all
  · exact dif_neg hne

theorem compileLeaf_form {first last : Char} {rule : Rule}
    (h : Rule.compileLeaf text s first last = .ok rule) :
    ∃ form, rule = .leaf form ⟨s.start, s.stop, false, none, text⟩ := by
  rw [Rule.compileLeaf] at h
  split at h
  · split at h <;> cases h
    exact ⟨_, rfl⟩
  · split at h
    · cases h
      exact ⟨_, rfl⟩
    · split at h <;> cases h
      exact ⟨_, rfl⟩

theorem exists_addLeaf (form : Leaf) (hw : s.Within d.text) :
    ∃ d' tree, d.addLeaf form.kind s.start s.stop false none = .ok d' ∧
      tree.label = d.nodes.length ∧
      Built d d' (.leaf form ⟨s.start, s.stop, false, none, d.text⟩) tree := by
  have hle := hw.stop_le
  have hstart : s.start ≤ s.stop := Nat.le_add_right _ _
  have hover : d.Over (d.add ⟨form.kind, false, none, some (s.start, s.stop), [], none, {}⟩)
      form.kind (some (s.start, s.stop)) [] := by
    refine ⟨rfl, List.length_append, ?_, nofun, fun k hk _ => ?_⟩
    · exact (d.node_add _ _).trans (if_pos rfl)
    · exact (d.node_add _ _).trans (if_neg hk.ne)
  have hp : d.Planted [] := ⟨nofun, nofun, List.nodup_nil⟩
  have hshapes : [].map (Tree.map d.kindAndRange) = [].map Rule.shape := rfl
  refine ⟨_, _, if_pos ?_, rfl,
    .above (.refl d) (fun _ hk => by cases hk) hp hshapes rfl hover⟩
  simp only [Bool.and_eq_true, decide_eq_true_eq]
  omega

theorem assembleStretch_agrees (hw : s.Within text) (hd : d.text = text) :
    d.Agrees (d.assembleStretch s) (Rule.compileStretch text s) := by
  fun_induction Rule.compileStretch text s generalizing d with
  | case1 s error h => exact assembleStretch_error h
  | case2 s cut hc ihl ihr =>
    rw [assembleStretch_cut hc]
    refine (ihl (hw.before cut).trim hd).bind fun d₁ leftTree left _ hleft => ?_
    have hwr := (hw.after (Stretch.cut?_offset_lt hc)).trim
    refine (ihr hwr (hleft.text.trans hd)).bind fun d₂ rightTree right _ hright => ?_
    obtain ⟨d', tree, hjoin, hbuilt⟩ := hleft.join text cut hright
    exact ⟨d', tree, congrArg (Except.mapError _) hjoin, hbuilt⟩
  | case3 s hc hnil =>
    rw [Draft.Agrees, assembleStretch]
    split
    · simp_all
    · simp_all
    · exact dif_pos hnil
  | case4 s hc hne =>
    rename_i ho
    rw [assembleStretch_piece hc hne, ho, hd]
    dsimp only
    cases hleaf : Rule.compileLeaf text s (s.chars.head hne) (s.chars.getLast hne) with
    | error error => rfl
    | ok rule =>
      obtain ⟨form, rfl⟩ := compileLeaf_form hleaf
      obtain ⟨d', tree, hadd, hlabel, hbuilt⟩ := exists_addLeaf form (hd ▸ hw)
      refine ⟨d', tree, ?_, hd ▸ hbuilt⟩
      have hkind : (Rule.leaf form ⟨s.start, s.stop, false, none, text⟩).kind = form.kind := rfl
      simp only [Except.mapError, bind, Except.bind, hkind, hadd, hlabel]
      rfl
  | case5 s hc hne _ _ closing =>
    rename_i ho hlast
    rw [assembleStretch_piece hc hne, ho]
    exact if_pos hlast
  | case6 s hc hne _ _ closing =>
    rename_i ho hlast hinner
    rw [assembleStretch_piece hc hne, ho]
    exact (if_neg hlast).trans (if_pos hinner)
  | case7 s hc hne _ _ closing =>
    rename_i ho hlast hinner ih
    obtain ⟨inner, hchars⟩ := Rule.exists_enclosed hne hinner
    have hwi := (hw.inner hchars).trim
    rw [assembleStretch_piece hc hne, ho]
    dsimp only
    rw [if_neg hlast, if_neg hinner]
    refine (ih hwi hd).bind fun d₁ tree body hbody hbuilt => ?_
    have hnormal := (Rule.Compiled.of_compileStretch hbody).normal hwi body body.self_mem_nodes
    obtain ⟨d', tree', hbracket, hbuilt'⟩ := hbuilt.bracket text s (s.chars.head hne) hnormal
    exact ⟨d', tree', congrArg (Except.mapError _) hbracket, hbuilt'⟩

end Agreement

theorem assemble_agrees (text : Text) :
    Draft.Agrees ⟨text, none, []⟩ (assemble text) (Rule.compile text) := by
  rw [assemble, Rule.compile]
  split
  · rfl
  · exact assembleStretch_agrees (Stretch.Within.trim ⟨[], [], by simp, rfl⟩) rfl

end Draft

namespace Rule

/-- What compiles is in normal form at each of its nodes. It is the tree of a draft that is compiled
into node by node: there each node has one place, and is the parent of each of its branches, none of
which is absent. -/
theorem compile_normal {text : Text} {rule : Rule} (h : compile text = .ok rule) :
    (∀ node ∈ rule.nodes, node.Normal text) ∧
    ∃ d root, Draft.assemble text = .ok (d, root) ∧ d.text = text ∧ d.shape root = rule.shape ∧
      (d.tree root).walk.Nodup ∧ (d.node root).parent = none ∧
      ∀ i ∈ (d.tree root).walk, ∀ branch ∈ (d.node i).branches,
        ∃ child, branch = some child ∧ (d.node child).parent = some i := by
  obtain ⟨-, hcompiled⟩ := compile_ok h
  refine ⟨hcompiled.normal (Stretch.Within.trim ⟨[], [], by simp, rfl⟩), ?_⟩
  have hagrees := Draft.assemble_agrees text
  rw [h] at hagrees
  obtain ⟨d, tree, hd, hbuilt⟩ := hagrees
  have htree := hbuilt.planted.tree_eq
  have hnodup := hbuilt.planted.nodup
  rw [List.flatMap_singleton] at hnodup
  refine ⟨d, tree.label, hd, hbuilt.text, ?_, ?_, hbuilt.root, ?_⟩
  · rw [Draft.shape, htree, hbuilt.shape]
  · rwa [htree]
  · rw [htree]
    exact hbuilt.stands.parents

/-- A sequence that ends in a group, which is spliced, beside an optional name. -/
theorem spliced_group_normal :
    let text := "a (b c) | [d]".toList
    ∃ rule d root, compile text = .ok rule ∧ rule.nodes.map kind =
        [.choice, .sequence, .identifier, .identifier, .identifier, .optional, .identifier] ∧
      (∀ node ∈ rule.nodes, node.Normal text) ∧
      Draft.assemble text = .ok (d, root) ∧ d.shape root = rule.shape ∧
      (d.tree root).walk.Nodup := by
  intro text
  let origin (start stop : Nat) : Origin := ⟨start, stop, false, none, text⟩
  let name (start : Nat) : Rule := .leaf .reference (origin start (start + 1))
  let rule : Rule := .choice [.sequence [name 0, name 3, name 5] (origin 0 6),
    .optional (name 11) (origin 10 13)] (origin 0 13)
  have h : compile text = .ok rule := by decide +kernel
  obtain ⟨hnodes, d, root, hd, -, hshape, hnodup, -⟩ := compile_normal h
  exact ⟨rule, d, root, h, rfl, hnodes, hd, hshape, hnodup⟩

end Rule
end OrderedBnf
