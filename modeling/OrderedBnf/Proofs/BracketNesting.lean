import OrderedBnf.Proofs.Weave

/-! Brackets around the nodes of a tree come out nested as the nodes are, whatever plain texts are
attached between them. -/
namespace OrderedBnf

namespace Tree
variable {α : Type}

inductive Holds : Nat → Tree α → Nat → Tree α → Prop
  | self {depth tree} : Holds depth tree depth tree
  | within {depth a branches branch depth' tree} : some branch ∈ branches →
      Holds (depth + 1) branch depth' tree → Holds depth (.node a branches) depth' tree

def Descends (depth : Nat) (tree : Tree α) (n m : Nat × α) : Prop :=
  ∃ branches branch, Holds depth tree n.1 (.node n.2 branches) ∧ some branch ∈ branches ∧
    (m.1, some m.2) ∈ branch.levels (n.1 + 1)

/-- What lies below a node in a branch lies below it in the whole tree. -/
theorem Descends.below {depth : Nat} {a : α} {branches : List (Option (Tree α))} {branch : Tree α}
    {n m : Nat × α} (hb : some branch ∈ branches) (h : Descends (depth + 1) branch n m) :
    Descends depth (.node a branches) n m := by
  obtain ⟨branches', branch', hh, hrest⟩ := h
  exact ⟨branches', branch', .within hb hh, hrest⟩

theorem Holds.wellFormed {depth depth' : Nat} {tree tree' : Tree Mark}
    (h : Holds depth tree depth' tree') (hw : tree.WellFormed) : tree'.WellFormed := by
  induction h with
  | self => exact hw
  | within hb _ ih =>
    cases hw with
    | node _ _ _ hbranches => exact ih (hbranches _ hb)

theorem mem_solid {tree : Tree Mark} {depth : Nat} {n : Nat × Mark} :
    n ∈ tree.solid depth ↔ (n.1, some n.2) ∈ tree.levels depth ∧ ¬ n.2.isEmpty = true := by
  obtain ⟨d, m⟩ := n
  simp [solid, Option.filter_eq_some_iff]

/-- What lies below a node lies within it. -/
theorem Descends.within {depth : Nat} {tree : Tree Mark} {n m : Nat × Mark}
    (h : Descends depth tree n m) (hw : tree.WellFormed) (hm : ¬ m.2.isEmpty = true) :
    n.1 < m.1 ∧ n.2.start ≤ m.2.start ∧ m.2.stop ≤ n.2.stop := by
  obtain ⟨branches, branch, hh, hb, hl⟩ := h
  cases hh.wellFormed hw with
  | node _ hin _ hbranches =>
    obtain ⟨hs, ht⟩ := hin branch hb
    obtain ⟨hd, hs', _, ht'⟩ := Render.solid_within (hbranches branch hb) m (mem_solid.2 ⟨hl, hm⟩)
    exact ⟨hd, Int.le_trans hs hs', Int.le_trans ht' ht⟩

end Tree

namespace Render

/-- Of two non-empty nodes the later one in walking order lies below the earlier or to its right. -/
theorem solid_descends {tree : Tree Mark} (h : tree.WellFormed) : ∀ depth,
    (tree.solid depth).Pairwise fun a b => Tree.Descends depth tree a b ∨ a.2.stop ≤ b.2.start := by
  induction h with
  | @node m branches hle hin hord hwf ih =>
    intro depth
    have hmem {t : Tree Mark} (ht : t ∈ branches.filterMap id) : some t ∈ branches := by
      simpa using ht
    rw [solid_node, List.pairwise_append, List.pairwise_flatMap]
    refine ⟨?_, ⟨fun t ht => ?_, ?_⟩, ?_⟩
    · split
      · exact .nil
      · exact List.pairwise_singleton _ _
    · exact (ih t (hmem ht) _).imp fun hab => hab.imp_left (.below (hmem ht))
    · refine hord.imp_of_mem fun {a b} ha hb hab x hx y hy => .inr ?_
      obtain ⟨_, _, _, hxs⟩ := solid_within (hwf a (hmem ha)) x hx
      obtain ⟨_, hys, _, _⟩ := solid_within (hwf b (hmem hb)) y hy
      omega
    · intro x hx y hy
      obtain ⟨t, ht, hy⟩ := List.mem_flatMap.1 hy
      split at hx
      · cases hx
      · obtain rfl := List.mem_singleton.1 hx
        exact .inl ⟨branches, t, .self, hmem ht, (Tree.mem_solid.1 hy).1⟩

/-- Every opening has the closing of its own node, and between the two all are matched. -/
inductive Balanced : List Piece → Prop
  | nil : Balanced []
  | pair {n u v} : Balanced u → Balanced v → Balanced (.opens n :: (u ++ .closes n :: v))

/-- Words that are balanced make up a balanced word. -/
theorem Balanced.append {u v : List Piece} (hu : Balanced u) (hv : Balanced v) :
    Balanced (u ++ v) := by
  induction hu with
  | nil => exact hv
  | pair hinner _ _ ih =>
    rw [List.cons_append, List.append_assoc, List.cons_append]
    exact .pair hinner ih

theorem gap_filter (shown : Int → Bool) (start stop : Int) :
    (gap shown start stop).filter Piece.isBracket = [] := by
  simp [gap, List.filter_map, Piece.isBracket, Function.comp_def]

mutual
theorem weave_balanced (shown : Int → Bool) (depth : Nat) :
    ∀ tree : Tree Mark, Balanced ((weave shown depth tree).filter Piece.isBracket)
  | .node m branches => by
    have hb := weaveAll_balanced shown (depth + 1) m.start m.stop branches
    rw [weave]
    split
    · exact .nil
    · rw [List.filter_append, List.filter_append, Piece.letters, Piece.letters]
      split
      · rename_i hp
        have h := Balanced.pair (n := (depth, m)) hb .nil
        simpa [List.filter_cons, Piece.isBracket, hp] using h
      · simpa using hb

theorem weaveAll_balanced (shown : Int → Bool) (depth : Nat) (cursor stop : Int) :
    ∀ branches : List (Option (Tree Mark)),
      Balanced ((weaveAll shown depth cursor stop branches).filter Piece.isBracket)
  | [] => by
    rw [weaveAll, gap_filter]
    exact .nil
  | none :: rest => weaveAll_balanced shown depth cursor stop rest
  | some (.node m branches) :: rest => by
    rw [weaveAll, List.filter_append, List.filter_append, gap_filter, List.nil_append]
    exact (weave_balanced shown depth _).append (weaveAll_balanced shown depth m.stop stop rest)
end

def brackets (tree : Tree Mark) : List Piece := (pieces tree).filter Piece.isBracket

theorem filter_letters (ps : List Piece) :
    (ps.flatMap Piece.letters).filter Piece.isBracket = ps.filter Piece.isBracket := by
  induction ps with
  | nil => rfl
  | cons p ps ih =>
    rw [List.flatMap_cons, List.filter_append, ih, List.filter_cons]
    cases p with
    | chars a b => simp [Piece.letters, Piece.isBracket, List.filter_map, Function.comp_def]
    | _ n => cases h : isPair n <;> simp [Piece.letters, Piece.isBracket, h]

section Brackets
variable {tree : Tree Mark} (h : tree.WellFormed) (he : ¬ (Tree.label tree).isEmpty)
include h he

theorem brackets_eq : brackets tree =
    (weave (fun o => ¬ Hides (tree.solid 0) o) 0 tree).filter Piece.isBracket := by
  rw [brackets, ← filter_letters, pieces_letters h he]

theorem brackets_comes : (brackets tree).Pairwise Comes := by
  rw [brackets_eq h he]
  exact (weave_comes h).filter _

theorem opens_mem_brackets {n : Nat × Mark} :
    .opens n ∈ brackets tree ↔ n ∈ tree.solid 0 ∧ isPair n := by
  rw [brackets_eq h he, List.mem_filter, mem_weave h]
  simp [Piece.Woven, Piece.isBracket]

theorem closes_mem_brackets {n : Nat × Mark} :
    .closes n ∈ brackets tree ↔ n ∈ tree.solid 0 ∧ isPair n := by
  rw [brackets_eq h he, List.mem_filter, mem_weave h]
  simp [Piece.Woven, Piece.isBracket]

omit he in
/-- Two non-empty nodes are the same, or one lies below the other, or they lie side by side. -/
theorem solid_cases {n m : Nat × Mark} (hn : n ∈ tree.solid 0) (hm : m ∈ tree.solid 0) :
    n = m ∨ (Tree.Descends 0 tree n m ∨ n.2.stop ≤ m.2.start) ∨
      Tree.Descends 0 tree m n ∨ m.2.stop ≤ n.2.start := by
  by_cases hne : n = m
  · exact .inl hne
  · have hsymm : Std.Symm fun a b => (Tree.Descends 0 tree a b ∨ a.2.stop ≤ b.2.start) ∨
        Tree.Descends 0 tree b a ∨ b.2.stop ≤ a.2.start := ⟨fun _ _ => Or.symm⟩
    have hall : (tree.solid 0).Pairwise fun a b => (Tree.Descends 0 tree a b ∨ a.2.stop ≤ b.2.start) ∨
        Tree.Descends 0 tree b a ∨ b.2.stop ≤ a.2.start := (solid_descends h 0).imp Or.inl
    exact .inr (hall.forall hn hm hne)

/-- One pair stands within another exactly if its node lies below the node of the other. -/
theorem enclosed_iff_descends {n m : Nat × Mark} (hn : n ∈ tree.solid 0) (hnp : isPair n)
    (hm : m ∈ tree.solid 0) (hmp : isPair m) :
    [.opens n, .opens m, .closes m, .closes n].Sublist (brackets tree) ↔ Tree.Descends 0 tree n m := by
  obtain ⟨_, _, hnlt, _⟩ := solid_within h n hn
  obtain ⟨_, _, hmlt, _⟩ := solid_within h m hm
  constructor
  · intro hs
    have hc := (brackets_comes h he).sublist hs
    have ho : Comes (.opens n) (.opens m) := List.rel_of_pairwise_cons hc List.mem_cons_self
    have hcl : Comes (.closes m) (.closes n) :=
      List.rel_of_pairwise_cons hc.tail.tail List.mem_cons_self
    rw [comes_opens hnp hmp] at ho
    rw [comes_closes hmp hnp] at hcl
    rcases solid_cases h hn hm with rfl | (hd | hd) | hd | hd
    · omega
    · exact hd
    · omega
    · have := hd.within h (Tree.mem_solid.1 hn).2
      omega
    · omega
  · intro hd
    have hw := hd.within h (Tree.mem_solid.1 hm).2
    have ho : Comes (.opens n) (.opens m) := by
      rw [comes_opens hnp hmp]
      omega
    have hcl : Comes (.closes m) (.closes n) := by
      rw [comes_closes hmp hnp]
      omega
    have hcross {a b : Nat × Mark} (hab : a.2.start < b.2.stop) : Comes (.opens a) (.closes b) := hab
    have hword : [Piece.opens n, .opens m, .closes m, .closes n].Pairwise Comes := by
      simp [ho, hcl, hcross hnlt, hcross hmlt, hcross (show n.2.start < m.2.stop by omega),
        hcross (show m.2.start < n.2.stop by omega)]
    have hmem : [Piece.opens n, .opens m, .closes m, .closes n] ⊆ brackets tree := by
      intro p hp
      simp only [List.mem_cons, List.not_mem_nil, or_false] at hp
      rcases hp with rfl | rfl | rfl | rfl
      · exact (opens_mem_brackets h he).2 ⟨hn, hnp⟩
      · exact (opens_mem_brackets h he).2 ⟨hm, hmp⟩
      · exact (closes_mem_brackets h he).2 ⟨hm, hmp⟩
      · exact (closes_mem_brackets h he).2 ⟨hn, hnp⟩
    have hanti : Std.Antisymm Comes := ⟨fun _ _ hab hba => absurd hba hab.asymm⟩
    exact List.sublist_of_subperm_of_pairwise (List.subperm_of_subset (nodup_of_comes hword) hmem)
      hword (brackets_comes h he)

end Brackets

end Render

open Render

/-- The pairs of brackets in a rendered text are balanced, each node's opening with its own
closing. There is one pair for each non-empty node with both texts, and one pair stands within
another exactly if its node lies below the node of the other; plain texts and hidden nodes make no
difference. -/
theorem Tree.brackets_nest (text : Text) (tree : Tree Mark) (hw : tree.WellFormed)
    (hroot : (Tree.label tree).start < (Tree.label tree).stop) :
    tree.render text = (pieces tree).flatMap (·.render text) ∧
    Balanced (brackets tree) ∧
    (∀ n, (brackets tree).count (.opens n) = if n ∈ tree.solid 0 ∧ isPair n then 1 else 0) ∧
    (∀ n, (brackets tree).count (.closes n) = if n ∈ tree.solid 0 ∧ isPair n then 1 else 0) ∧
    ∀ n ∈ tree.solid 0, ∀ m ∈ tree.solid 0, isPair n → isPair m →
      ([.opens n, .opens m, .closes m, .closes n].Sublist (brackets tree) ↔
        Descends 0 tree n m) := by
  have he : ¬ (Tree.label tree).isEmpty := by
    simp only [Mark.isEmpty, decide_eq_true_eq]
    omega
  have hnodup := nodup_of_comes (brackets_comes hw he)
  refine ⟨rfl, ?_, fun n => ?_, fun n => ?_, fun n hn m hm hnp hmp => ?_⟩
  · rw [brackets_eq hw he]
    exact weave_balanced _ _ _
  · rw [hnodup.count]
    exact if_congr (opens_mem_brackets hw he) rfl rfl
  · rw [hnodup.count]
    exact if_congr (closes_mem_brackets hw he) rfl rfl
  · exact enclosed_iff_descends hw he hn hnp hm hmp

theorem bracketed_brackets_nest :
    let outer : Mark := { before := some ['('], after := some [')'], start := 0, stop := 5 }
    let inner : Mark := { before := some ['<'], after := some ['>'], start := 3, stop := 5 }
    Balanced (brackets bracketed) ∧ Tree.Descends 0 bracketed (0, outer) (2, inner) ∧
      [.opens (0, outer), .opens (2, inner), .closes (2, inner), .closes (0, outer)].Sublist
        (brackets bracketed) := by
  intro outer inner
  obtain ⟨-, hbalanced, -, -, hnest⟩ :=
    Tree.brackets_nest "ab cd".toList bracketed bracketed_wellFormed (by decide)
  have hd : Tree.Descends 0 bracketed (0, outer) (2, inner) :=
    ⟨_, _, .self, .tail _ (.tail _ (.tail _ (.head _))), .tail _ (.head _)⟩
  exact ⟨hbalanced, hd, (hnest _ (by decide) _ (by decide) rfl rfl).2 hd⟩

end OrderedBnf
