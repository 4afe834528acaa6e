import OrderedBnf.Proofs.Written

/-! Decorations change the text of the node that they lie on or below, and nothing around it. -/
namespace OrderedBnf

def Mark.Bare (m : Mark) : Prop := m.toDecoration = {}

/-- A node somewhere in a tree that is bare everywhere else. -/
inductive Tree.BareAround (node : Tree Mark) : Tree Mark → Prop
  | self : BareAround node node
  | above {m front tree back} : m.Bare → (∀ t, some t ∈ front ++ back → ∀ n ∈ t.walk, n.Bare) →
      BareAround node tree → BareAround node (.node m (front ++ some tree :: back))

namespace Render

section Attached
variable (text : Text) (nodes : List (Nat × Mark)) (o : Int)

def attached : Text := (closing nodes o ++ opening nodes o).flatMap (Piece.render text)

theorem attached_eq : attached text nodes o =
    (sortBy closingKey (closers o nodes)).flatMap (·.2.after.getD []) ++
      (sortBy openingKey (openers o nodes)).flatMap (·.2.before.getD []) := by
  rw [attached, closing, opening, List.flatMap_append, List.flatMap_map, List.flatMap_map]
  rfl

theorem sortBy_map {α β : Type} {f : α → β} {key : α → List Int} {key' : β → List Int}
    (h : ∀ a b, keyLE (key a) (key b) = keyLE (key' (f a)) (key' (f b))) (l : List α) :
    sortBy key' (l.map f) = (sortBy key l).map f := by
  rw [sortBy, sortBy, List.map_mergeSort]
  exact fun a _ b _ => h a b

/-- Only how deep nodes lie below one another matters. -/
theorem attached_deeper (more : Nat) :
    attached text (nodes.map (Tree.deeper more)) o = attached text nodes o := by
  have hclosing (a b : Nat × Mark) : keyLE (closingKey a) (closingKey b) =
      keyLE (closingKey (Tree.deeper more a)) (closingKey (Tree.deeper more b)) := by
    rw [Bool.eq_iff_iff, keyLE_closingKey, keyLE_closingKey]
    simp [ClosesBefore, Tree.deeper]
  have hopening (a b : Nat × Mark) : keyLE (openingKey a) (openingKey b) =
      keyLE (openingKey (Tree.deeper more a)) (openingKey (Tree.deeper more b)) := by
    rw [Bool.eq_iff_iff, keyLE_openingKey, keyLE_openingKey]
    simp [OpensBefore, Tree.deeper]
  rw [attached_eq, attached_eq, closers, openers, List.filter_map, List.filter_map,
    sortBy_map hclosing, sortBy_map hopening, List.flatMap_map, List.flatMap_map]
  rfl

variable {nodes o}

theorem attached_eq_nil (hstop : ∀ n ∈ nodes, n.2.after.isSome → n.2.stop ≠ o)
    (hstart : ∀ n ∈ nodes, n.2.before.isSome → n.2.start ≠ o) : attached text nodes o = [] := by
  have hclosers : closers o nodes = [] := by
    apply List.filter_eq_nil_iff.2
    intro n hn
    simpa using hstop n hn
  have hopeners : openers o nodes = [] := by
    apply List.filter_eq_nil_iff.2
    intro n hn
    simpa using hstart n hn
  rw [attached_eq, hclosers, hopeners, sortBy, sortBy, List.mergeSort_nil, List.mergeSort_nil]
  rfl

/-- Bare nodes attach nothing. -/
theorem attached_bare {front back : List (Nat × Mark)} (h : ∀ n ∈ front ++ back, n.2.Bare) :
    attached text (front ++ nodes ++ back) o = attached text nodes o := by
  have hfilter {p : Nat × Mark → Bool} (hp : ∀ n : Nat × Mark, n.2.Bare → p n = false) :
      (front ++ nodes ++ back).filter p = nodes.filter p := by
    have hnone (side : List (Nat × Mark)) (hs : side ⊆ front ++ back) : side.filter p = [] := by
      apply List.filter_eq_nil_iff.2
      intro n hn
      simp [hp n (h n (hs hn))]
    rw [List.filter_append, List.filter_append, hnone front (List.subset_append_left _ _),
      hnone back (List.subset_append_right _ _), List.nil_append, List.append_nil]
  rw [attached_eq, attached_eq, closers, openers, hfilter, hfilter]
  · rfl
  · rintro ⟨d, m⟩ hm
    have hbefore : m.before = none := congrArg Decoration.before hm
    simp [hbefore]
  · rintro ⟨d, m⟩ hm
    have hafter : m.after = none := congrArg Decoration.after hm
    simp [hafter]

theorem hides_bare {front back : List (Nat × Mark)} (h : ∀ n ∈ front ++ back, n.2.Bare) :
    Hides (front ++ nodes ++ back) o ↔ Hides nodes o := by
  constructor
  · rintro ⟨n, hn, hh, ho⟩
    refine ⟨n, ?_, hh, ho⟩
    by_contra hne
    have hm : n ∈ front ++ back := by
      simp only [List.mem_append] at hn ⊢
      tauto
    have hshown : n.2.hidden = false := congrArg Decoration.hidden (h n hm)
    rw [hshown] at hh
    cases hh
  · rintro ⟨n, hn, h⟩
    exact ⟨n, List.mem_append_left _ (List.mem_append_right _ hn), h⟩

end Attached

def output (text : Text) (nodes : List (Nat × Mark)) (stop o : Int) : Text :=
  attached text nodes o ++ if o < stop ∧ ¬ Hides nodes o then text.slice o (o + 1) else []

section Output
variable {text : Text} {tree node : Tree Mark} {a b o : Int}

theorem render_eq_output (text : Text) (hw : tree.WellFormed) (he : ¬ (Tree.label tree).isEmpty)
    (hstart : 0 ≤ (Tree.label tree).start) : tree.render text =
      (Int.range (Tree.label tree).start ((Tree.label tree).stop + 1)).flatMap
        (output text (tree.solid 0) (Tree.label tree).stop) := by
  apply pieces_eq hw he
  intro a b ha hab
  exact text.slice_eq_flatMap (Int.le_trans hstart ha) hab

theorem output_bare {stop : Int} (hattached : attached text (node.solid 0) o = [])
    (hshown : ¬ Hides (node.solid 0) o) : output text (node.solid 0) stop o =
      if o < stop then text.slice o (o + 1) else [] := by
  rw [output, hattached, List.nil_append]
  simp only [hshown, not_false_eq_true, and_true]

/-- Where nothing is attached or hidden, the characters come out. -/
theorem flatMap_output_bare (ha : 0 ≤ a) (hab : a ≤ b)
    (hattached : ∀ o, a ≤ o → attached text (node.solid 0) o = [])
    (hshown : ∀ o, a ≤ o → ¬ Hides (node.solid 0) o) :
    (Int.range a (b + 1)).flatMap (output text (node.solid 0) b) = text.slice a b := by
  rw [← range_append hab (Int.le_of_lt (Int.lt_succ b)), List.flatMap_append, range_succ,
    List.flatMap_singleton, output_bare (hattached b hab) (hshown b hab),
    if_neg (Int.lt_irrefl b), List.append_nil, text.slice_eq_flatMap ha hab]
  apply List.flatMap_congr
  intro o ho
  obtain ⟨hao, hob⟩ := Int.mem_range_iff.1 ho
  rw [output_bare (hattached o hao) (hshown o hao), if_pos hob]

section Around
variable (text) (hw : node.WellFormed)
include hw

theorem attached_outside (ho : o < (Tree.label node).start ∨ (Tree.label node).stop < o) :
    attached text (node.solid 0) o = [] := by
  apply attached_eq_nil
  · intro n hn _
    have := solid_within hw n hn
    omega
  · intro n hn _
    have := solid_within hw n hn
    omega

theorem flatMap_output_before (ha : 0 ≤ a) (hs : a ≤ (Tree.label node).start)
    (hst : (Tree.label node).stop ≤ b) :
    (Int.range a (Tree.label node).start).flatMap (output text (node.solid 0) b) =
      text.slice a (Tree.label node).start := by
  have hle := hw.le
  rw [text.slice_eq_flatMap ha hs]
  apply List.flatMap_congr
  intro o ho
  have ho := (Int.mem_range_iff.1 ho).2
  have hshown : ¬ Hides (node.solid 0) o := fun h => by
    have := h.within hw
    omega
  rw [output_bare (attached_outside text hw (.inl ho)) hshown, if_pos (by omega)]

/-- At the end of a node its decorations come before the characters that follow. -/
theorem flatMap_output_after (hstop : 0 ≤ (Tree.label node).stop)
    (hst : (Tree.label node).stop ≤ b) :
    (Int.range (Tree.label node).stop (b + 1)).flatMap (output text (node.solid 0) b) =
      attached text (node.solid 0) (Tree.label node).stop ++
        text.slice (Tree.label node).stop b := by
  have hshown (o : Int) (ho : (Tree.label node).stop ≤ o) : ¬ Hides (node.solid 0) o := fun h => by
    have := h.within hw
    omega
  have hrest (o : Int) (ho : (Tree.label node).stop + 1 ≤ o) :
      attached text (node.solid 0) o = [] := attached_outside text hw (.inr (by omega))
  rw [range_cons (by omega), List.flatMap_cons, output, List.append_assoc]
  congr 1
  rcases Int.lt_or_eq_of_le hst with hlt | heq
  · rw [if_pos ⟨hlt, hshown _ (Int.le_refl _)⟩, flatMap_output_bare (by omega) (by omega) hrest
      fun o ho => hshown o (by omega)]
    exact (text.slice_append hstop (Int.le_of_lt (Int.lt_succ _)) hlt).symm
  · rw [heq, if_neg fun h => Int.lt_irrefl _ h.1, range_self, text.slice_self]
    rfl

/-- The nodes of a node come out alike in any range around it. -/
theorem flatMap_output_around (ha : 0 ≤ a) (hs : a ≤ (Tree.label node).start)
    (hst : (Tree.label node).stop ≤ b) :
    (Int.range a (b + 1)).flatMap (output text (node.solid 0) b) =
      text.slice a (Tree.label node).start ++
        (Int.range (Tree.label node).start ((Tree.label node).stop + 1)).flatMap
          (output text (node.solid 0) (Tree.label node).stop) ++
        text.slice (Tree.label node).stop b := by
  have hle := hw.le
  have hmiddle : (Int.range (Tree.label node).start (Tree.label node).stop).flatMap
      (output text (node.solid 0) b) =
        (Int.range (Tree.label node).start (Tree.label node).stop).flatMap
          (output text (node.solid 0) (Tree.label node).stop) := by
    apply List.flatMap_congr
    intro o ho
    have ho := (Int.mem_range_iff.1 ho).2
    simp only [output, ho, Int.lt_of_lt_of_le ho hst]
  have hend : output text (node.solid 0) (Tree.label node).stop (Tree.label node).stop =
      attached text (node.solid 0) (Tree.label node).stop := by
    rw [output, if_neg fun h => Int.lt_irrefl _ h.1, List.append_nil]
  have hsplit : Int.range a (b + 1) = Int.range a (Tree.label node).start ++
      (Int.range (Tree.label node).start (Tree.label node).stop ++
        Int.range (Tree.label node).stop (b + 1)) := by
    rw [range_append hle (by omega), range_append hs (by omega)]
  rw [hsplit, ← range_append hle (Int.le_of_lt (Int.lt_succ _)), range_succ]
  simp only [List.flatMap_append, List.flatMap_singleton, List.append_assoc, hend, hmiddle,
    flatMap_output_before text hw ha hs hst, flatMap_output_after text hw (by omega) hst]

end Around
end Output
end Render

namespace Tree
open Render
variable {tree node : Tree Mark}

namespace BareAround

/-- A node within bare surroundings keeps its place in the tree. -/
theorem within (h : node.BareAround tree) (hw : tree.WellFormed) :
    node.WellFormed ∧ (label tree).start ≤ (label node).start ∧
      (label node).stop ≤ (label tree).stop := by
  induction h with
  | self => exact ⟨hw, Int.le_refl _, Int.le_refl _⟩
  | @above m front tree back _ _ _ ih =>
    have hmem : some tree ∈ front ++ some tree :: back :=
      List.mem_append_right _ List.mem_cons_self
    cases hw with
    | node _ hin _ hwf =>
      obtain ⟨hn, hs, hst⟩ := ih (hwf tree hmem)
      obtain ⟨hs', hst'⟩ := hin tree hmem
      exact ⟨hn, Int.le_trans hs' hs, Int.le_trans hst hst'⟩

/-- A tree that is bare around a node has the nodes of that node, and bare ones. -/
theorem solid_eq (h : node.BareAround tree) (hw : tree.WellFormed) (depth : Nat) :
    ∃ more front back, tree.solid depth = front ++ node.solid (depth + more) ++ back ∧
      ∀ n ∈ front ++ back, n.2.Bare := by
  induction h generalizing depth with
  | self => exact ⟨0, [], [], by simp, nofun⟩
  | @above m front tree back hm hbare _ ih =>
    have hmem : some tree ∈ front ++ some tree :: back :=
      List.mem_append_right _ List.mem_cons_self
    have hwf : ∀ t, some t ∈ front ++ some tree :: back → t.WellFormed := by
      cases hw with
      | node _ _ _ hwf => exact hwf
    have hside (side : List (Option (Tree Mark))) (hs : side ⊆ front ++ back) :
        ∀ n ∈ (side.filterMap id).flatMap (solid · (depth + 1)), n.2.Bare := by
      intro n hn
      obtain ⟨t, ht, hn⟩ := List.mem_flatMap.1 hn
      have ht : some t ∈ front ++ back := hs (by simpa using ht)
      have htw : t.WellFormed := hwf t (by simp only [List.mem_append] at ht; simp; tauto)
      exact hbare t ht n.2 (mem_walk_of_solid htw hn)
    obtain ⟨own, hown, hnode⟩ : ∃ own : List (Nat × Mark), (∀ n ∈ own, n.2.Bare) ∧
        (Tree.node m (front ++ some tree :: back)).solid depth = own ++
          ((front ++ some tree :: back).filterMap id).flatMap (solid · (depth + 1)) := by
      refine ⟨_, fun n hn => ?_, solid_node depth⟩
      split at hn
      · exact absurd hn List.not_mem_nil
      · rwa [List.mem_singleton.1 hn]
    obtain ⟨more, before, after, hsolid, hsides⟩ := ih (hwf tree hmem) (depth + 1)
    rw [List.forall_mem_append] at hsides
    refine ⟨1 + more, own ++ (front.filterMap id).flatMap (solid · (depth + 1)) ++ before,
      after ++ (back.filterMap id).flatMap (solid · (depth + 1)), ?_, ?_⟩
    · have hpresent : (front ++ some tree :: back).filterMap id =
          front.filterMap id ++ tree :: back.filterMap id := List.filterMap_append
      rw [hnode, hpresent, List.flatMap_append, List.flatMap_cons, hsolid, Nat.add_assoc]
      simp only [List.append_assoc]
    · simp only [List.forall_mem_append]
      exact ⟨⟨⟨hown, hside _ (List.subset_append_left _ _)⟩, hsides.1⟩, hsides.2,
        hside _ (List.subset_append_right _ _)⟩

end BareAround

/-- A node that is not empty renders in its place as it does by itself, if the tree is bare around
it. -/
theorem render_bareAround (text : Text) (h : node.BareAround tree) (hw : tree.WellFormed)
    (hstart : 0 ≤ (label tree).start) (hsolid : (label node).start < (label node).stop) :
    tree.render text = text.slice (label tree).start (label node).start ++
      node.render text ++ text.slice (label node).stop (label tree).stop := by
  obtain ⟨hnw, hs, hst⟩ := h.within hw
  obtain ⟨more, front, back, hnodes, hbare⟩ := h.solid_eq hw 0
  have hne {t : Tree Mark} (ht : (label t).start < (label t).stop) : ¬ (label t).isEmpty := by
    simp only [Mark.isEmpty, decide_eq_true_eq]
    omega
  have houtput : output text (tree.solid 0) (label tree).stop =
      output text (node.solid 0) (label tree).stop := by
    funext o
    have hattached : attached text (tree.solid 0) o = attached text (node.solid 0) o := by
      rw [hnodes, attached_bare text hbare, solid_add, attached_deeper]
    have hhides : Hides (tree.solid 0) o ↔ Hides (node.solid 0) o := by
      rw [hnodes, hides_bare hbare, hides_add]
    simp only [output, hattached, hhides]
  rw [render_eq_output text hw (hne (by omega)) hstart, houtput,
    flatMap_output_around text hnw hstart hs hst,
    render_eq_output text hnw (hne hsolid) (Int.le_trans hstart hs)]

/-- Without any decoration to be seen, a tree renders as its range. -/
theorem render_undecorated (text : Text) (hw : tree.WellFormed) (hstart : 0 ≤ (label tree).start)
    (h : ∀ m ∈ tree.walk, m.before.getD [] = [] ∧ m.after.getD [] = [] ∧ m.hidden = false) :
    tree.render text = text.slice (label tree).start (label tree).stop := by
  by_cases he : (label tree).isEmpty
  · have hpoint : (label tree).start = (label tree).stop := by simpa [Mark.isEmpty] using he
    have hroot : label tree ∈ tree.walk := by
      cases tree
      exact List.mem_cons_self
    obtain ⟨hbefore, hafter, -⟩ := h (label tree) hroot
    rw [Tree.render, pieces]
    dsimp only
    rw [if_pos he, hpoint, text.slice_self]
    simp [Piece.render, hbefore, hafter]
  · have hsolid (n : Nat × Mark) (hn : n ∈ tree.solid 0) := h n.2 (mem_walk_of_solid hw hn)
    have hattached (o : Int) : attached text (tree.solid 0) o = [] := by
      rw [attached_eq, List.append_eq_nil_iff]
      constructor
      · apply List.flatMap_eq_nil_iff.2
        intro n hn
        exact (hsolid n (List.mem_filter.1 (List.mem_mergeSort.1 hn)).1).2.1
      · apply List.flatMap_eq_nil_iff.2
        intro n hn
        exact (hsolid n (List.mem_filter.1 (List.mem_mergeSort.1 hn)).1).1
    have hshown (o : Int) : ¬ Hides (tree.solid 0) o := by
      rintro ⟨n, hn, hh, -⟩
      rw [(hsolid n hn).2.2] at hh
      cases hh
    rw [render_eq_output text hw he hstart]
    exact flatMap_output_bare hstart hw.le (fun o _ => hattached o) fun o _ => hshown o

/-- Decorations are local. Where all of them lie on or below one node that is not empty, the text
of the tree is the text before that node, the node as it renders by itself, and the text after it;
and where there is nothing to be seen of any, it is the range of the tree. -/
theorem render_local (text : Text) (hw : tree.WellFormed) (hstart : 0 ≤ (label tree).start) :
    (∀ node : Tree Mark, node.BareAround tree → (label node).start < (label node).stop →
      tree.render text = text.slice (label tree).start (label node).start ++
        node.render text ++ text.slice (label node).stop (label tree).stop) ∧
    ((∀ m ∈ tree.walk, m.before.getD [] = [] ∧ m.after.getD [] = [] ∧ m.hidden = false) →
      tree.render text = text.slice (label tree).start (label tree).stop) :=
  ⟨fun _ h hsolid => render_bareAround text h hw hstart hsolid,
    render_undecorated text hw hstart⟩

end Tree

def adorned : Tree Mark :=
  let mark (before after : Option Text) (hidden : Bool) (start stop : Int) : Mark :=
    { before, after, hidden, start, stop }
  .node (mark (some ['(']) (some [')']) false 3 5)
    [some (.leaf (mark none (some ['!']) true 3 4)),
      some (.leaf (mark (some ['?']) none false 4 5))]

def aroundAdorned : Tree Mark :=
  .node { start := 0, stop := 5 } [some (.leaf { start := 0, stop := 2 }), some adorned]

def unseen : Tree Mark :=
  .node { start := 0, stop := 5, before := some [] }
    [some (.leaf { start := 0, stop := 2, after := some [] }), none]

theorem aroundAdorned_render : aroundAdorned.WellFormed ∧ unseen.WellFormed ∧
    aroundAdorned.render "ab cd".toList = "ab (!?d)".toList ∧
    aroundAdorned.render "ab cd".toList =
      Text.slice "ab cd".toList 0 3 ++ adorned.render "ab cd".toList ++
        Text.slice "ab cd".toList 5 5 ∧
    unseen.render "ab cd".toList = Text.slice "ab cd".toList 0 5 := by
  have hw : aroundAdorned.WellFormed := by decide
  have hunseen : unseen.WellFormed := by decide
  have hbare : ∀ t, some t ∈ [some (Tree.leaf { start := 0, stop := 2 : Mark })] ++ [] →
      ∀ n ∈ t.walk, n.Bare := by
    simp [Tree.leaf, Tree.walk, Tree.walkAll, Mark.Bare]
  have hroot : (Tree.label aroundAdorned).Bare := rfl
  have haround : adorned.BareAround aroundAdorned := .above hroot hbare .self
  exact ⟨hw, hunseen, by cbv,
    (Tree.render_local "ab cd".toList hw (by decide)).1 adorned haround (by decide),
    (Tree.render_local "ab cd".toList hunseen (by decide)).2 (by decide)⟩

end OrderedBnf
