import OrderedBnf.Proofs.Written

/-! The text of a tree from the texts of its branches. Where all decorations are brackets, each
branch stands in the text of its node as it would render by itself. -/
namespace OrderedBnf
namespace Render

def solidBranches (branches : List (Option (Tree Mark))) : List (Tree Mark) :=
  (branches.filterMap id).filter fun t => !(Tree.label t).isEmpty

theorem solidBranches_empty {t : Tree Mark} {rest : List (Option (Tree Mark))}
    (he : (Tree.label t).isEmpty) : solidBranches (some t :: rest) = solidBranches rest := by
  apply List.filter_cons_of_neg
  simp [he]

theorem solidBranches_solid {t : Tree Mark} {rest : List (Option (Tree Mark))}
    (he : ¬ (Tree.label t).isEmpty) :
    solidBranches (some t :: rest) = t :: solidBranches rest := by
  apply List.filter_cons_of_pos
  simp [he]

/-- A text from a cursor up to a stop, with the range of each tree replaced by what the tree is
rendered as. -/
def replaced (text : Text) (rendered : Tree Mark → Text) (cursor stop : Int) :
    List (Tree Mark) → Text
  | [] => text.slice cursor stop
  | t :: rest =>
    text.slice cursor (Tree.label t).start ++ rendered t ++
      replaced text rendered (Tree.label t).stop stop rest

mutual
def trimmings : Tree Mark → Text
  | .node m branches =>
    if m.isEmpty then []
    else m.before.getD [] ++ trimmingsOfAll branches ++ m.after.getD []

def trimmingsOfAll : List (Option (Tree Mark)) → Text
  | [] => []
  | none :: rest => trimmingsOfAll rest
  | some t :: rest => trimmings t ++ trimmingsOfAll rest
end

def Piece.remains (shown : Int → Bool) : Piece → Bool
  | chars o _ => shown o
  | _ => true

section Weave
variable {shown shown' : Int → Bool} {text : Text} {tree : Tree Mark} {start stop : Int}

theorem remains_letters (n : Nat × Mark) :
    (Piece.opens n).letters.filter (Piece.remains shown) = (Piece.opens n).letters ∧
      (Piece.closes n).letters.filter (Piece.remains shown) = (Piece.closes n).letters := by
  constructor <;> rw [Piece.letters] <;> split <;> rfl

theorem gap_eq_filter (shown : Int → Bool) (start stop : Int) :
    gap shown start stop = (gap (fun _ => true) start stop).filter (Piece.remains shown) := by
  rw [gap, gap, List.filter_true, List.filter_map]
  rfl

mutual
theorem weave_eq_filter (shown : Int → Bool) (depth : Nat) : ∀ tree : Tree Mark,
    weave shown depth tree = (weave (fun _ => true) depth tree).filter (Piece.remains shown)
  | .node m branches => by
    rw [weave, weave]
    split
    · rfl
    · rw [List.filter_append, List.filter_append, (remains_letters _).1, (remains_letters _).2,
        weaveAll_eq_filter shown]

theorem weaveAll_eq_filter (shown : Int → Bool) (depth : Nat) (cursor stop : Int) :
    ∀ branches : List (Option (Tree Mark)), weaveAll shown depth cursor stop branches =
      (weaveAll (fun _ => true) depth cursor stop branches).filter (Piece.remains shown)
  | [] => gap_eq_filter shown cursor stop
  | none :: rest => weaveAll_eq_filter shown depth cursor stop rest
  | some (.node m branches) :: rest => by
    rw [weaveAll, weaveAll, List.filter_append, List.filter_append, ← gap_eq_filter,
      ← weave_eq_filter shown, ← weaveAll_eq_filter shown]
end

theorem weave_empty (he : (Tree.label tree).isEmpty) (depth : Nat) :
    weave shown depth tree = [] := by
  obtain ⟨m, branches⟩ := tree
  rw [weave]
  exact if_pos he

theorem gap_congr (h : ∀ o, start ≤ o → o < stop → shown o = shown' o) :
    gap shown start stop = gap shown' start stop := by
  rw [gap, gap]
  apply congrArg
  apply List.filter_congr
  intro o ho
  obtain ⟨hs, ht⟩ := Int.mem_range_iff.1 ho
  exact h o hs ht

/-- What is shown outside the range of a tree does not matter to it. -/
theorem weave_congr (hw : tree.WellFormed) (depth : Nat)
    (h : ∀ o, (Tree.label tree).start ≤ o → o < (Tree.label tree).stop → shown o = shown' o) :
    weave shown depth tree = weave shown' depth tree := by
  rw [weave_eq_filter shown, weave_eq_filter shown']
  apply List.filter_congr
  intro p hp
  have hl := lies_of_mem_weave hw hp
  cases p with
  | chars o _ => exact h o hl.1 hl.2
  | _ => rfl

mutual
/-- The depth of a tree only tells its pieces apart. -/
theorem flatMap_weave_depth (shown : Int → Bool) (text : Text) (depth depth' : Nat) :
    ∀ tree : Tree Mark, (weave shown depth tree).flatMap (Piece.render text) =
      (weave shown depth' tree).flatMap (Piece.render text)
  | .node m branches => by
    have hb := flatMap_weaveAll_depth shown text (depth + 1) (depth' + 1) m.start m.stop branches
    have hletters (depth : Nat) : (Piece.opens (depth, m)).letters.flatMap (Piece.render text) =
        (if m.before.isSome && m.after.isSome then m.before.getD [] else []) ∧
        (Piece.closes (depth, m)).letters.flatMap (Piece.render text) =
        (if m.before.isSome && m.after.isSome then m.after.getD [] else []) := by
      constructor <;> rw [Piece.letters, isPair] <;> split <;> simp [Piece.render]
    rw [weave, weave]
    split
    · rfl
    · simp only [List.flatMap_append, hletters, hb]

theorem flatMap_weaveAll_depth (shown : Int → Bool) (text : Text) (depth depth' : Nat)
    (cursor stop : Int) : ∀ branches : List (Option (Tree Mark)),
      (weaveAll shown depth cursor stop branches).flatMap (Piece.render text) =
        (weaveAll shown depth' cursor stop branches).flatMap (Piece.render text)
  | [] => rfl
  | none :: rest => flatMap_weaveAll_depth shown text depth depth' cursor stop rest
  | some (.node m branches) :: rest => by
    rw [weaveAll, weaveAll, List.flatMap_append, List.flatMap_append, List.flatMap_append,
      List.flatMap_append, flatMap_weave_depth shown text depth depth',
      flatMap_weaveAll_depth shown text depth depth' m.stop stop rest]
end

mutual
/-- Where nothing is shown, the decorations are left. -/
theorem flatMap_weave_none (text : Text) (depth : Nat) : ∀ tree : Tree Mark,
    (∀ m ∈ tree.walk, m.before.isSome = m.after.isSome) →
      (weave (fun _ => false) depth tree).flatMap (Piece.render text) = trimmings tree
  | .node m branches, h => by
    obtain ⟨ho, hc⟩ := flatMap_letters text (h m List.mem_cons_self) depth
    have hb := flatMap_weaveAll_none text (depth + 1) m.start m.stop branches
      fun n hn => h n (List.mem_cons_of_mem _ hn)
    rw [weave, trimmings]
    split
    · rfl
    · rw [List.flatMap_append, List.flatMap_append, ho, hb, hc, List.append_assoc]

theorem flatMap_weaveAll_none (text : Text) (depth : Nat) (cursor stop : Int) :
    ∀ branches : List (Option (Tree Mark)),
      (∀ m ∈ Tree.walkAll branches, m.before.isSome = m.after.isSome) →
        (weaveAll (fun _ => false) depth cursor stop branches).flatMap (Piece.render text) =
          trimmingsOfAll branches
  | [], _ => by
    rw [weaveAll, gap, List.filter_false]
    rfl
  | none :: rest, h => flatMap_weaveAll_none text depth cursor stop rest h
  | some (.node m branches) :: rest, h => by
    rw [Tree.walkAll, List.forall_mem_append] at h
    rw [weaveAll, trimmingsOfAll, List.flatMap_append, List.flatMap_append, gap, List.filter_false,
      flatMap_weave_none text depth _ h.1, flatMap_weaveAll_none text depth m.stop stop rest h.2]
    rfl
end

end Weave

section Hiding
variable {tree : Tree Mark} {depth : Nat} {o : Int}

variable {m : Mark} {branches : List (Option (Tree Mark))}

/-- What a node does not hide itself, its branches may. -/
theorem hides_node (hm : m.hidden = false) : Hides ((Tree.node m branches).solid depth) o ↔
    ∃ t ∈ branches.filterMap id, Hides (t.solid depth) o := by
  have hself (n : Nat × Mark) (hn : n ∈ if m.isEmpty then [] else [(depth, m)]) :
      n.2.hidden = false := by
    split at hn
    · exact absurd hn List.not_mem_nil
    · rwa [List.mem_singleton.1 hn]
  constructor
  · rintro ⟨n, hn, hh, ho⟩
    rw [solid_node, List.mem_append, List.mem_flatMap] at hn
    rcases hn with hn | ⟨t, ht, hn⟩
    · rw [hself n hn] at hh
      cases hh
    · exact ⟨t, ht, (hides_add t depth 1 o).1 ⟨n, hn, hh, ho⟩⟩
  · rintro ⟨t, ht, h⟩
    obtain ⟨n, hn, hh, ho⟩ := (hides_add t depth 1 o).2 h
    refine ⟨n, ?_, hh, ho⟩
    rw [solid_node]
    exact List.mem_append_right _ (List.mem_flatMap.2 ⟨t, ht, hn⟩)

/-- In the range of a branch nothing else hides. -/
theorem hides_branch (hw : (Tree.node m branches).WellFormed) (hm : m.hidden = false)
    {t : Tree Mark} (ht : t ∈ branches.filterMap id) (hs : (Tree.label t).start ≤ o)
    (hst : o < (Tree.label t).stop) :
    Hides ((Tree.node m branches).solid depth) o ↔ Hides (t.solid depth) o := by
  rw [hides_node hm]
  refine ⟨fun ⟨t', ht', h⟩ => ?_, fun h => ⟨t, ht, h⟩⟩
  obtain ⟨-, hwithin, hord⟩ := inside_of_wellFormed hw
  obtain ⟨hs', hst'⟩ := h.within (hwithin t' ht').1
  have hsymm : Std.Symm fun a b : Tree Mark => (Tree.label a).stop ≤ (Tree.label b).start ∨
      (Tree.label b).stop ≤ (Tree.label a).start := ⟨fun _ _ => Or.symm⟩
  have hall : (branches.filterMap id).Pairwise fun a b : Tree Mark =>
      (Tree.label a).stop ≤ (Tree.label b).start ∨ (Tree.label b).stop ≤ (Tree.label a).start :=
    hord.imp Or.inl
  by_cases he : t' = t
  · exact he ▸ h
  · have := hall.forall ht' ht he
    omega

end Hiding

section Replacing
variable {text : Text} {rendered : Tree Mark → Text} {cursor middle stop : Int}

/-- Text before the first tree may be cut off first. -/
theorem slice_replaced {trees : List (Tree Mark)} (hc : 0 ≤ cursor) (hcm : cursor ≤ middle)
    (hstop : middle ≤ stop) (htrees : ∀ t ∈ trees, middle ≤ (Tree.label t).start) :
    text.slice cursor middle ++ replaced text rendered middle stop trees =
      replaced text rendered cursor stop trees := by
  cases trees with
  | nil => exact (text.slice_append hc hcm hstop).symm
  | cons t rest =>
    have ht := htrees t List.mem_cons_self
    rw [replaced, replaced, text.slice_append hc hcm ht]
    simp only [List.append_assoc]

theorem flatMap_gap_shown {shown : Int → Bool} (hc : 0 ≤ cursor) (hstop : cursor ≤ stop)
    (h : ∀ o, cursor ≤ o → o < stop → shown o) :
    (gap shown cursor stop).flatMap (Piece.render text) = text.slice cursor stop := by
  have hall : gap shown cursor stop = gap (fun _ => true) cursor stop := gap_congr h
  rw [hall, flatMap_gap text hc (Int.le_trans hc hstop)]

/-- Branches and the characters between them, all of which are shown. -/
theorem flatMap_weaveAll_shown {shown : Int → Bool} (depth : Nat)
    {branches : List (Option (Tree Mark))} :
    ∀ {cursor : Int}, 0 ≤ cursor → Inside cursor stop branches →
      (∀ o, cursor ≤ o → o < stop → (∀ t ∈ branches.filterMap id,
        ¬ ((Tree.label t).start ≤ o ∧ o < (Tree.label t).stop)) → shown o) →
      (∀ t ∈ solidBranches branches,
        (weave shown depth t).flatMap (Piece.render text) = rendered t) →
      (weaveAll shown depth cursor stop branches).flatMap (Piece.render text) =
        replaced text rendered cursor stop (solidBranches branches) := by
  induction branches with
  | nil =>
    intro cursor hc hi hshown _
    exact flatMap_gap_shown hc hi.le fun o ho hlt => hshown o ho hlt nofun
  | cons branch rest ih =>
    intro cursor hc hi hshown hrendered
    cases branch with
    | none => exact ih hc ⟨hi.le, hi.within, hi.inOrder⟩ hshown hrendered
    | some t =>
      obtain ⟨hw, hs, hst⟩ := hi.within t List.mem_cons_self
      have hle := hw.le
      have hgap : (gap shown cursor (Tree.label t).start).flatMap (Piece.render text) =
          text.slice cursor (Tree.label t).start := by
        apply flatMap_gap_shown hc hs
        intro o ho hlt
        apply hshown o ho (by omega)
        intro t' ht'
        rcases List.mem_cons.1 ht' with rfl | ht'
        · omega
        · have hord : ∀ t' ∈ rest.filterMap id, (Tree.label t).stop ≤ (Tree.label t').start :=
            (List.pairwise_cons.1 (show (t :: rest.filterMap id).Pairwise _ from hi.inOrder)).1
          have := hord t' ht'
          omega
      have htail := ih (by omega : 0 ≤ (Tree.label t).stop) hi.tail
        (fun o ho hlt hout => hshown o (by omega) hlt fun t' ht' => by
          rcases List.mem_cons.1 ht' with rfl | ht'
          · omega
          · exact hout t' ht')
      rw [weaveAll_some, List.flatMap_append, List.flatMap_append, hgap]
      by_cases he : (Tree.label t).isEmpty
      · rw [solidBranches_empty he] at hrendered ⊢
        have hpoint : (Tree.label t).start = (Tree.label t).stop := by
          simpa [Mark.isEmpty] using he
        rw [htail hrendered, weave_empty he, List.flatMap_nil, List.append_nil, hpoint]
        apply slice_replaced hc (by omega) hst
        intro t' ht'
        exact hi.tail.within t' (List.mem_filter.1 ht').1 |>.2.1
      · rw [solidBranches_solid he, List.forall_mem_cons] at hrendered
        rw [solidBranches_solid he, replaced, hrendered.1, htail hrendered.2]

end Replacing
end Render

open Render

/-- A node renders as the text before it, its own text with each branch that is not empty in its
place as it renders by itself, and the text after it. Of a hidden node all characters are left out
and the decorations below it are kept. Empty branches contribute nothing. The tree is a range of
some text, so it starts at no negative offset. -/
theorem Tree.render_compositional (text : Text) {m : Mark} {branches : List (Option (Tree Mark))}
    (hw : (Tree.node m branches).WellFormed) (hsolid : m.start < m.stop) (hstart : 0 ≤ m.start)
    (hpaired : ∀ n ∈ (Tree.node m branches).walk, n.before.isSome = n.after.isSome) :
    (Tree.node m branches).render text = m.before.getD [] ++
      (if m.hidden then trimmingsOfAll branches
        else replaced text (Tree.render text) m.start m.stop (solidBranches branches)) ++
      m.after.getD [] := by
  have he : ¬ m.isEmpty = true := by
    simp only [Mark.isEmpty, decide_eq_true_eq]
    omega
  obtain ⟨hbefore, hafter⟩ := flatMap_letters text (hpaired m List.mem_cons_self) 0
  have hin := inside_of_wellFormed hw
  rw [Tree.render_eq_weave text hw he hstart hpaired]
  by_cases hh : m.hidden
  · have hall : ∀ o, m.start ≤ o → o < m.stop →
        decide (¬ Hides ((Tree.node m branches).solid 0) o) = false := by
      intro o ho hlt
      rw [decide_eq_false_iff_not, not_not]
      refine ⟨(0, m), ?_, hh, ho, hlt⟩
      rw [solid_node, if_neg he]
      exact List.mem_cons_self
    rw [weave_congr hw 0 hall, flatMap_weave_none text 0 _ hpaired, trimmings, if_neg he, if_pos hh]
  · replace hh : m.hidden = false := by simpa using hh
    have hbody : (weaveAll (fun o => ¬ Hides ((Tree.node m branches).solid 0) o) 1 m.start m.stop
        branches).flatMap (Piece.render text) =
          replaced text (Tree.render text) m.start m.stop (solidBranches branches) := by
      apply flatMap_weaveAll_shown 1 hstart hin
      · intro o _ _ hout
        rw [decide_eq_true_eq, hides_node hh]
        rintro ⟨t, ht, h⟩
        exact hout t ht (h.within (hin.within t ht).1)
      · intro t ht
        obtain ⟨ht, hte⟩ := List.mem_filter.1 ht
        obtain ⟨htw, hts, -⟩ := hin.within t ht
        have hbelow : ∀ n ∈ t.walk, n.before.isSome = n.after.isSome := by
          intro n hn
          exact hpaired n (List.mem_cons_of_mem _ (Tree.mem_walkAll.2 ⟨t, by simpa using ht, hn⟩))
        have hshown : ∀ o, (Tree.label t).start ≤ o → o < (Tree.label t).stop →
            decide (¬ Hides ((Tree.node m branches).solid 0) o) =
              decide (¬ Hides (t.solid 0) o) := by
          intro o hs hst
          rw [decide_eq_decide, hides_branch hw hh ht hs hst]
        rw [weave_congr htw 1 hshown, flatMap_weave_depth _ text 1 0,
          Tree.render_eq_weave text htw (by simpa using hte) (Int.le_trans hstart hts) hbelow]
    rw [weave, if_neg he, List.flatMap_append, List.flatMap_append, hbefore, hafter, hbody, hh,
      List.append_assoc]
    rfl

def paired : Tree Mark :=
  let mark (before after : Option Text) (hidden : Bool) (start stop : Int) : Mark :=
    { before, after, hidden, start, stop }
  .node (mark (some ['(']) (some [')']) false 0 5)
    [some (.node (mark (some ['<']) (some ['>']) true 0 2)
      [some (.leaf (mark (some ['[']) (some [']']) false 0 2))]), none,
      some (.leaf (mark (some ['x']) (some ['y']) false 2 2)),
      some (.leaf (mark none none false 2 5))]

theorem paired_render : paired.WellFormed ∧
    (∀ n ∈ paired.walk, n.before.isSome = n.after.isSome) ∧
    paired.render "ab cd".toList = "(<[]> cd)".toList ∧
    paired.render "ab cd".toList = ['('] ++ replaced "ab cd".toList
      (Tree.render "ab cd".toList) 0 5 (solidBranches paired.branches) ++ [')'] := by
  have hw : paired.WellFormed := by decide
  have hpaired : ∀ n ∈ paired.walk, n.before.isSome = n.after.isSome := by decide
  exact ⟨hw, hpaired, by cbv,
    Tree.render_compositional "ab cd".toList hw (by decide) (by decide) hpaired⟩

end OrderedBnf
