import OrderedBnf.Proofs.Weave

/-! The text of a tree that carries brackets only: its own characters, with the brackets of each
node around those of the node. -/
namespace OrderedBnf

namespace Tree
variable {α β : Type}

theorem mem_walkAll {branches : List (Option (Tree α))} {a : α} :
    a ∈ walkAll branches ↔ ∃ t, some t ∈ branches ∧ a ∈ walk t := by
  induction branches with
  | nil => simp [walkAll]
  | cons branch rest ih => cases branch <;> simp [walkAll, ih]

/-- A node that is not empty is visited by the walk. -/
theorem mem_walk_of_solid {tree : Tree Mark} (h : tree.WellFormed) {depth : Nat}
    {n : Nat × Mark} (hn : n ∈ tree.solid depth) : n.2 ∈ tree.walk := by
  induction h generalizing depth with
  | @node m branches _ _ _ _ ih =>
    rw [Render.solid_node, List.mem_append, List.mem_flatMap] at hn
    rw [walk, List.mem_cons]
    rcases hn with hn | ⟨t, ht, hn⟩
    · split at hn
      · exact absurd hn List.not_mem_nil
      · rw [List.mem_singleton.1 hn]
        exact .inl rfl
    · have ht : some t ∈ branches := by simpa using ht
      exact .inr (mem_walkAll.2 ⟨t, ht, ih t ht hn⟩)

end Tree

namespace Render

/-- The mark of a node that is shown, with both texts around it or with none. -/
structure Bracket (m : Mark) : Prop where
  paired : m.before.isSome = m.after.isSome
  shown : m.hidden = false
  start : 0 ≤ m.start
  stop : 0 ≤ m.stop

mutual
def written (text : Text) : Tree Mark → Text
  | .node m branches =>
    if m.isEmpty then []
    else m.before.getD [] ++ (writtenAll text m.start m.stop branches ++ m.after.getD [])

/-- Branches written out, with the characters between them, from a cursor up to a stop. -/
def writtenAll (text : Text) (cursor stop : Int) : List (Option (Tree Mark)) → Text
  | [] => text.slice cursor stop
  | none :: rest => writtenAll text cursor stop rest
  | some (.node m branches) :: rest =>
    text.slice cursor m.start ++ written text (.node m branches) ++
      writtenAll text m.stop stop rest
end

section Writing
variable (text : Text)

theorem flatMap_gap {a b : Int} (ha : 0 ≤ a) (hb : 0 ≤ b) :
    (gap (fun _ => true) a b).flatMap (Piece.render text) = text.slice a b := by
  have hrange : (gap (fun _ => true) a b).flatMap (Piece.render text) =
      (Int.range a b).flatMap fun o => text.slice o (o + 1) := by
    rw [gap, List.filter_true, List.flatMap_map]
    rfl
  rw [hrange]
  rcases Int.le_total a b with hab | hab
  · exact (text.slice_eq_flatMap ha hab).symm
  · have hnone : Int.range a b = [] := by
      rw [Int.range, Int.toNat_of_nonpos (by omega)]
      rfl
    rw [hnone, Text.slice, Text.window, Nat.sub_eq_zero_of_le (Text.clip_mono hb hab)]
    rfl

theorem flatMap_letters {m : Mark} (hp : m.before.isSome = m.after.isSome) (depth : Nat) :
    (Piece.opens (depth, m)).letters.flatMap (Piece.render text) = m.before.getD [] ∧
      (Piece.closes (depth, m)).letters.flatMap (Piece.render text) = m.after.getD [] := by
  cases hb : m.before <;> cases ha : m.after <;> simp_all [Piece.letters, isPair, Piece.render]

mutual
theorem flatMap_weave (depth : Nat) : ∀ tree : Tree Mark, (∀ m ∈ tree.walk, Bracket m) →
    (weave (fun _ => true) depth tree).flatMap (Piece.render text) = written text tree
  | .node m branches, h => by
    have hm := h m List.mem_cons_self
    have hb := flatMap_weaveAll (depth + 1) m.start m.stop hm.start hm.stop branches
      fun m hm => h m (List.mem_cons_of_mem _ hm)
    obtain ⟨ho, hc⟩ := flatMap_letters text hm.paired depth
    rw [weave, written]
    split
    · rfl
    · rw [List.flatMap_append, List.flatMap_append, ho, hb, hc]

theorem flatMap_weaveAll (depth : Nat) (cursor stop : Int) (hc : 0 ≤ cursor) (hs : 0 ≤ stop) :
    ∀ branches : List (Option (Tree Mark)), (∀ m ∈ Tree.walkAll branches, Bracket m) →
      (weaveAll (fun _ => true) depth cursor stop branches).flatMap (Piece.render text) =
        writtenAll text cursor stop branches
  | [], _ => flatMap_gap text hc hs
  | none :: rest, h => flatMap_weaveAll depth cursor stop hc hs rest h
  | some (.node m branches) :: rest, h => by
    have hm := h m (by simp [Tree.walkAll, Tree.walk])
    have ht := flatMap_weave depth (.node m branches) fun m hm => h m (by
      rw [Tree.walkAll]
      exact List.mem_append_left _ hm)
    have hr := flatMap_weaveAll depth m.stop stop hm.stop hs rest fun m hm => h m (by
      rw [Tree.walkAll]
      exact List.mem_append_right _ hm)
    rw [weaveAll, writtenAll, List.flatMap_append, List.flatMap_append, flatMap_gap text hc hm.start,
      ht, hr]
end

end Writing
end Render

open Render in
/-- Where all decorations are brackets, the text of a tree is that of its weave. -/
theorem Tree.render_eq_weave (text : Text) {tree : Tree Mark} (hw : tree.WellFormed)
    (he : ¬ (Tree.label tree).isEmpty) (hstart : 0 ≤ (Tree.label tree).start)
    (hpaired : ∀ m ∈ tree.walk, m.before.isSome = m.after.isSome) :
    tree.render text =
      (weave (fun o => ¬ Hides (tree.solid 0) o) 0 tree).flatMap (Piece.render text) := by
  have hchars (a b : Int) (ha : (Tree.label tree).start ≤ a) (hab : a ≤ b) :
      (Piece.chars a b).render text =
        (Int.range a b).flatMap fun o => (Piece.chars o (o + 1)).render text :=
    text.slice_eq_flatMap (Int.le_trans hstart ha) hab
  have hletters (a b : Int) : (Piece.chars a b).letters.flatMap (Piece.render text) =
      (Int.range a b).flatMap fun o => (Piece.chars o (o + 1)).letters.flatMap (Piece.render text) := by
    simp only [Piece.letters, range_succ, List.map_singleton, List.flatMap_singleton,
      List.flatMap_map]
  calc tree.render text
      = (pieces tree).flatMap fun p => p.letters.flatMap (Piece.render text) := by
        rw [Tree.render, pieces_eq hw he hchars, pieces_eq hw he fun a b _ _ => hletters a b]
        refine List.flatMap_congr fun o _ => ?_
        congr 1
        · refine List.flatMap_congr fun p hp => ?_
          have hmem {n : Nat × Mark} {key : Nat × Mark → List Int} {q : Nat × Mark → Bool}
              (hn : n ∈ sortBy key ((tree.solid 0).filter q)) :
              n.2.before.isSome = n.2.after.isSome :=
            hpaired n.2 (mem_walk_of_solid hw (List.mem_filter.1 (List.mem_mergeSort.1 hn)).1)
          rcases List.mem_append.1 hp with hp | hp
          · obtain ⟨n, hn, rfl⟩ := List.mem_map.1 hp
            exact (flatMap_letters text (hmem hn) n.1).2.symm
          · obtain ⟨n, hn, rfl⟩ := List.mem_map.1 hp
            exact (flatMap_letters text (hmem hn) n.1).1.symm
        · rw [Piece.letters, range_succ]
          exact if_congr Iff.rfl (List.flatMap_singleton ..).symm rfl
    _ = _ := by rw [← List.flatMap_assoc, pieces_letters hw he]

open Render in
/-- A tree that carries brackets only renders as it is written out. -/
theorem Tree.render_eq_written (text : Text) {tree : Tree Mark} (hw : tree.WellFormed)
    (he : ¬ (Tree.label tree).isEmpty) (h : ∀ m ∈ tree.walk, Bracket m) :
    tree.render text = written text tree := by
  have hroot : Bracket (Tree.label tree) := by
    cases tree
    exact h _ List.mem_cons_self
  have hshown : (fun o => decide ¬ Hides (tree.solid 0) o) = fun _ => true := by
    funext o
    rw [decide_eq_true_eq]
    rintro ⟨n, hn, hh, -⟩
    exact absurd hh (by rw [(h n.2 (mem_walk_of_solid hw hn)).shown]; exact Bool.false_ne_true)
  rw [render_eq_weave text hw he hroot.start fun m hm => (h m hm).paired, hshown,
    flatMap_weave text 0 tree h]

end OrderedBnf
