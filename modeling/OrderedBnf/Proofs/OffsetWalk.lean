import Mathlib
import OrderedBnf.Proofs.Sweep

/-! The rendered text of a tree, offset by offset. -/
namespace OrderedBnf

namespace Text

theorem clip_mono {size : Nat} {a b : Int} (ha : 0 ≤ a) (hab : a ≤ b) :
    clip size a ≤ clip size b := by
  rw [clip, clip, if_neg (by omega), if_neg (by omega)]
  omega

theorem slice_append (text : Text) {a b c : Int} (ha : 0 ≤ a) (hab : a ≤ b) (hbc : b ≤ c) :
    text.slice a c = text.slice a b ++ text.slice b c :=
  text.window_append (clip_mono ha hab) (clip_mono (Int.le_trans ha hab) hbc)

theorem slice_self (text : Text) (a : Int) : text.slice a a = [] := by
  simp [slice, window]

theorem slice_succ (text : Text) {o : Int} (ho : 0 ≤ o) :
    text.slice o (o + 1) = text[o.toNat]?.toList := by
  rw [slice, clip, clip, if_neg (by omega), if_neg (by omega), window]
  rcases Nat.lt_or_ge o.toNat text.length with h | h
  · have hone : min (o + 1).toNat text.length - min o.toNat text.length = 1 := by omega
    rw [hone, Nat.min_eq_left (Nat.le_of_lt h), List.take_one, List.head?_drop]
  · have hnone : min (o + 1).toNat text.length - min o.toNat text.length = 0 := by omega
    rw [hnone, List.take_zero, List.getElem?_eq_none h]
    rfl

/-- A slice is made of slices of one character. -/
theorem slice_eq_flatMap (text : Text) {a b : Int} (ha : 0 ≤ a) (hab : a ≤ b) :
    text.slice a b = (Int.range a b).flatMap fun o => text.slice o (o + 1) := by
  obtain ⟨n, rfl⟩ := Int.le.dest hab
  clear hab
  induction n with
  | zero => rw [Int.natCast_zero, Int.add_zero, slice_self, Render.range_self, List.flatMap_nil]
  | succ n ih =>
    have hn : a ≤ a + n := by omega
    rw [Int.natCast_succ, ← Int.add_assoc, ← Render.range_append hn (by omega),
      Render.range_succ, List.flatMap_append, List.flatMap_singleton, ← ih,
      text.slice_append ha hn (by omega)]

end Text

namespace Render

/-- One node closes before another at the same offset: plain ones first, then narrower ranges, then
deeper nodes. -/
def ClosesBefore (a b : Nat × Mark) : Prop :=
  a.2.before.isNone ∧ b.2.before.isSome ∨
    (a.2.before.isSome ↔ b.2.before.isSome) ∧
      (b.2.start < a.2.start ∨ a.2.start = b.2.start ∧ b.1 < a.1)

/-- One node opens before another at the same offset: brackets first, then wider ranges, then
shallower nodes. -/
def OpensBefore (a b : Nat × Mark) : Prop :=
  a.2.after.isSome ∧ b.2.after.isNone ∨
    (a.2.after.isSome ↔ b.2.after.isSome) ∧
      (b.2.stop < a.2.stop ∨ a.2.stop = b.2.stop ∧ a.1 < b.1)

structure Arranges (before : Nat × Mark → Nat × Mark → Prop)
    (nodes arranged : List (Nat × Mark)) : Prop where
  perm : arranged.Perm nodes
  inOrder : arranged.Pairwise before

section Keys
variable {a b : Nat × Mark}

private theorem keyLE_three {a b c a' b' c' : Int} : keyLE [a, b, c] [a', b', c'] = true ↔
    a < a' ∨ a = a' ∧ (b < b' ∨ b = b' ∧ c ≤ c') := by
  simp only [keyLE, Bool.or_eq_true, Bool.and_eq_true, decide_eq_true_eq, and_true]
  omega

/-- The keys of closing texts stand in the order in which the texts close. -/
theorem keyLE_closingKey : keyLE (closingKey a) (closingKey b) = true ↔ ¬ ClosesBefore b a := by
  rw [closingKey, closingKey, keyLE_three, ClosesBefore]
  cases ha : a.2.before <;> cases hb : b.2.before <;> simp <;> omega

/-- The keys of opening texts stand in the order in which the texts open. -/
theorem keyLE_openingKey : keyLE (openingKey a) (openingKey b) = true ↔ ¬ OpensBefore b a := by
  rw [openingKey, openingKey, keyLE_three, OpensBefore]
  cases ha : a.2.after <;> cases hb : b.2.after <;> simp <;> omega

end Keys

section Arranging
variable {before : Nat × Mark → Nat × Mark → Prop} {key : Nat × Mark → List Int}
  {nodes : List (Nat × Mark)}

/-- Sorting by a key arranges nodes if the order that the key gives leaves no two of them equal. -/
theorem arranges_sortBy (hthree : ∀ a, ∃ x y z, key a = [x, y, z])
    (hkey : ∀ a b, keyLE (key a) (key b) = true ↔ ¬ before b a) (hnodup : nodes.Nodup)
    (htotal : ∀ a ∈ nodes, ∀ b ∈ nodes, a ≠ b → before a b ∨ before b a) :
    Arranges before nodes (sortBy key nodes) := by
  have hperm : (sortBy key nodes).Perm nodes := List.mergeSort_perm _ _
  have hsorted : (sortBy key nodes).Pairwise fun a b => keyLE (key a) (key b) = true := by
    refine List.pairwise_mergeSort (fun a b c hab hbc => ?_) (fun a b => ?_) nodes
    · obtain ⟨x, y, z, ha⟩ := hthree a
      obtain ⟨x', y', z', hb⟩ := hthree b
      obtain ⟨x'', y'', z'', hc⟩ := hthree c
      rw [ha, hb, keyLE_three] at hab
      rw [hb, hc, keyLE_three] at hbc
      rw [ha, hc, keyLE_three]
      omega
    · obtain ⟨x, y, z, ha⟩ := hthree a
      obtain ⟨x', y', z', hb⟩ := hthree b
      rw [Bool.or_eq_true, ha, hb, keyLE_three, keyLE_three]
      omega
  refine ⟨hperm, (hsorted.and (hperm.nodup_iff.2 hnodup)).imp_of_mem fun {a b} ha hb hab => ?_⟩
  have htotal := htotal a (hperm.mem_iff.1 ha) b (hperm.mem_iff.1 hb) hab.2
  exact htotal.resolve_right ((hkey a b).1 hab.1)

variable {tree : Tree Mark}

/-- Of the non-empty nodes of a tree no two that close, or open, at one offset are equal in the
order there, since one of them lies below the other. -/
theorem arranges_filter (h : tree.WellFormed) {p : Nat × Mark → Bool}
    (hthree : ∀ a, ∃ x y z, key a = [x, y, z])
    (hkey : ∀ a b, keyLE (key a) (key b) = true ↔ ¬ before b a)
    (htotal : ∀ a b, p a → p b → a.2.start < a.2.stop → b.2.start < b.2.stop → Precedes a b →
      before a b ∨ before b a) :
    Arranges before ((tree.solid 0).filter p) (sortBy key ((tree.solid 0).filter p)) := by
  refine arranges_sortBy hthree hkey ((solid_nodup h 0).filter _) fun a ha b hb hne => ?_
  obtain ⟨ha, hpa⟩ := List.mem_filter.1 ha
  obtain ⟨hb, hpb⟩ := List.mem_filter.1 hb
  have hal := (solid_within h a ha).2.2.1
  have hbl := (solid_within h b hb).2.2.1
  rcases solid_comparable h ha hb hne with hab | hba
  · exact htotal a b hpa hpb hal hbl hab
  · exact (htotal b a hpb hpa hbl hal hba).symm

variable (o : Int)

def closers (nodes : List (Nat × Mark)) : List (Nat × Mark) :=
  nodes.filter fun n => n.2.after.isSome && n.2.stop = o

def openers (nodes : List (Nat × Mark)) : List (Nat × Mark) :=
  nodes.filter fun n => n.2.before.isSome && n.2.start = o

/-- Sorting arranges the closing texts of an offset in their order. -/
theorem arranges_closers (h : tree.WellFormed) : Arranges ClosesBefore
    (closers o (tree.solid 0)) (sortBy closingKey (closers o (tree.solid 0))) := by
  refine arranges_filter h (fun _ => ⟨_, _, _, rfl⟩) (fun _ _ => keyLE_closingKey) ?_
  intro a b ha hb hal hbl hab
  simp only [Bool.and_eq_true, decide_eq_true_eq] at ha hb
  unfold Precedes at hab
  unfold ClosesBefore
  cases a.2.before <;> cases b.2.before <;> simp <;> omega

/-- Sorting arranges the opening texts of an offset in their order. -/
theorem arranges_openers (h : tree.WellFormed) : Arranges OpensBefore
    (openers o (tree.solid 0)) (sortBy openingKey (openers o (tree.solid 0))) := by
  refine arranges_filter h (fun _ => ⟨_, _, _, rfl⟩) (fun _ _ => keyLE_openingKey) ?_
  intro a b ha hb hal hbl hab
  simp only [Bool.and_eq_true, decide_eq_true_eq] at ha hb
  unfold Precedes at hab
  unfold OpensBefore
  cases a.2.after <;> cases b.2.after <;> simp <;> omega

end Arranging

/-- What a tree shows at an offset: the texts after the nodes that end there, the texts before the
nodes that start there, and the character there, unless a hidden node covers it. -/
def shownAt (text : Text) (tree : Tree Mark) (closing opening : List (Nat × Mark)) (o : Int) :
    Text :=
  closing.flatMap (·.2.after.getD []) ++ opening.flatMap (·.2.before.getD []) ++
    if o < (Tree.label tree).stop ∧ ¬ Hides (tree.solid 0) o then text[o.toNat]?.toList else []

end Render

open Render

/-- The text of a tree is what it shows at one offset after the other, up to the end of the root
and with the decorations there. At each offset the nodes that close and those that open are in the
one order that is meant for them. The root is a range of some text, so it starts at no negative
offset. -/
theorem Tree.render_eq_offsets (text : Text) (tree : Tree Mark) (hw : tree.WellFormed)
    (hroot : (Tree.label tree).start < (Tree.label tree).stop)
    (hstart : 0 ≤ (Tree.label tree).start) :
    ∃ closing opening : Int → List (Nat × Mark),
      (∀ o, Arranges ClosesBefore (closers o (tree.solid 0)) (closing o)) ∧
      (∀ o, Arranges OpensBefore (openers o (tree.solid 0)) (opening o)) ∧
      tree.render text = (Int.range (Tree.label tree).start ((Tree.label tree).stop + 1)).flatMap
        fun o => shownAt text tree (closing o) (opening o) o := by
  refine ⟨_, _, fun o => arranges_closers o hw, fun o => arranges_openers o hw, ?_⟩
  have he : ¬ (Tree.label tree).isEmpty := by
    simp only [Mark.isEmpty, decide_eq_true_eq]
    omega
  rw [Tree.render, pieces_eq hw he fun a b ha hab =>
    text.slice_eq_flatMap (Int.le_trans hstart ha) hab]
  refine List.flatMap_congr fun o ho => ?_
  have ho := Int.le_trans hstart (Int.mem_range_iff.1 ho).1
  rw [shownAt, List.flatMap_append, closing, opening, List.flatMap_map, List.flatMap_map,
    Piece.render, text.slice_succ ho]
  rfl

def bracketed : Tree Mark :=
  let mark (before after : Option Text) (hidden : Bool) (start stop : Int) : Mark :=
    { before, after, hidden, start, stop }
  .node (mark (some ['(']) (some [')']) false 0 5)
    [some (.leaf (mark none (some ['!']) true 0 2)), none,
      some (.leaf (mark (some ['x']) none false 2 2)),
      some (.node (mark none (some ['?']) false 3 5)
        [some (.leaf (mark (some ['<']) (some ['>']) false 3 5))])]

theorem bracketed_wellFormed : bracketed.WellFormed := by decide

theorem bracketed_render : bracketed.render "ab cd".toList = "(! <cd?>)".toList ∧
    ∃ closing opening : Int → List (Nat × Mark),
      (∀ o, Arranges ClosesBefore (closers o (bracketed.solid 0)) (closing o)) ∧
      (∀ o, Arranges OpensBefore (openers o (bracketed.solid 0)) (opening o)) ∧
      bracketed.render "ab cd".toList = (Int.range 0 (5 + 1)).flatMap fun o =>
        shownAt "ab cd".toList bracketed (closing o) (opening o) o :=
  ⟨by cbv, Tree.render_eq_offsets _ bracketed bracketed_wellFormed (by decide) (by decide)⟩

end OrderedBnf
