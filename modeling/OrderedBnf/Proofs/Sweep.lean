import Mathlib.Data.Int.Range
import Mathlib.Data.List.Sort
import OrderedBnf.Proofs.WellFormed

/-! Going over a text from boundary to boundary gives what going from offset to offset does. -/
namespace OrderedBnf.Render

section Ranges
variable {a b c : Int}

/-- Ranges that meet make up a range. -/
theorem range_append (hab : a ≤ b) (hbc : b ≤ c) :
    Int.range a b ++ Int.range b c = Int.range a c := by
  obtain ⟨m, rfl⟩ := Int.le.dest hab
  obtain ⟨n, rfl⟩ := Int.le.dest hbc
  have hm : (a + m - a).toNat = m := by omega
  have hn : (a + m + n - (a + m)).toNat = n := by omega
  have hmn : (a + m + n - a).toNat = m + n := by omega
  rw [Int.range, Int.range, Int.range, hm, hn, hmn, List.range_add, List.map_append, List.map_map]
  refine congrArg _ (List.map_congr_left fun i _ => ?_)
  simp only [Function.comp_apply, Int.natCast_add, Int.add_assoc]

theorem range_self (a : Int) : Int.range a a = [] := by
  simp [Int.range]

theorem range_succ (a : Int) : Int.range a (a + 1) = [a] := by
  simp [Int.range]

theorem range_cons (h : a < b) : Int.range a b = a :: Int.range (a + 1) b := by
  rw [← range_append (Int.le_of_lt (Int.lt_succ a)) h, range_succ, List.singleton_append]

end Ranges

/-- The hidden ranges that a sweep has still to come to or is in, in order, when it stands at a
cursor and has some boundaries before it. Each of them that starts or ends ahead does so at a
boundary, and from the cursor on nothing else is hidden. -/
structure Conceals (hides : Int → Prop) (concealed : List Mark) (cursor : Int)
    (offsets : List Int) : Prop where
  inOrder : concealed.Pairwise fun a b => a.stop ≤ b.start
  solid : ∀ m ∈ concealed, m.start < m.stop
  start_mem : ∀ m ∈ concealed, cursor < m.start → m.start ∈ offsets
  stop_mem : ∀ m ∈ concealed, cursor < m.stop → m.stop ∈ offsets
  hides_iff : ∀ o, cursor ≤ o → (hides o ↔ ∃ m ∈ concealed, m.start ≤ o ∧ o < m.stop)

namespace Conceals
variable {hides : Int → Prop} {concealed : List Mark} {cursor offset : Int} {offsets : List Int}

/-- What lies behind the cursor lies at the front. -/
theorem dropWhile_eq (h : Conceals hides concealed cursor offsets) :
    concealed.dropWhile (·.stop ≤ cursor) = concealed.filter (cursor < ·.stop) := by
  have ho := h.inOrder
  have hs := h.solid
  clear h
  induction ho with
  | nil => rfl
  | @cons m rest hm _ ih =>
    by_cases hc : m.stop ≤ cursor
    · rw [List.dropWhile_cons_of_pos (by simpa using hc),
        List.filter_cons_of_neg (by simpa using hc)]
      exact ih fun m' hm' => hs m' (List.mem_cons_of_mem _ hm')
    · rw [List.dropWhile_cons_of_neg (by simpa using hc), List.filter_eq_self.2]
      intro m' hm'
      rw [decide_eq_true_eq]
      rcases List.mem_cons.1 hm' with rfl | hr
      · exact Int.lt_of_not_ge hc
      · have := hm m' hr
        have := hs m' hm'
        omega

/-- Ranges that end before the cursor conceal nothing further on. -/
theorem ahead (h : Conceals hides concealed cursor offsets) :
    Conceals hides (concealed.filter (cursor < ·.stop)) cursor offsets where
  inOrder := h.inOrder.filter _
  solid m hm := h.solid m (List.mem_of_mem_filter hm)
  start_mem m hm := h.start_mem m (List.mem_of_mem_filter hm)
  stop_mem m hm := h.stop_mem m (List.mem_of_mem_filter hm)
  hides_iff o ho := by
    rw [h.hides_iff o ho]
    constructor
    · rintro ⟨m, hm, hs, hlt⟩
      exact ⟨m, List.mem_filter.2 ⟨hm, decide_eq_true (Int.lt_of_le_of_lt ho hlt)⟩, hs, hlt⟩
    · rintro ⟨m, hm, hs, hlt⟩
      exact ⟨m, List.mem_of_mem_filter hm, hs, hlt⟩

/-- The cursor may go on to the next boundary. -/
theorem advance (h : Conceals hides concealed cursor (offset :: offsets)) (hle : cursor ≤ offset) :
    Conceals hides concealed offset offsets where
  inOrder := h.inOrder
  solid := h.solid
  start_mem m hm hlt :=
    (List.mem_cons.1 (h.start_mem m hm (Int.lt_of_le_of_lt hle hlt))).resolve_left hlt.ne'
  stop_mem m hm hlt :=
    (List.mem_cons.1 (h.stop_mem m hm (Int.lt_of_le_of_lt hle hlt))).resolve_left hlt.ne'
  hides_iff o ho := h.hides_iff o (Int.le_trans hle ho)

/-- From the last boundary on nothing is hidden. -/
theorem nothing_ahead (h : Conceals hides concealed cursor []) :
    concealed.filter (cursor < ·.stop) = [] := by
  refine List.filter_eq_nil_iff.2 fun m hm hlt => ?_
  exact List.not_mem_nil (h.stop_mem m hm (of_decide_eq_true hlt))

theorem not_hides (h : Conceals hides concealed cursor offsets)
    (hn : concealed.filter (cursor < ·.stop) = []) {o : Int} (ho : cursor ≤ o) : ¬ hides o := by
  rw [h.ahead.hides_iff o ho, hn]
  rintro ⟨m, hm, -⟩
  exact List.not_mem_nil hm

/-- Up to the next boundary either all is hidden or nothing is, and the first of the ranges ahead
tells which. -/
theorem between (h : Conceals hides concealed cursor (offset :: offsets))
    (hord : ∀ o ∈ offsets, offset < o) {m : Mark} {rest : List Mark}
    (hm : concealed.filter (cursor < ·.stop) = m :: rest) {o : Int} (ho : cursor ≤ o)
    (hlt : o < offset) : hides o ↔ m.start ≤ cursor ∧ offset ≤ m.stop := by
  have ha := h.ahead
  rw [hm] at ha
  have hc : cursor < m.stop := by
    have hmem : m ∈ concealed.filter (cursor < ·.stop) := hm ▸ List.mem_cons_self
    exact of_decide_eq_true (List.mem_filter.1 hmem).2
  have hbound {x : Int} (hx : x ∈ offset :: offsets) : offset ≤ x := by
    rcases List.mem_cons.1 hx with rfl | hx
    · exact Int.le_refl _
    · exact Int.le_of_lt (hord x hx)
  have hstop := hbound (ha.stop_mem m List.mem_cons_self hc)
  rw [ha.hides_iff o ho]
  constructor
  · rintro ⟨m', hm', hs, ht⟩
    have hle : m.start ≤ m'.start := by
      rcases List.mem_cons.1 hm' with rfl | hr
      · exact Int.le_refl _
      · have := List.rel_of_pairwise_cons ha.inOrder hr
        have := ha.solid m List.mem_cons_self
        omega
    refine ⟨?_, hstop⟩
    by_contra hcm
    have := hbound (ha.start_mem m List.mem_cons_self (Int.lt_of_not_ge hcm))
    omega
  · rintro ⟨hs, ht⟩
    exact ⟨m, List.mem_cons_self, Int.le_trans hs ho, Int.lt_of_lt_of_le hlt ht⟩

end Conceals

section Sweep
variable {β : Type} {emit : Piece → List β} {hides : Int → Prop} [DecidablePred hides]
  {entries : List (Nat × Mark)} {stop : Int}

def contribution (emit : Piece → List β) (hides : Int → Prop) [DecidablePred hides]
    (entries : List (Nat × Mark)) (stop : Int) (offsets : List Int) (o : Int) : List β :=
  (if o ∈ offsets then (closing entries o ++ opening entries o).flatMap emit else []) ++
    if o < stop ∧ ¬ hides o then emit (.chars o (o + 1)) else []

theorem contribution_of_lt {offsets : List Int} {o : Int} (ho : ∀ x ∈ offsets, o < x) :
    contribution emit hides entries stop offsets o =
      if o < stop ∧ ¬ hides o then emit (.chars o (o + 1)) else [] := by
  rw [contribution, if_neg fun hm => Int.lt_irrefl _ (ho o hm), List.nil_append]

theorem contribution_cons {offset : Int} {offsets : List Int} {o : Int} (ho : offset < o) :
    contribution emit hides entries stop (offset :: offsets) o =
      contribution emit hides entries stop offsets o := by
  simp [contribution, ho.ne']

theorem contribution_head {offset : Int} {offsets : List Int} (ho : ∀ x ∈ offsets, offset < x) :
    contribution emit hides entries stop (offset :: offsets) offset =
      (closing entries offset ++ opening entries offset).flatMap emit ++
        contribution emit hides entries stop offsets offset := by
  rw [contribution_of_lt ho, contribution, if_pos List.mem_cons_self]

variable {low : Int} (hemit : ∀ a b, low ≤ a → a ≤ b →
  emit (.chars a b) = (Int.range a b).flatMap fun o => emit (.chars o (o + 1)))
include hemit

theorem between_eq {concealed : List Mark} {cursor offset : Int} {offsets : List Int}
    (h : Conceals hides concealed cursor (offset :: offsets)) (hord : ∀ o ∈ offsets, offset < o)
    (hlow : low ≤ cursor) (hle : cursor ≤ offset) :
    (match concealed.filter fun m : Mark => cursor < m.stop with
      | [] => [Piece.chars cursor offset]
      | m :: _ =>
        if m.start ≤ cursor && offset ≤ m.stop then []
        else [Piece.chars cursor offset]).flatMap emit =
      (Int.range cursor offset).flatMap fun o =>
        if hides o then [] else emit (.chars o (o + 1)) := by
  have hshown (hn : ∀ o, cursor ≤ o → o < offset → ¬ hides o) :
      [Piece.chars cursor offset].flatMap emit = (Int.range cursor offset).flatMap fun o =>
        if hides o then [] else emit (.chars o (o + 1)) := by
    rw [List.flatMap_singleton, hemit _ _ hlow hle]
    refine List.flatMap_congr fun o ho => ?_
    obtain ⟨hc, ho⟩ := Int.mem_range_iff.1 ho
    rw [if_neg (hn o hc ho)]
  cases hm : concealed.filter (cursor < ·.stop) with
  | nil => exact hshown fun o hc _ => h.not_hides hm hc
  | cons m rest =>
    have hb (o : Int) (hc : cursor ≤ o) (ho : o < offset) := h.between hord hm hc ho
    dsimp only
    split
    · rename_i hh
      simp only [Bool.and_eq_true, decide_eq_true_eq] at hh
      refine (List.flatMap_eq_nil_iff.2 fun o ho => ?_).symm
      obtain ⟨hc, ho⟩ := Int.mem_range_iff.1 ho
      exact if_pos ((hb o hc ho).2 hh)
    · rename_i hh
      simp only [Bool.and_eq_true, decide_eq_true_eq] at hh
      exact hshown fun o hc ho hx => hh ((hb o hc ho).1 hx)

theorem sweep_eq (offsets : List Int) : ∀ {cursor : Int} {concealed : List Mark}, low ≤ cursor →
    cursor ≤ stop → (∀ o ∈ offsets, cursor ≤ o ∧ o ≤ stop) → offsets.Pairwise (· < ·) →
    Conceals hides concealed cursor offsets →
    (sweep entries stop cursor concealed offsets).flatMap emit =
      (Int.range cursor (stop + 1)).flatMap (contribution emit hides entries stop offsets) := by
  induction offsets with
  | nil =>
    intro cursor concealed hlow hle _ _ h
    have hrange : (Int.range cursor (stop + 1)).flatMap
        (contribution emit hides entries stop []) = emit (.chars cursor stop) := by
      rw [← range_append hle (Int.le_of_lt (Int.lt_succ stop)), List.flatMap_append, range_succ,
        hemit cursor stop hlow hle, List.flatMap_singleton, contribution_of_lt (by simp),
        if_neg (by simp), List.append_nil]
      refine List.flatMap_congr fun o ho => ?_
      obtain ⟨hc, hs⟩ := Int.mem_range_iff.1 ho
      rw [contribution_of_lt (by simp), if_pos ⟨hs, h.not_hides h.nothing_ahead hc⟩]
    rw [hrange, sweep, h.dropWhile_eq, h.nothing_ahead]
    split
    · exact List.flatMap_singleton _ _
    · rw [show cursor = stop by omega, hemit stop stop (by omega) (Int.le_refl _), range_self]
      rfl
  | cons offset offsets ih =>
    intro cursor concealed hlow hle hbound hord h
    obtain ⟨hord, hrest⟩ := List.pairwise_cons.1 hord
    obtain ⟨hco, hos⟩ := hbound offset List.mem_cons_self
    -- From the boundary on the sweep goes as it would if it stood there.
    have hfrom (concealed : List Mark) (h : Conceals hides concealed offset offsets) :
        (closing entries offset ++ opening entries offset ++
            sweep entries stop offset concealed offsets).flatMap emit =
          (Int.range offset (stop + 1)).flatMap
            (contribution emit hides entries stop (offset :: offsets)) := by
      rw [List.flatMap_append, ih (by omega) hos
        (fun o ho => ⟨Int.le_of_lt (hord o ho), (hbound o (List.mem_cons_of_mem _ ho)).2⟩) hrest h,
        range_cons (by omega), List.flatMap_cons, List.flatMap_cons, contribution_head hord,
        List.append_assoc]
      refine congrArg _ (congrArg _ (List.flatMap_congr fun o ho => ?_))
      exact (contribution_cons (Int.mem_range_iff.1 ho).1).symm
    rw [sweep]
    split
    · rename_i hlt
      have hbefore : (Int.range cursor offset).flatMap
          (contribution emit hides entries stop (offset :: offsets)) =
            (Int.range cursor offset).flatMap fun o =>
              if hides o then [] else emit (.chars o (o + 1)) := by
        refine List.flatMap_congr fun o ho => ?_
        have ho := (Int.mem_range_iff.1 ho).2
        rw [contribution_of_lt]
        · have hs : o < stop := by omega
          simp only [hs, true_and, ite_not]
        · intro x hx
          rcases List.mem_cons.1 hx with rfl | hx
          · exact ho
          · exact Int.lt_trans ho (hord x hx)
      have hwhole := congrArg (List.flatMap (contribution emit hides entries stop
        (offset :: offsets))) (range_append hco (show offset ≤ stop + 1 by omega))
      rw [List.flatMap_append, hbefore] at hwhole
      rw [← hwhole, List.append_assoc, List.flatMap_append, h.dropWhile_eq,
        hfrom _ (h.ahead.advance hco)]
      exact congrArg (· ++ _) (between_eq hemit h hord hlow hco)
    · obtain rfl : cursor = offset := by omega
      exact hfrom _ (h.advance (Int.le_refl _))

end Sweep

section Boundaries
variable {entries : List (Nat × Mark)} {concealed : List Mark} {o : Int}

private theorem pairwise_eraseDups : ∀ {l : List Int}, l.Pairwise (· ≤ ·) →
    l.eraseDups.Pairwise (· < ·)
  | [], _ => .nil
  | a :: l, h => by
    obtain ⟨ha, hl⟩ := List.pairwise_cons.1 h
    rw [List.eraseDups_cons]
    refine .cons (fun b hb => ?_) (pairwise_eraseDups (hl.filter _))
    rw [List.mem_eraseDups, List.mem_filter] at hb
    have hne : b ≠ a := by simpa using hb.2
    exact Int.lt_iff_le_and_ne.2 ⟨ha b hb.1, hne.symm⟩
  termination_by l => l.length
  decreasing_by exact Nat.lt_succ_of_le (List.length_filter_le _ _)

theorem boundaries_increasing (entries : List (Nat × Mark)) (concealed : List Mark) :
    (boundaries entries concealed).Pairwise (· < ·) :=
  pairwise_eraseDups List.sortedLE_mergeSort.pairwise

theorem mem_boundaries : o ∈ boundaries entries concealed ↔
    (∃ e ∈ entries, e.2.before.isSome ∧ e.2.start = o) ∨
      (∃ e ∈ entries, e.2.after.isSome ∧ e.2.stop = o) ∨
      (∃ m ∈ concealed, m.start = o) ∨ ∃ m ∈ concealed, m.stop = o := by
  simp only [boundaries, List.mem_eraseDups, List.mem_mergeSort, List.mem_append, List.mem_map,
    List.mem_filter, and_assoc, or_assoc]

theorem decorations_of_not_mem (h : o ∉ boundaries entries concealed) :
    closing entries o ++ opening entries o = [] := by
  rw [mem_boundaries, not_or, not_or] at h
  have hc : entries.filter (fun e => e.2.after.isSome && e.2.stop = o) = [] := by
    refine List.filter_eq_nil_iff.2 fun e he hs => h.2.1 ⟨e, he, ?_⟩
    simpa using hs
  have ho : entries.filter (fun e => e.2.before.isSome && e.2.start = o) = [] := by
    refine List.filter_eq_nil_iff.2 fun e he hs => h.1 ⟨e, he, ?_⟩
    simpa using hs
  rw [closing, opening, hc, ho, sortBy, sortBy, List.mergeSort_nil, List.mergeSort_nil]
  rfl

end Boundaries

section Pieces
variable {tree : Tree Mark}

def Hides (nodes : List (Nat × Mark)) (o : Int) : Prop :=
  ∃ n ∈ nodes, n.2.hidden ∧ n.2.start ≤ o ∧ o < n.2.stop

instance (nodes : List (Nat × Mark)) : DecidablePred (Hides nodes) := fun _ =>
  inferInstanceAs (Decidable (∃ n ∈ nodes, _))

/-- An offset that is hidden lies within the tree. -/
theorem Hides.within (h : tree.WellFormed) {depth : Nat} {o : Int}
    (ho : Hides (tree.solid depth) o) :
    (Tree.label tree).start ≤ o ∧ o < (Tree.label tree).stop := by
  obtain ⟨n, hn, -, hs, ht⟩ := ho
  obtain ⟨-, hs', -, ht'⟩ := solid_within h n hn
  exact ⟨Int.le_trans hs' hs, Int.lt_of_lt_of_le ht ht'⟩

theorem hides_add (tree : Tree Mark) (depth more : Nat) (o : Int) :
    Hides (tree.solid (depth + more)) o ↔ Hides (tree.solid depth) o := by
  rw [solid_add]
  simp only [Hides, List.mem_map, exists_exists_and_eq_and]
  rfl

theorem hidden_sorted (h : tree.WellFormed) (he : ¬ (Tree.label tree).isEmpty) :
    ((hidden tree).mergeSort fun a b => a.start ≤ b.start) = hidden tree := by
  refine List.mergeSort_of_pairwise ((hidden_inOrder h he).imp_of_mem fun {a b} ha _ hab => ?_)
  have := hidden_within h he a ha
  rw [decide_eq_true_eq]
  omega

/-- The outermost hidden nodes conceal what any hidden node covers. -/
theorem hidden_conceals (h : tree.WellFormed) (he : ¬ (Tree.label tree).isEmpty) :
    Conceals (Hides (tree.solid 0)) (hidden tree) (Tree.label tree).start
      (boundaries (marks 0 tree) (hidden tree)) := by
  refine ⟨hidden_inOrder h he, fun m hm => (hidden_within h he m hm).2.1, ?_, ?_, fun o _ => ?_⟩
  · exact fun m hm _ => mem_boundaries.2 (.inr (.inr (.inl ⟨m, hm, rfl⟩)))
  · exact fun m hm _ => mem_boundaries.2 (.inr (.inr (.inr ⟨m, hm, rfl⟩)))
  · constructor
    · rintro ⟨n, hn, hh, hs, ht⟩
      obtain ⟨m, hm, hs', ht'⟩ := hidden_covers h 0 n hn hh
      exact ⟨m, hm, Int.le_trans hs' hs, Int.lt_of_lt_of_le ht ht'⟩
    · rintro ⟨m, hm, hs, ht⟩
      obtain ⟨hh, n, hn, rfl⟩ := hidden_solid h 0 he m hm
      exact ⟨n, hn, hh, hs, ht⟩

theorem boundaries_within (h : tree.WellFormed) (he : ¬ (Tree.label tree).isEmpty) {o : Int}
    (ho : o ∈ boundaries (marks 0 tree) (hidden tree)) :
    (Tree.label tree).start ≤ o ∧ o ≤ (Tree.label tree).stop := by
  rw [marks_eq_solid h 0 he, mem_boundaries] at ho
  rcases ho with ⟨e, hm, -, rfl⟩ | ⟨e, hm, -, rfl⟩ | ⟨m, hm, rfl⟩ | ⟨m, hm, rfl⟩
  · have := solid_within h e hm
    omega
  · have := solid_within h e hm
    omega
  · have := hidden_within h he m hm
    omega
  · have := hidden_within h he m hm
    omega

/-- Going over a tree from boundary to boundary gives at each offset what closes there, what opens
there and the character there, unless a hidden node covers it. -/
theorem pieces_eq {β : Type} {emit : Piece → List β} (h : tree.WellFormed)
    (he : ¬ (Tree.label tree).isEmpty)
    (hemit : ∀ a b, (Tree.label tree).start ≤ a → a ≤ b →
      emit (.chars a b) = (Int.range a b).flatMap fun o => emit (.chars o (o + 1))) :
    (pieces tree).flatMap emit =
      (Int.range (Tree.label tree).start ((Tree.label tree).stop + 1)).flatMap fun o =>
        (closing (tree.solid 0) o ++ opening (tree.solid 0) o).flatMap emit ++
          if o < (Tree.label tree).stop ∧ ¬ Hides (tree.solid 0) o then emit (.chars o (o + 1))
          else [] := by
  have hlt : (Tree.label tree).start < (Tree.label tree).stop := by
    have hle : (Tree.label tree).start ≤ (Tree.label tree).stop := by
      cases h with
      | node hle => exact hle
    simp only [Mark.isEmpty, decide_eq_true_eq] at he
    omega
  have hc := hidden_conceals h he
  have hpieces : pieces tree = sweep (marks 0 tree) (Tree.label tree).stop (Tree.label tree).start
      (hidden tree) (boundaries (marks 0 tree) (hidden tree)) := by
    rw [pieces]
    dsimp only
    rw [if_neg he, hidden_sorted h he]
    split
    · rename_i hb
      rw [hb] at hc ⊢
      rw [sweep, if_pos hlt, hc.dropWhile_eq, hc.nothing_ahead]
    · rfl
  rw [hpieces, sweep_eq hemit _ (Int.le_refl _) (Int.le_of_lt hlt)
    (fun o ho => boundaries_within h he ho)
    (boundaries_increasing _ _) hc]
  refine List.flatMap_congr fun o _ => ?_
  rw [contribution, marks_eq_solid h 0 he]
  split
  · rfl
  · rename_i hb
    rw [decorations_of_not_mem hb]
    rfl

end Pieces
end OrderedBnf.Render
