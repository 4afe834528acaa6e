import OrderedBnf.Source.Complaint

/-! Lines and columns. They follow the offsets: of two characters the later one stands on a later
line, or further on in the same one. -/
namespace OrderedBnf

/-- In an ascending list the numbers up to a bound come first. -/
theorem getElem_le_iff {l : List Nat} (hl : l.Pairwise (· < ·)) (bound : Nat) :
    ∀ {i : Nat} (hi : i < l.length), l[i] ≤ bound ↔ i < l.countP (· ≤ bound) := by
  induction l with
  | nil => exact fun hi => absurd hi (Nat.not_lt_zero _)
  | cons a l ih =>
    intro i hi
    obtain ⟨ha, hl⟩ := List.pairwise_cons.1 hl
    rw [List.countP_cons]
    by_cases hle : a ≤ bound
    · cases i with
      | zero => simp [hle]
      | succ i => simp [hle, ih hl (Nat.lt_of_succ_lt_succ hi)]
    · have hnone : l.countP (· ≤ bound) = 0 :=
        List.countP_eq_zero.2 fun b hb => by
          have := ha b hb
          simp only [decide_eq_true_eq]
          omega
      cases i with
      | zero => simp [hle, hnone]
      | succ i =>
        have := ha _ (List.getElem_mem (Nat.lt_of_succ_lt_succ hi))
        simp only [List.getElem_cons_succ, hnone, hle]
        simp
        omega

namespace BreakStyle

theorem ends_bounds {style : BreakStyle} {i e : Nat} {text : Text} (h : e ∈ style.ends i text) :
    i < e ∧ e ≤ i + text.length := by
  fun_induction ends style i text with
  | case1 => cases h
  | case2 i rest ih =>
    rw [List.length_cons, List.length_cons]
    rcases List.mem_cons.1 h with rfl | h
    · split <;> omega
    · have := ih h
      omega
  | case3 i c rest _ _ ih =>
    rw [List.length_cons]
    rcases List.mem_cons.1 h with rfl | h
    · omega
    · have := ih h
      omega
  | case4 i c rest _ _ ih =>
    rw [List.length_cons]
    have := ih h
    omega

theorem ends_ascending (style : BreakStyle) (i : Nat) (text : Text) :
    (style.ends i text).Pairwise (· < ·) := by
  fun_induction ends style i text with
  | case1 => exact .nil
  | case2 i rest ih =>
    refine .cons (fun e he => ?_) ih
    have := (ends_bounds he).1
    split <;> omega
  | case3 i c rest _ _ ih => exact .cons (fun e he => (ends_bounds he).1) ih
  | case4 i c rest _ _ ih => exact ih

end BreakStyle

def Position.Before (a b : Position) : Prop :=
  a.line < b.line ∨ a.line = b.line ∧ a.column < b.column

theorem Position.not_before_self (a : Position) : ¬ a.Before a := by
  rintro (h | ⟨-, h⟩) <;> exact Int.lt_irrefl _ h

theorem Position.Before.asymm {a b : Position} (h : a.Before b) : ¬ b.Before a := by
  unfold Before at *
  omega

namespace Source
variable (source : Source)

theorem lineStarts_ascending : source.lineStarts.Pairwise (· < ·) :=
  .cons (fun _ he => (BreakStyle.ends_bounds he).1) (BreakStyle.ends_ascending _ _ _)

theorem lineStarts_le {start : Nat} (h : start ∈ source.lineStarts) :
    start ≤ source.content.length := by
  rcases List.mem_cons.1 h with rfl | h
  · exact Nat.zero_le _
  · exact Nat.zero_add source.content.length ▸ (BreakStyle.ends_bounds h).2

structure InRow (i row start : Nat) : Prop where
  rowOf : source.rowOf i = row
  count : row + 1 = source.lineStarts.countP (· ≤ i)
  starts : source.lineStarts[row]? = some start
  le : start ≤ i

/-- Every offset lies in a row. -/
theorem exists_inRow (i : Nat) : ∃ row start, source.InRow i row start := by
  have hle := @List.countP_le_length _ (· ≤ i) source.lineStarts
  have hpos : 0 < source.lineStarts.countP (· ≤ i) :=
    List.countP_pos_iff.2 ⟨0, List.mem_cons_self, by simp⟩
  have hlt : source.lineStarts.countP (· ≤ i) - 1 < source.lineStarts.length := by omega
  refine ⟨_, source.lineStarts[source.lineStarts.countP (· ≤ i) - 1], ?_, by omega,
    List.getElem?_eq_getElem hlt, (getElem_le_iff source.lineStarts_ascending i hlt).2 (by omega)⟩
  simp only [Source.rowOf, Int.ofNat_le]
  omega

variable {source} {i j row row' start start' : Nat}

theorem InRow.rowStart (h : source.InRow i row start) : source.rowStart row = start := by
  rw [Source.rowStart, if_neg (Int.not_lt.2 (Int.natCast_nonneg _)), Int.toNat_natCast, List.getD,
    h.starts]
  rfl

/-- The position of an offset is its row, and its column counted from the start of the row. -/
theorem InRow.position (h : source.InRow i row start) : source.position i =
    { line := row + source.firstLine
      column := 1 + (i - start) +
        (source.tabWidth - 1) * ((source.content.slice start i).count '\t' : Nat) } := by
  rw [Source.position, h.rowOf, h.rowStart]

/-- The next line starts behind an offset in a row. -/
theorem InRow.lt_next {next : Nat} (h : source.InRow i row start)
    (hn : source.lineStarts[row + 1]? = some next) : i < next := by
  obtain ⟨hlt, rfl⟩ := List.getElem?_eq_some_iff.1 hn
  refine Nat.lt_of_not_le fun hle => ?_
  have hcount := (getElem_le_iff source.lineStarts_ascending i hlt).1 hle
  rw [← h.count] at hcount
  exact Nat.lt_irrefl _ hcount

/-- Later offsets lie in later rows, or in the same one. -/
theorem InRow.mono (h : source.InRow i row start) (h' : source.InRow j row' start') (hij : i ≤ j) :
    row ≤ row' := by
  have hle : source.lineStarts.countP (· ≤ i) ≤ source.lineStarts.countP (· ≤ j) :=
    List.countP_mono_left fun _ _ hk => by
      simp only [decide_eq_true_eq] at hk ⊢
      omega
  have hi := h.count
  have hj := h'.count
  omega

theorem count_slice_mono (text : Text) (c : Char) (start : Nat) (h : i ≤ j) :
    (text.slice start i).count c ≤ (text.slice start j).count c := by
  rw [text.slice_natCast, text.slice_natCast]
  exact (List.take_sublist_take_left (by omega)).count_le c

/-- Positions are in the order of the offsets. -/
theorem position_before (htab : 1 ≤ source.tabWidth) (hij : i < j) :
    (source.position i).Before (source.position j) := by
  obtain ⟨row, start, hi⟩ := source.exists_inRow i
  obtain ⟨row', start', hj⟩ := source.exists_inRow j
  rw [hi.position, hj.position, Position.Before]
  rcases Nat.lt_or_eq_of_le (hi.mono hj (Nat.le_of_lt hij)) with hlt | rfl
  · exact .inl (by dsimp only; omega)
  · obtain rfl : start = start' := Option.some.inj (hi.starts.symm.trans hj.starts)
    have hcount := count_slice_mono source.content '\t' start (Nat.le_of_lt hij)
    have hwide := Int.mul_le_mul_of_nonneg_left (Int.ofNat_le.2 hcount) (Int.sub_nonneg.2 htab)
    exact .inr ⟨rfl, by dsimp only; omega⟩

/-- The order of the positions is that of the offsets, so that no two offsets share a position. -/
theorem position_order (htab : 1 ≤ source.tabWidth) (i j : Nat) :
    (i < j ↔ (source.position i).Before (source.position j)) ∧
      (source.position i = source.position j ↔ i = j) := by
  have hbefore {i j : Nat} (h : i < j) := position_before htab h
  refine ⟨⟨hbefore, fun h => ?_⟩, fun h => ?_, congrArg fun i : Nat => source.position i⟩
  · rcases Nat.lt_trichotomy i j with hlt | rfl | hgt
    · exact hlt
    · exact absurd h (Position.not_before_self _)
    · exact absurd h (hbefore hgt).asymm
  · rcases Nat.lt_trichotomy i j with hlt | rfl | hgt
    · exact absurd (h ▸ hbefore hlt) (Position.not_before_self _)
    · rfl
    · exact absurd (h ▸ hbefore hgt) (Position.not_before_self _)

def tabbed : Source where
  content := "ab\r\n\t\tc".toList
  firstLine := 7
  tabWidth := 4

theorem tabbed_order : 1 ≤ tabbed.tabWidth ∧
    [2, 3, 4, 5, 6, 7].map tabbed.position = [⟨7, 3⟩, ⟨7, 4⟩, ⟨8, 1⟩, ⟨8, 5⟩, ⟨8, 9⟩, ⟨8, 10⟩] ∧
    (tabbed.position 3).Before (tabbed.position 4) ∧
    (tabbed.position 4).Before (tabbed.position 5) := by
  have htab : 1 ≤ tabbed.tabWidth := by decide
  exact ⟨htab, by decide, (position_order htab 3 4).1.1 (by decide),
    (position_order htab 4 5).1.1 (by decide)⟩

/-- An offset stands in one of the lines of the text, in a column of it. -/
theorem position_within (htab : 1 ≤ source.tabWidth) (i : Nat) :
    source.firstLine ≤ (source.position i).line ∧
      (source.position i).line < source.firstLine + source.lineStarts.length ∧
      1 ≤ (source.position i).column := by
  obtain ⟨row, start, hi⟩ := source.exists_inRow i
  have hrow := (List.getElem?_eq_some_iff.1 hi.starts).1
  have hle := hi.le
  have hwide := Int.mul_nonneg (Int.sub_nonneg.2 htab)
    (Int.natCast_nonneg ((source.content.slice start i).count '\t'))
  rw [hi.position]
  dsimp only
  omega

/-- There is a picture for every offset, below a headline that gives its position. -/
theorem complaint?_natCast (source : Source) (i : Nat) (stop : Int) (message : String) :
    ∃ picture, source.complaint? i stop message =
      some (source.headline i message ++ "\n" ++ picture) := by
  obtain ⟨row, start, hi⟩ := source.exists_inRow i
  have hrow := (List.getElem?_eq_some_iff.1 hi.starts).1
  have hline : ∃ words, source.line? (source.find i).1 = some words := by
    have hnumber : ((source.find i).1 - source.firstLine).toNat = row := by
      rw [find, hi.rowOf]
      dsimp only
      omega
    have hbounds : row + 1 < source.bounds.length := by
      rw [bounds, List.length_append, List.length_singleton]
      omega
    rw [line?, hnumber, List.getElem?_eq_getElem (Nat.lt_of_succ_lt hbounds),
      List.getElem?_eq_getElem hbounds]
    exact ⟨_, rfl⟩
  obtain ⟨words, hwords⟩ := hline
  refine ⟨underlined words (source.find i).2 (stop - i) " >>> ".toList "near here", ?_⟩
  rw [complaint?]
  dsimp only
  rw [hwords]
  rfl

end Source
end OrderedBnf
