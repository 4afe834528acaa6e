import OrderedBnf.Proofs.Insertions

/-! Where the brackets of each statement stand: around the letters of the statement, and directly
at its first and last characters. -/
namespace OrderedBnf.StatementTrace

variable {text : Text} {cursor stop : Nat} {t tree : ParseTree}
  {branches : List (Option ParseTree)}

mutual
/-- The subtrees of a fronted tree lie within it, and are fronted themselves. -/
theorem Fronted.within : ∀ {tree : ParseTree}, Fronted tree → ∀ t : ParseTree, t ∈ Tree.subtrees tree →
    tree.start ≤ t.start ∧ t.stop ≤ tree.stop ∧ Fronted t
  | .node m branches, h, t, ht => by
    rw [Tree.subtrees, List.mem_cons] at ht
    rcases ht with rfl | ht
    · exact ⟨Nat.le_refl _, Nat.le_refl _, h⟩
    · exact FrontedAll.within h.2 t ht

theorem FrontedAll.within : ∀ {cursor stop : Nat} {branches : List (Option ParseTree)},
    FrontedAll cursor stop branches → ∀ t : ParseTree, t ∈ Tree.subtreesOfAll branches →
      cursor ≤ t.start ∧ t.stop ≤ stop ∧ Fronted t
  | _, _, [], _, _, ht => absurd ht List.not_mem_nil
  | cursor, stop, none :: rest, h, t, ht => @FrontedAll.within cursor stop rest h t ht
  | _, _, some tree :: rest, ⟨⟨hc, hle⟩, htree, hrest⟩, t, ht => by
    have hstop := hrest.le
    rcases List.mem_append.1 ht with ht | ht
    · obtain ⟨hstart, hend, hf⟩ := htree.within t ht
      exact ⟨by omega, by omega, hf⟩
    · obtain ⟨hstart, hend, hf⟩ := hrest.within t ht
      exact ⟨by omega, hend, hf⟩
end

/-- The statements of a fronted tree lie within it, and none of them is empty. -/
theorem Fronted.statement (h : Fronted tree) (ht : t ∈ statements tree) :
    Fronted t ∧ tree.start ≤ t.start ∧ t.start < t.stop ∧ t.stop ≤ tree.stop := by
  obtain ⟨hsub, his⟩ := List.mem_filter.1 ht
  obtain ⟨hstart, hstop, hf⟩ := h.within t hsub
  rw [isStatement_eq, Option.isSome_iff_exists] at his
  obtain ⟨start, hs⟩ := his
  obtain ⟨m, branches⟩ := t
  exact ⟨hf, hstart, (hf.1 start hs).2.1, hstop⟩

theorem FrontedAll.statement (h : FrontedAll cursor stop branches)
    (ht : t ∈ statementsOfAll branches) : cursor ≤ t.start ∧ t.start < t.stop ∧ t.stop ≤ stop := by
  obtain ⟨hsub, his⟩ := List.mem_filter.1 ht
  obtain ⟨hstart, hstop, hf⟩ := h.within t hsub
  have hself : t ∈ statements t := List.mem_filter.2 ⟨Tree.self_mem_subtrees t, his⟩
  exact ⟨hstart, (hf.statement hself).2.2.1, hstop⟩

mutual
/-- Statements begin one after another, in walking order. -/
theorem Fronted.ascending : ∀ {tree : ParseTree}, Fronted tree →
    (statements tree).Pairwise fun s s' => s.start < s'.start
  | .node m branches, h => by
    cases hs : announced? (.node m branches) with
    | none => exact statements_plain hs ▸ FrontedAll.ascending h.2
    | some start =>
      rw [statements_announced hs]
      exact .cons (h.1 start hs).2.2 (FrontedAll.ascending h.2)

/-- Statements stand in the order of their starts, and no two start together. -/
theorem FrontedAll.ascending : ∀ {cursor stop : Nat} {branches : List (Option ParseTree)},
    FrontedAll cursor stop branches →
      (statementsOfAll branches).Pairwise fun s s' => s.start < s'.start
  | _, _, [], _ => .nil
  | cursor, stop, none :: rest, h => @FrontedAll.ascending cursor stop rest h
  | _, _, some tree :: rest, ⟨_, htree, hrest⟩ => by
    rw [statementsOfAll_some, List.pairwise_append]
    refine ⟨htree.ascending, hrest.ascending, fun s hs s' hs' => ?_⟩
    have hleft := htree.statement hs
    have hright := hrest.statement hs'
    omega
end

theorem window_ne_nil (h : cursor < stop) (hs : stop ≤ text.length) :
    text.window cursor stop ≠ [] := by
  rw [Text.window, ← List.length_pos_iff, List.length_take, List.length_drop]
  omega

mutual
/-- Unless a statement begins there, a character comes first. -/
theorem Fronted.begins (count : Nat) : ∀ {tree : ParseTree}, Fronted tree →
    tree.start < tree.stop → tree.stop ≤ text.length →
    (∀ s ∈ statements tree, tree.start < s.start) →
      ∃ c rest, letters text count tree = .char c :: rest
  | .node m branches, h, hlt, hs, hfirst => by
    cases ha : announced? (.node m branches) with
    | none =>
      rw [statements_plain ha] at hfirst
      exact letters_plain ha ▸ FrontedAll.begins count h.2 hlt hs hfirst
    | some start =>
      rw [statements_announced ha] at hfirst
      exact absurd (hfirst _ List.mem_cons_self) (Nat.lt_irrefl _)

theorem FrontedAll.begins (count : Nat) : ∀ {cursor stop : Nat}
    {branches : List (Option ParseTree)}, FrontedAll cursor stop branches → cursor < stop →
    stop ≤ text.length → (∀ s ∈ statementsOfAll branches, cursor < s.start) →
      ∃ c rest, lettersOfAll text count cursor stop branches = .char c :: rest
  | cursor, stop, [], _, hlt, hs, _ => by
    obtain ⟨c, rest, hw⟩ := List.exists_cons_of_ne_nil (window_ne_nil hlt hs)
    exact ⟨c, rest.map .char, by rw [lettersOfAll, hw, List.map_cons]⟩
  | cursor, stop, none :: rest, h, hlt, hs, hfirst =>
    @FrontedAll.begins count cursor stop rest h hlt hs hfirst
  | cursor, stop, some tree :: rest, ⟨⟨hc, hle⟩, htree, hrest⟩, hlt, hs, hfirst => by
    have hstop := hrest.le
    rw [statementsOfAll_some, List.forall_mem_append] at hfirst
    rw [lettersOfAll]
    rcases Nat.lt_or_eq_of_le hc with hgap | rfl
    · obtain ⟨c, rest, hw⟩ :=
        List.exists_cons_of_ne_nil (window_ne_nil hgap (by omega : tree.start ≤ text.length))
      rw [hw]
      exact ⟨c, _, rfl⟩
    · rw [Text.window_self, List.map_nil, List.nil_append]
      rcases Nat.lt_or_eq_of_le hle with hsolid | hempty
      · obtain ⟨c, rest, hw⟩ := htree.begins count hsolid (by omega) hfirst.1
        rw [hw]
        exact ⟨c, _, rfl⟩
      · rw [letters_empty count htree hempty, List.nil_append]
        rw [hempty] at hlt hfirst
        exact hrest.begins _ hlt hs hfirst.2
end

mutual
theorem Fronted.ends (count : Nat) : ∀ {tree : ParseTree}, Fronted tree →
    tree.start < tree.stop → tree.stop ≤ text.length → Letter.Ends (letters text count tree)
  | .node m branches, h, hlt, hs => by
    cases ha : announced? (.node m branches) with
    | none => exact letters_plain ha ▸ FrontedAll.ends count h.2 hlt hs
    | some start =>
      rw [letters_announced ha]
      exact ((FrontedAll.ends (count + 1) h.2 hlt hs).close _).prepend [_]

theorem FrontedAll.ends (count : Nat) : ∀ {cursor stop : Nat}
    {branches : List (Option ParseTree)}, FrontedAll cursor stop branches → cursor < stop →
    stop ≤ text.length → Letter.Ends (lettersOfAll text count cursor stop branches)
  | cursor, stop, [], _, hlt, hs => Letter.ends_chars (window_ne_nil hlt hs)
  | cursor, stop, none :: rest, h, hlt, hs => @FrontedAll.ends count cursor stop rest h hlt hs
  | cursor, stop, some tree :: rest, ⟨⟨hc, hle⟩, htree, hrest⟩, hlt, hs => by
    rw [lettersOfAll]
    rcases Nat.lt_or_eq_of_le hrest.le with hmore | rfl
    · exact ((hrest.ends _ hmore hs).prepend _).prepend _
    · rw [lettersOfAll_empty _ hrest rfl, List.append_nil]
      rcases Nat.lt_or_eq_of_le hle with hsolid | hempty
      · exact (htree.ends count hsolid hs).prepend _
      · rw [letters_empty count htree hempty, List.append_nil, hempty]
        exact Letter.ends_chars (window_ne_nil hlt hs)
end

mutual
/-- The letters of a tree have those of each subtree in their place, numbered by the statements
before it. -/
theorem Fronted.split (count : Nat) : ∀ {tree : ParseTree}, Fronted tree →
    ∀ t : ParseTree, t ∈ Tree.subtrees tree → ∃ earlier later before after,
      statements tree = earlier ++ (statements t ++ later) ∧
      letters text count tree = before ++ (letters text (count + earlier.length) t ++ after) ∧
      before.filterMap Letter.char? = text.window tree.start t.start
  | .node m branches, h, t, ht => by
    rw [Tree.subtrees, List.mem_cons] at ht
    rcases ht with rfl | ht
    · refine ⟨[], [], [], [], by simp, by simp, ?_⟩
      rw [Text.window, Nat.sub_self]
      rfl
    obtain ⟨earlier, later, before, after, hstatements, hletters, hchars⟩ :=
      FrontedAll.split (if (announced? (.node m branches)).isSome then count + 1 else count) h.2 t ht
    cases ha : announced? (.node m branches) with
    | none =>
      rw [ha] at hletters
      exact ⟨earlier, later, before, after, (statements_plain ha).trans hstatements,
        (letters_plain ha).trans hletters, hchars⟩
    | some start =>
      rw [ha, if_pos (Option.isSome_some), Nat.add_assoc, Nat.add_comm 1] at hletters
      refine ⟨.node m branches :: earlier, later, .opens (count + 1) :: before,
        after ++ [.closes (count + 1)], ?_, ?_, ?_⟩
      · rw [statements_announced ha, hstatements, List.cons_append]
      · rw [letters_announced ha, hletters, List.length_cons]
        simp only [List.append_assoc, List.cons_append]
      · rw [List.filterMap_cons_none rfl, hchars]
        rfl

/-- The letters of branches are those of a subtree, with some before it and some behind it. -/
theorem FrontedAll.split (count : Nat) : ∀ {cursor stop : Nat}
    {branches : List (Option ParseTree)}, FrontedAll cursor stop branches →
    ∀ t : ParseTree, t ∈ Tree.subtreesOfAll branches → ∃ earlier later before after,
      statementsOfAll branches = earlier ++ (statements t ++ later) ∧
      lettersOfAll text count cursor stop branches =
        before ++ (letters text (count + earlier.length) t ++ after) ∧
      before.filterMap Letter.char? = text.window cursor t.start
  | _, _, [], _, _, ht => absurd ht List.not_mem_nil
  | cursor, stop, none :: rest, h, t, ht => @FrontedAll.split count cursor stop rest h t ht
  | cursor, stop, some tree :: rest, ⟨⟨hc, hle⟩, htree, hrest⟩, t, ht => by
    rw [lettersOfAll, statementsOfAll_some]
    rcases List.mem_append.1 ht with ht | ht
    · obtain ⟨earlier, later, before, after, hstatements, hletters, hchars⟩ :=
        htree.split count t ht
      refine ⟨earlier, later ++ statementsOfAll rest, (text.window cursor tree.start).map .char ++
        before, after ++ lettersOfAll text (count + (statements tree).length) tree.stop stop rest,
        ?_, ?_, ?_⟩
      · rw [hstatements]
        simp only [List.append_assoc]
      · rw [hletters]
        simp only [List.append_assoc]
      · rw [List.filterMap_append, Letter.filterMap_char, hchars,
          ← text.window_append hc (htree.within t ht).1]
    · obtain ⟨earlier, later, before, after, hstatements, hletters, hchars⟩ :=
        hrest.split (count + (statements tree).length) t ht
      have hstart := (hrest.within t ht).1
      refine ⟨statements tree ++ earlier, later, (text.window cursor tree.start).map .char ++
        (letters text count tree ++ before), after, ?_, ?_, ?_⟩
      · rw [hstatements, List.append_assoc]
      · rw [hletters, List.length_append, Nat.add_assoc]
        simp only [List.append_assoc]
      · rw [List.filterMap_append, List.filterMap_append, Letter.filterMap_char,
          chars_letters count htree, hchars, ← text.window_append hle hstart,
          ← text.window_append hc (Nat.le_trans hle hstart)]
end

end OrderedBnf.StatementTrace
