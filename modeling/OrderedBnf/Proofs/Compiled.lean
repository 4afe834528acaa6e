import OrderedBnf.Proofs.Layout

/-! What compiles: a stretch is cut in two, or stands in brackets, or is a leaf. -/
namespace OrderedBnf

namespace Text
variable {p : Char → Bool}

theorem trimRight_append_rest (p : Char → Bool) (text : Text) :
    ∃ after, (∀ c ∈ after, p c) ∧ text = trimRight p text ++ after := by
  fun_induction trimRight p text with
  | case1 => exact ⟨[], fun _ h => absurd h List.not_mem_nil, rfl⟩
  | case2 c rest hr hp ih =>
    obtain ⟨after, ha, he⟩ := ih
    rw [hr] at he
    exact ⟨c :: rest, List.forall_mem_cons.2 ⟨hp, he ▸ ha⟩, rfl⟩
  | case3 c rest hr hp ih =>
    obtain ⟨after, ha, he⟩ := ih
    rw [hr] at he
    exact ⟨after, ha, congrArg (c :: ·) he⟩
  | case4 c rest _ ih =>
    obtain ⟨after, ha, he⟩ := ih
    exact ⟨after, ha, congrArg (c :: ·) he⟩

theorem trimRight_last {text rest : Text} {c : Char} (h : trimRight p text = rest ++ [c]) :
    p c = false := by
  fun_induction trimRight p text generalizing rest with
  | case1 => exact absurd h.symm (List.append_ne_nil_of_right_ne_nil _ (List.cons_ne_nil _ _))
  | case2 => exact absurd h.symm (List.append_ne_nil_of_right_ne_nil _ (List.cons_ne_nil _ _))
  | case3 d _ _ hp _ =>
    obtain ⟨-, he⟩ := List.append_inj' (show [] ++ [d] = rest ++ [c] from h) rfl
    cases he
    simpa using hp
  | case4 d tail hne ih =>
    cases rest with
    | nil => exact absurd (List.cons.inj h).2 hne
    | cons d' rest => exact ih (List.cons.inj h).2

theorem trim_last {text rest : Text} {c : Char} (h : trim p text = rest ++ [c]) : p c = false :=
  trimRight_last h

/-- A trimmed text and the characters that it was trimmed of. -/
theorem trim_parts (p : Char → Bool) (text : Text) : ∃ after, (∀ c ∈ after, p c) ∧
    text = text.takeWhile p ++ trim p text ++ after := by
  obtain ⟨after, ha, he⟩ := trimRight_append_rest p (trimLeft p text)
  refine ⟨after, ha, ?_⟩
  rw [List.append_assoc, trim, ← he, trimLeft, List.takeWhile_append_dropWhile]

theorem trim_head {text rest : Text} {c : Char} (h : trim p text = c :: rest) : p c = false := by
  obtain ⟨after, -, he⟩ := trimRight_append_rest p (trimLeft p text)
  have hd : text.dropWhile p = c :: (rest ++ after) := by
    rw [← trimLeft, he, ← trim, h, List.cons_append]
  have := List.head?_dropWhile_not p text
  rw [hd] at this
  simpa using this

end Text

namespace Stretch

def Within (text : Text) (s : Stretch) : Prop :=
  ∃ pre post, text = pre ++ s.chars ++ post ∧ pre.length = s.start

variable {text : Text} {s : Stretch}

/-- A stretch within the text has the characters that stand there. -/
theorem Within.window (h : s.Within text) : text.window s.start s.stop = s.chars := by
  obtain ⟨pre, post, rfl, hs⟩ := h
  rw [stop, ← hs, Text.window, Nat.add_sub_cancel_left, List.append_assoc, List.drop_left,
    List.take_left]

/-- A part of a stretch lies within the text where the stretch does. -/
theorem Within.part (h : s.Within text) (pre : Text) {chars : Text} (post : Text)
    (hs : s.chars = pre ++ chars ++ post) :
    (Stretch.mk (s.start + pre.length) chars).Within text := by
  obtain ⟨pre', post', rfl, hl⟩ := h
  refine ⟨pre' ++ pre, post ++ post', ?_, ?_⟩
  · simp [hs]
  · rw [List.length_append, hl]

/-- Trimming keeps a stretch within the text. -/
theorem Within.trim (h : s.Within text) : s.trim.Within text := by
  obtain ⟨after, -, he⟩ := s.chars.trim_parts isBlank
  exact h.part _ _ he

theorem Within.before (h : s.Within text) (cut : Cut) : (s.before cut).Within text :=
  h.part [] (s.chars.drop cut.offset) (List.take_append_drop _ _).symm

theorem Within.after (h : s.Within text) {cut : Cut} (hc : cut.offset < s.chars.length) :
    (s.after cut).Within text := by
  have hw := h.part (s.chars.take (cut.offset + 1)) []
    (by rw [List.append_nil, List.take_append_drop])
  rw [List.length_take_of_le hc] at hw
  exact hw

theorem Within.inner (h : s.Within text) {opening closing : Char} {inner : Text}
    (hs : s.chars = opening :: (inner ++ [closing])) : s.inner.Within text := by
  have hw := h.part [opening] [closing] hs
  rwa [Stretch.inner, hs, List.tail_cons, List.dropLast_concat]

end Stretch

/-- The words that are leaves when of a literal only the first and last character are looked at. -/
inductive Opaque : Leaf → Text → Prop
  | literal {mark body} : isQuote mark → Opaque .literal (mark :: (body ++ [mark]))
  | reserved {form word} : Rule.reserved? word = some form → Opaque form word
  | reference {word} : isIdentifier word → Rule.reserved? word = none → Opaque .reference word

theorem Cut.kind_isChain (cut : Cut) : cut.kind = .sequence ∨ cut.kind = .choice := by
  cases cut with
  | choice => exact .inr rfl
  | sequence => exact .inl rfl

namespace Rule

/-- What the right side of a cut gives to a chain: its own branches, if it is of the same kind. -/
def operands (kind : Kind) (right : Rule) : List Rule :=
  if right.kind = kind then right.branches else [right]

section Joining
variable (text : Text) (cut : Cut) (left right : Rule)

theorem join_kind : (join text cut left right).kind = cut.kind := by
  cases cut <;> cases right <;> rfl

/-- A chain has its left operand in front of the operands of its right side. -/
theorem join_branches :
    (join text cut left right).branches = left :: right.operands cut.kind := by
  cases cut <;> cases right with
  | leaf form => cases form <;> rfl
  | _ => rfl

/-- A chain comes from the range that begins with its left operand and ends with the farthest one.
-/
theorem join_origin : (join text cut left right).origin =
    ⟨left.start, ((left :: right.operands cut.kind).map stop).foldl max 0, false, none, text⟩ := by
  cases cut <;> cases right with
  | leaf form => cases form <;> rfl
  | _ => rfl

end Joining

inductive Compiled (text : Text) : Stretch → Rule → Prop
  | leaf {s form} : s.cut? = .ok none → Opaque form s.chars →
      Compiled text s (.leaf form ⟨s.start, s.stop, false, none, text⟩)
  | bracket {s opening closing inner body} : s.cut? = .ok none →
      s.chars = opening :: (inner ++ [closing]) → closingOf? opening = some closing →
      s.inner.trim.chars ≠ [] → Compiled text s.inner.trim body →
      Compiled text s (Rule.bracket text s opening body)
  | cut {s cut left right} : s.cut? = .ok (some cut) → Compiled text (s.before cut).trim left →
      Compiled text (s.after cut).trim right → Compiled text s (join text cut left right)

private theorem exists_ends {chars : Text} (h : 2 ≤ chars.length) (hne : chars ≠ []) :
    ∃ inner, chars = chars.head hne :: (inner ++ [chars.getLast hne]) := by
  have ht : chars.tail ≠ [] := by
    rw [ne_eq, ← List.length_eq_zero_iff, List.length_tail]
    omega
  refine ⟨chars.tail.dropLast, ?_⟩
  rw [← List.getLast_tail ht, List.dropLast_concat_getLast, List.cons_head_tail]

/-- A stretch with something left inside it has a first and a last character around that. -/
theorem exists_enclosed {s : Stretch} (hne : s.chars ≠ []) (h : s.inner.trim.chars ≠ []) :
    ∃ inner, s.chars = s.chars.head hne :: (inner ++ [s.chars.getLast hne]) := by
  refine exists_ends (Nat.lt_of_not_le fun hl => h ?_) hne
  obtain ⟨c, hc⟩ := List.length_eq_one_iff.1 (Nat.le_antisymm hl (List.length_pos_iff.2 hne))
  rw [Stretch.inner, hc]
  rfl

private theorem compileLeaf_ok {text : Text} {s : Stretch} {rule : Rule} (hne : s.chars ≠ [])
    (hc : s.cut? = .ok none)
    (h : compileLeaf text s (s.chars.head hne) (s.chars.getLast hne) = .ok rule) :
    Compiled text s rule := by
  rw [compileLeaf] at h
  split at h
  · rename_i hq
    split at h
    · cases h
    · rename_i hl
      simp only [Bool.or_eq_true, decide_eq_true_eq, not_or, Nat.not_lt, ne_eq,
        Decidable.not_not] at hl
      obtain ⟨body, hbody⟩ := exists_ends hl.1 hne
      cases h
      refine .leaf hc ?_
      rw [hbody, hl.2]
      exact .literal hq
  · split at h
    · cases h
      exact .leaf hc (.reserved ‹_›)
    · split at h
      · cases h
        exact .leaf hc (.reference ‹_› ‹_›)
      · cases h

/-- What compiling a stretch returns is the node that the stretch stands for. -/
theorem Compiled.of_compileStretch {text : Text} {s : Stretch} {rule : Rule}
    (h : compileStretch text s = .ok rule) : Compiled text s rule := by
  fun_induction compileStretch text s generalizing rule with
  | case1 => cases h
  | case2 s cut hc ihl ihr =>
    cases hl : compileStretch text (s.before cut).trim with
    | error => simp [hl, bind, Except.bind] at h
    | ok left =>
      cases hr : compileStretch text (s.after cut).trim with
      | error => simp [hl, hr, bind, Except.bind] at h
      | ok right =>
        simp only [hl, hr, bind, Except.bind] at h
        cases h
        exact .cut hc (ihl hl) (ihr hr)
  | case3 => cases h
  | case4 s hc hne => exact compileLeaf_ok hne hc h
  | case5 => cases h
  | case6 => cases h
  | case7 s hc hne _ _ closing ho hlast hinner =>
    rename_i ih
    cases hb : compileStretch text s.inner.trim with
    | error => simp [hb, bind, Except.bind] at h
    | ok body =>
      simp only [hb, bind, Except.bind] at h
      cases h
      replace ho : closingOf? (s.chars.head hne) = some closing := ho
      replace hlast : s.chars.getLast hne = closing := Decidable.not_not.1 hlast
      obtain ⟨inner, hchars⟩ := exists_enclosed hne hinner
      rw [hlast] at hchars
      exact .bracket hc hchars ho hinner (ih hb)

/-- A text that compiles is not blank, and its rule is the node of its trimmed stretch. -/
theorem compile_ok {text : Text} {rule : Rule} (h : compile text = .ok rule) :
    (Stretch.mk 0 text).trim.chars ≠ [] ∧ Compiled text (Stretch.mk 0 text).trim rule := by
  rw [compile] at h
  split at h
  · cases h
  · exact ⟨‹_›, .of_compileStretch h⟩

end Rule
end OrderedBnf
