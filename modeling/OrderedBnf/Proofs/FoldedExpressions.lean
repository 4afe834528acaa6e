import OrderedBnf.Proofs.NotationExpressions
import OrderedBnf.Proofs.NotationNesting
import OrderedBnf.Proofs.Refolding

/-! Expressions over several lines. The notation goes on to a further line between two operands and
beside a bar, but not right within a bracket. -/
namespace OrderedBnf.MetaGrammar
open Place

/-- A text with no blanks but the notation's own, none of them before a line break, and with no line
break right within a bracket. -/
structure Even (text : Text) : Prop where
  layout : ∀ c ∈ text, isBlank c → c = ' ' ∨ c = '\t' ∨ c = '\n'
  ends : ∀ c, [c, '\n'] <:+: text → c ≠ ' ' ∧ c ≠ '\t' ∧ closingOf? c = none
  starts : ∀ gap c, '\n' :: (gap ++ [c]) <:+: text → Layout gap → isClosing c = false

variable {text gap : Text} {opening closing : Char} {level : Level} {es : List Expression}
  {n depth : Nat}

namespace Even

/-- A part of an even text is even. -/
theorem part {inner : Text} (h : Even text) (hp : inner <:+: text) : Even inner where
  layout c hc := h.layout c (hp.subset hc)
  ends c hc := h.ends c (hc.trans hp)
  starts gap c hc := h.starts gap c (hc.trans hp)

/-- Blanks are line breaks with spaces after them. -/
theorem fold (h : Even gap) (hb : Blanks gap) : Fold true gap := by
  induction gap with
  | nil => exact Spaces.nil.fold
  | cons c gap ih =>
    obtain ⟨hc, hgap⟩ := List.forall_mem_cons.1 hb
    obtain ⟨breaks, spaces, rfl, hspaces, -⟩ := ih (h.part (List.suffix_cons ..).isInfix) hgap
    by_cases hfeed : c = '\n'
    · subst hfeed
      exact ⟨breaks + 1, spaces, rfl, hspaces, nofun⟩
    · have hspace : c = ' ' ∨ c = '\t' := by simpa [hfeed] using h.layout c List.mem_cons_self hc
      cases breaks with
      | zero => exact Spaces.fold (List.forall_mem_cons.2 ⟨hspace, hspaces⟩)
      | succ breaks =>
        obtain ⟨hblank, htab, -⟩ := h.ends c ⟨[], List.replicate breaks '\n' ++ spaces, rfl⟩
        exact (hspace.elim hblank htab).elim

/-- No line ends behind an opening bracket. -/
theorem spaces_behind (h : Even (opening :: gap)) (hb : Blanks gap)
    (hopening : closingOf? opening = some closing) : Spaces gap := by
  obtain ⟨breaks, spaces, rfl, hspaces, -⟩ := (h.part (List.suffix_cons ..).isInfix).fold hb
  cases breaks with
  | zero => exact hspaces
  | succ breaks =>
    obtain ⟨-, -, hnone⟩ := h.ends opening ⟨[], List.replicate breaks '\n' ++ spaces, rfl⟩
    cases hopening.symm.trans hnone

/-- No line starts with a closing bracket. -/
theorem spaces_before (h : Even (gap ++ [closing])) (hb : Blanks gap)
    (hclosing : isClosing closing) : Spaces gap := by
  obtain ⟨breaks, spaces, rfl, hspaces, -⟩ := (h.part (List.prefix_append ..).isInfix).fold hb
  cases breaks with
  | zero => exact hspaces
  | succ breaks =>
    have hlayout : Layout (List.replicate breaks '\n' ++ spaces) :=
      List.forall_mem_append.2 ⟨layout_replicate breaks, hspaces.layout⟩
    have hnone := h.starts _ closing (List.infix_refl _) hlayout
    cases hclosing.symm.trans hnone

/-- A blank line is empty. -/
theorem breaks (h : Even (gap ++ ['\n'])) (hb : Blanks gap) :
    ∃ n, gap = List.replicate n '\n' := by
  obtain ⟨n, spaces, rfl, hspaces, -⟩ := (h.part (List.prefix_append ..).isInfix).fold hb
  rcases List.eq_nil_or_concat' spaces with rfl | ⟨spaces, c, rfl⟩
  · exact ⟨n, List.append_nil _⟩
  · obtain ⟨hblank, htab, -⟩ := h.ends c ⟨List.replicate n '\n' ++ spaces, [], by simp⟩
    exact ((hspaces c (by simp)).elim hblank htab).elim

end Even

/-- In lines with no break right within a bracket an expression is one of the notation's, and no word
of it is in more brackets than a reader can be. -/
theorem Even.spread (heven : Even text) (h : Laid Word level es text)
    (hlow : ∀ u, u <+: text → ((outside depth).after u).depth ≤ depth + n) :
    Spread Word (spaced true) n level es text := by
  induction h generalizing n depth with
  | leaf h => exact .leaf h
  | @enclosed opening closing e e' before text after henc hb _ ha ih =>
    obtain ⟨hopening, hclosing⟩ := henc.brackets
    have hstep : (outside depth).step opening = outside (depth + 1) := by cases henc <;> rfl
    have hbefore : Spaces before :=
      (heven.part ⟨[], text ++ after ++ [closing], by simp⟩).spaces_behind hb hopening
    have hafter : Spaces after :=
      (heven.part ⟨opening :: (before ++ text), [], by simp⟩).spaces_before ha hclosing
    have hinner (u : Text) (hu : u <+: text) :
        ((outside (depth + 1)).after u).depth ≤ depth + n := by
      obtain ⟨rest, rfl⟩ := hu
      have hlow := hlow (opening :: (before ++ u)) ⟨rest ++ after ++ [closing], by simp⟩
      rwa [after_cons, hstep, after_append, after_blanks hb] at hlow
    cases n with
    | zero => exact absurd (hinner [] List.nil_prefix) (Nat.not_succ_le_self depth)
    | succ n =>
      refine .enclosed henc hbefore ?_ hafter
      refine @ih n (depth + 1) (heven.part ⟨opening :: before, after ++ [closing], by simp⟩) ?_
      exact fun u hu => Nat.le_trans (hinner u hu) (by omega)
  | alone _ ih => exact .alone (ih heven hlow)
  | several hlength _ ih => exact .several hlength (ih heven hlow)
  | @cons operator e es text between rest _ hbetween _ ih ih' =>
    have hfirst : Spread Word (spaced true) n _ [e] text :=
      ih (heven.part ⟨[], between ++ rest, by simp⟩) fun u hu =>
        hlow u (hu.trans ⟨between ++ rest, by simp⟩)
    have hclosed : (outside depth).after (text ++ between) = outside depth := by
      rw [after_append, (mute_of_spread hfirst depth).closed, hbetween.after]
    have hrest : Spread Word (spaced true) n _ es rest :=
      ih' (heven.part ⟨text ++ between, [], by simp⟩) fun u hu => by
        have hlow := hlow (text ++ between ++ u) ((List.prefix_append_right_inj _).2 hu)
        rwa [after_append, hclosed] at hlow
    have hgap : Even between := heven.part ⟨text, rest, rfl⟩
    refine .cons hfirst ?_ hrest
    cases hbetween with
    | blanks hne hb => exact .apart ⟨hne, hgap.fold hb⟩
    | @bar before after hb ha =>
      exact .bar ((hgap.part (List.prefix_append ..).isInfix).fold hb)
        ((hgap.part ⟨before ++ ['|'], [], by simp⟩).fold ha)

/-- An even text in which a reader is never in more than a number of brackets. -/
structure Readable (n : Nat) (text : Text) : Prop where
  even : Even text
  low : ∀ u, u <+: text → ((outside 0).after u).depth ≤ n

namespace Readable
variable {u v : Text}

theorem left (h : Readable n (u ++ v)) : Readable n u where
  even := h.even.part (List.prefix_append u v).isInfix
  low w hw := h.low w (hw.trans (List.prefix_append u v))

theorem right (h : Readable n (u ++ v)) (hu : (outside 0).after u = outside 0) : Readable n v where
  even := h.even.part (List.suffix_append u v).isInfix
  low w hw := by
    have hlow := h.low (u ++ w) ((List.prefix_append_right_inj u).2 hw)
    rwa [after_append, hu] at hlow

/-- In a readable text a layout is one that the notation can read. -/
theorem spread (h : Readable n text) {e : Expression} (hlaid : Laid Word .choice [e] text) :
    Spread Word (spaced true) n .choice [e] text :=
  @Even.spread _ _ _ n 0 h.even hlaid fun u hu => (Nat.zero_add n).symm ▸ h.low u hu

end Readable

end OrderedBnf.MetaGrammar
