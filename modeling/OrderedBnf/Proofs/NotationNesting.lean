import OrderedBnf.Proofs.LoadedRules

/-! How deep the brackets of a document may nest that the notation accepts: every pair of them takes
four nodes of its tree. -/
namespace OrderedBnf

def Place.depth : Place → Nat
  | .outside depth | .inside depth _ | .escaped depth _ => depth
  | .lost => 0

open Place

/-- A text that a reader leaves as deep in brackets as he was, and in which he is never more than a
number of brackets deeper. -/
structure Shallow (n depth : Nat) (text : Text) : Prop where
  closed : (outside depth).after text = outside depth
  low : ∀ u, u <+: text → ((outside depth).after u).depth ≤ depth + n

namespace Shallow
variable {n depth : Nat} {text rest : Text}

/-- Characters that leave a reader where he is. -/
theorem of_still (h : ∀ c ∈ text, (outside depth).step c = outside depth) :
    Shallow n depth text := by
  have hstill (u : Text) (hu : ∀ c ∈ u, (outside depth).step c = outside depth) :
      (outside depth).after u = outside depth := by
    induction u with
    | nil => rfl
    | cons c u ih =>
      rw [after_cons, hu c List.mem_cons_self]
      exact ih fun c hc => hu c (List.mem_cons_of_mem _ hc)
  refine ⟨hstill text h, fun u hu => ?_⟩
  rw [hstill u fun c hc => h c (hu.subset hc)]
  exact Nat.le_add_right depth n

theorem blanks (h : Blanks text) : Shallow n depth text :=
  of_still fun c hc => step_blank (h c hc)

theorem identifier (h : isIdentifier text) : Shallow n depth text :=
  of_still fun c hc =>
    step_other (not_sign_of_identifierChar (identifierChar_of_identifier h c hc))

theorem append (h : Shallow n depth text) (h' : Shallow n depth rest) :
    Shallow n depth (text ++ rest) where
  closed := by rw [after_append, h.closed, h'.closed]
  low u hu := by
    rcases List.prefix_or_prefix_of_prefix hu (List.prefix_append text rest) with hu' | ⟨w, rfl⟩
    · exact h.low u hu'
    · rw [after_append, h.closed]
      exact h'.low w ((List.prefix_append_right_inj text).1 hu)

/-- A text between two signs of which the second leads back to where the first came from. -/
theorem wrapped {opening closing : Char} {inner : Place}
    (ho : (outside depth).step opening = inner)
    (hc : (inner.after text).step closing = outside depth)
    (hlow : ∀ u, u <+: text → (inner.after u).depth ≤ depth + n) :
    Shallow n depth (opening :: (text ++ [closing])) where
  closed := by rw [after_cons, ho, after_append, after_cons, hc, after_nil]
  low u hu := by
    cases u with
    | nil => exact Nat.le_add_right depth n
    | cons c u =>
      obtain ⟨rfl, hrest⟩ := List.cons_prefix_cons.1 hu
      rw [after_cons, ho]
      rcases List.prefix_concat_iff.1 hrest with rfl | hrest
      · rw [after_append, after_cons, hc]
        exact Nat.le_add_right depth n
      · exact hlow u hrest

theorem depth_escaped {mark : Char} {body u : Text} (h : Escaped mark body) (hu : u <+: body) :
    ((inside depth mark).after u).depth = depth := by
  induction h generalizing u with
  | nil => rw [List.prefix_nil.1 hu, after_nil, Place.depth]
  | @plain c rest hm hs _ ih =>
    cases u with
    | nil => rfl
    | cons c' u =>
      obtain ⟨rfl, hrest⟩ := List.cons_prefix_cons.1 hu
      rw [after_cons, step, if_neg hs, if_neg hm]
      exact ih hrest
  | @escape c rest _ ih =>
    rcases u with _ | ⟨c', _ | ⟨c'', u⟩⟩
    · rfl
    · obtain ⟨rfl, -⟩ := List.cons_prefix_cons.1 hu
      rfl
    · obtain ⟨rfl, htail⟩ := List.cons_prefix_cons.1 hu
      obtain ⟨rfl, hrest⟩ := List.cons_prefix_cons.1 htail
      exact ih (u := u) hrest

theorem terminal {form : Leaf} (h : Terminal form text) : Shallow n depth text := by
  cases h with
  | @literal mark body hmark h =>
    have hslash : mark ≠ '\\' := by
      rintro rfl
      cases hmark
    refine wrapped (step_quote hmark) ?_ fun u hu => ?_
    · rw [after_escaped h, step, if_neg hslash, if_pos rfl]
    · rw [depth_escaped h hu]
      exact Nat.le_add_right depth n
  | reserved h => exact identifier (reserved_identifier h)
  | reference h => exact identifier h

end Shallow

/-- An expression with blanks between its words is as shallow as its brackets. -/
theorem Spread.shallow {spacing : Spacing} {n : Nat} {level : Level} {es : List Expression}
    {text : Text} (h : Spread Terminal spacing n level es text)
    (hs : spacing.Le ⟨Blanks, Blanks, Blanks, Blanks⟩) : ∀ depth, Shallow n depth text := by
  induction h with
  | leaf h => exact fun _ => .terminal h
  | @enclosed n _ _ _ _ _ _ _ henc hb _ ha ih =>
    intro depth
    have hinner := ((Shallow.blanks (hs.within hb)).append (ih (depth + 1))).append
      (Shallow.blanks (hs.within ha))
    have hclosed {closing : Char} (hc : (outside (depth + 1)).step closing = outside depth) :
        ((outside (depth + 1)).after (_ ++ _ ++ _)).step closing = outside depth :=
      (congrArg (step · closing) hinner.closed).trans hc
    have hdepth : depth + 1 + n = depth + (n + 1) := by omega
    cases henc <;> exact .wrapped rfl (hclosed rfl) (hdepth ▸ hinner.low)
  | alone _ ih => exact ih
  | several _ _ ih => exact ih
  | cons _ hb _ ih ih' =>
    intro depth
    refine ((ih depth).append ?_).append (ih' depth)
    cases hb with
    | apart h => exact .blanks (hs.apart h)
    | bar hb ha =>
      exact (Shallow.blanks (hs.beforeBar hb)).append
        (@Shallow.append _ _ ['|'] _ (.of_still (by simp [step_bar])) (.blanks (hs.afterBar ha)))

namespace MetaGrammar
variable {text : Text} {start n : Nat} {rule : ParseTree} {rules : List ParseTree}

theorem Bodied.shallow {body : Text} (h : Bodied Terminal Layout n body) : Shallow n 0 body := by
  cases h with
  | nothing => exact .blanks Blanks.nil
  | expression hlead hspread =>
    exact (Shallow.blanks hlead.blanks).append
      (hspread.shallow ⟨Layout.blanks, Layout.blanks, Layout.blanks, Layout.blanks⟩ 0)

/-- A rule is as shallow as its tree is low. -/
theorem Read.shallow (h : Read text none (.rule "Rule") start rule)
    (hn : Tree.height rule ≤ 4 * n) : Shallow n 0 (text.window rule.start rule.stop) := by
  obtain ⟨name, gap, body, hruled⟩ := h.ruled (regular_any text rule)
  have hname := isIdentifier_of_isName hruled.isName
  have hcolon : (outside 0).step ':' = outside 0 := rfl
  have hfeed : Shallow n 0 ['\n'] := .blanks (by simp [Blanks, isBlank])
  rw [hruled.covered]
  exact ((Shallow.identifier hname).append (.blanks hruled.spaces.layout.blanks)).append
    (@Shallow.append _ _ [':'] _ (.of_still (by simp [hcolon]))
      ((hruled.bodied hn).shallow.append hfeed))

theorem RulesFrom.shallow (h : RulesFrom text start rules)
    (hn : ∀ rule ∈ rules, Tree.height rule ≤ 4 * n) : Shallow n 0 (text.drop start) := by
  induction h with
  | done hend =>
    rw [List.drop_eq_nil_of_le hend]
    exact .blanks Blanks.nil
  | @next start next breaks rule rules hread hnext hbreaks _ ih =>
    have hrule := Read.shallow hread (hn rule List.mem_cons_self)
    rw [text.drop_window (Nat.le_trans hread.ahead (Nat.le_trans hread.le hnext)),
      text.window_append hread.ahead (Nat.le_trans hread.le hnext),
      text.window_append hread.le hnext, hbreaks]
    exact ((Shallow.blanks hread.gap.layout.blanks).append
      (hrule.append (.blanks (layout_replicate breaks).blanks))).append
      (ih fun rule hm => hn rule (List.mem_cons_of_mem _ hm))

end MetaGrammar
end OrderedBnf
