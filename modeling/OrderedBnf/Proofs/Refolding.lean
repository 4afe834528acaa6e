import OrderedBnf.Proofs.DocumentLines

/-! Blanks with a line break among them may be folded in another way and a text still says the same:
that is what the lines of a rule go through when a block is put together. -/
namespace OrderedBnf

/-- Some runs of blanks with a line break in them have become other such runs. -/
inductive Refolds : Text → Text → Prop
  | nil : Refolds [] []
  | keep {c s t} : Refolds s t → Refolds (c :: s) (c :: t)
  | fold {gap gap' s t} : Blanks gap → '\n' ∈ gap → Blanks gap' → '\n' ∈ gap' → Refolds s t →
      Refolds (gap ++ s) (gap' ++ t)

namespace Refolds
variable {s t s' t' word before after : Text} {c mark : Char}

theorem symm (h : Refolds s t) : Refolds t s := by
  induction h with
  | nil => exact .nil
  | keep _ ih => exact .keep ih
  | fold hb hf hb' hf' _ ih => exact .fold hb' hf' hb hf ih

/-- Refolded texts may follow one another. -/
theorem append (h : Refolds s t) (h' : Refolds s' t') : Refolds (s ++ s') (t ++ t') := by
  induction h with
  | nil => exact h'
  | keep _ ih => exact .keep ih
  | fold hb hf hb' hf' _ ih =>
    rw [List.append_assoc, List.append_assoc]
    exact .fold hb hf hb' hf' ih

theorem refl (s : Text) : Refolds s s := by
  induction s with
  | nil => exact .nil
  | cons c s ih => exact .keep ih

/-- A character that is no blank stays where it is between its neighbours. -/
theorem split (h : Refolds (s ++ c :: s') t) (hc : isBlank c = false) :
    ∃ u v, t = u ++ c :: v ∧ Refolds s u ∧ Refolds s' v := by
  generalize hw : s ++ c :: s' = w at h
  induction h generalizing s with
  | nil => simp at hw
  | @keep d w t h ih =>
    cases s with
    | nil =>
      obtain ⟨rfl, rfl⟩ := List.cons.inj hw
      exact ⟨[], t, rfl, .nil, h⟩
    | cons d' s =>
      obtain ⟨rfl, hrest⟩ := List.cons.inj hw
      obtain ⟨u, v, rfl, hu, hv⟩ := ih hrest
      exact ⟨d' :: u, v, rfl, .keep hu, hv⟩
  | @fold gap gap' w t hb hf hb' hf' _ ih =>
    rcases append_eq_append_cons hw.symm with ⟨x, rfl, -⟩ | ⟨x, rfl, hx⟩
    · have hblank := hb c (by simp)
      rw [hc] at hblank
      cases hblank
    · obtain ⟨u, v, rfl, hu, hv⟩ := ih hx.symm
      exact ⟨gap' ++ u, v, (List.append_assoc ..).symm, .fold hb hf hb' hf' hu, hv⟩

theorem blanks (h : Refolds s t) (hs : Blanks s) : Blanks t := by
  induction h with
  | nil => exact hs
  | keep _ ih =>
    obtain ⟨hc, hs⟩ := List.forall_mem_cons.1 hs
    exact List.forall_mem_cons.2 ⟨hc, ih hs⟩
  | fold _ _ hb' _ _ ih =>
    exact List.forall_mem_append.2 ⟨hb', ih (List.forall_mem_append.1 hs).2⟩

theorem eq_of_not_mem (h : Refolds s t) (hs : '\n' ∉ s) : t = s := by
  induction h with
  | nil => rfl
  | keep _ ih => rw [ih fun hm => hs (List.mem_cons_of_mem _ hm)]
  | fold _ hf => exact absurd (List.mem_append_left _ hf) hs

theorem eq_nil (h : Refolds [] t) : t = [] := h.eq_of_not_mem List.not_mem_nil

/-- A word stays apart from what stands around it. -/
theorem around (h : Refolds (before ++ word ++ after) t) (hword : Firm word) :
    ∃ u w v, t = u ++ w ++ v ∧ Refolds before u ∧ Refolds word w ∧ Refolds after v := by
  obtain ⟨⟨c, rest, hhead, hc, -⟩, rest', c', hlast, hc'⟩ := hword
  rw [hhead, List.append_assoc, List.cons_append] at h
  obtain ⟨u, x, rfl, hu, hx⟩ := h.split hc
  have hwhole : Refolds (rest' ++ c' :: after) (c :: x) := by
    rw [List.append_cons, ← hlast, hhead]
    exact hx.keep
  obtain ⟨w, v, hsplit, hw, hv⟩ := hwhole.split hc'
  refine ⟨u, w ++ [c'], v, by rw [hsplit]; simp, hu, ?_, hv⟩
  rw [hlast]
  exact hw.append (refl _)

theorem escaped_blanks {gap : Text} (hmark : isBlank mark = false) (hgap : Blanks gap) :
    Escaped mark (gap ++ s) ↔ Escaped mark s := by
  induction gap with
  | nil => rfl
  | cons c gap ih =>
    obtain ⟨hc, hgap⟩ := List.forall_mem_cons.1 hgap
    refine ⟨fun h => (ih hgap).1 ?_, fun h => .plain ?_ ?_ ((ih hgap).2 h)⟩
    · generalize hw : c :: gap ++ s = w at h
      cases h with
      | nil => cases hw
      | plain _ _ h =>
        obtain ⟨rfl, rfl⟩ := List.cons.inj hw
        exact h
      | escape =>
        obtain ⟨rfl, -⟩ := List.cons.inj hw
        cases hc
    · rintro rfl
      rw [hc] at hmark
      cases hmark
    · rintro rfl
      cases hc

theorem escaped_tail (h : Escaped mark ('\\' :: c :: s)) : Escaped mark s := by
  cases h with
  | plain _ hslash => exact absurd rfl hslash
  | escape h => exact h

/-- Also the line break behind a backslash may be folded in another way. -/
theorem escaped (h : Refolds s t) (hmark : isBlank mark = false) :
    (Escaped mark s → Escaped mark t) ∧ (Escaped mark ('\\' :: s) → Escaped mark ('\\' :: t)) := by
  induction h with
  | nil => exact ⟨id, id⟩
  | @keep c s t _ ih =>
    refine ⟨fun hs => ?_, fun hs => .escape (ih.1 (escaped_tail hs))⟩
    by_cases hc : c = '\\'
    · subst hc
      exact ih.2 hs
    · cases hs with
      | plain hm _ hs => exact .plain hm hc (ih.1 hs)
      | escape => exact absurd rfl hc
  | @fold gap gap' s t hb hf hb' hf' _ ih =>
    refine ⟨fun hs => (escaped_blanks hmark hb').2 (ih.1 ((escaped_blanks hmark hb).1 hs)),
      fun hs => ?_⟩
    obtain ⟨c, gap, rfl⟩ := List.exists_cons_of_ne_nil (List.ne_nil_of_mem hf)
    obtain ⟨c', gap', rfl⟩ := List.exists_cons_of_ne_nil (List.ne_nil_of_mem hf')
    exact .escape ((escaped_blanks hmark (List.forall_mem_cons.1 hb').2).2
      (ih.1 ((escaped_blanks hmark (List.forall_mem_cons.1 hb).2).1 (escaped_tail hs))))

end Refolds

section Expressions
variable {s t : Text} {terminal terminal' : Leaf → Text → Prop} {level : Level}
  {es : List Expression}

theorem not_blank_of_quote {mark : Char} (h : isQuote mark) : isBlank mark = false := by
  simp only [isQuote, Bool.or_eq_true, decide_eq_true_eq] at h
  rcases h with rfl | rfl <;> rfl

/-- A terminal that is refolded is a terminal. -/
theorem Terminal.refold {form : Leaf} (h : Terminal form s) (hs : Refolds s t) :
    Terminal form t := by
  have hword (hid : isIdentifier s) : t = s :=
    hs.eq_of_not_mem (not_mem_of_identifier hid (by decide))
  cases h with
  | @literal mark body hmark hbody =>
    have hblank := not_blank_of_quote hmark
    obtain ⟨u, v, rfl, hu, hv⟩ := hs.split (s := []) hblank
    obtain ⟨body', w, rfl, hbody', hw⟩ := hv.split hblank
    rw [hu.eq_nil, hw.eq_nil]
    exact .literal hmark ((hbody'.escaped hblank).1 hbody)
  | reserved h => exact hword (reserved_identifier h) ▸ .reserved h
  | reference h hreserved => exact hword h ▸ .reference h hreserved

theorem Operator.Between.refold {operator : Operator} (h : operator.Between s)
    (hs : Refolds s t) : operator.Between t := by
  cases h with
  | blanks hne hb =>
    refine .blanks ?_ (hs.blanks hb)
    rintro rfl
    exact hne hs.symm.eq_nil
  | bar hb ha =>
    obtain ⟨before, after, rfl, hbefore, hafter⟩ := hs.split (by decide)
    exact .bar (hbefore.blanks hb) (hafter.blanks ha)

theorem Encloses.other {opening closing : Char} {e e' : Expression}
    (h : Encloses opening closing e e') (e₂ : Expression) :
    ∃ e', Encloses opening closing e₂ e' := by
  cases h
  · exact ⟨_, .group⟩
  · exact ⟨_, .optional⟩
  · exact ⟨_, .repetition⟩

theorem Laid.imp (h : Laid terminal level es s)
    (ht : ∀ form word, terminal form word → terminal' form word) : Laid terminal' level es s := by
  induction h with
  | leaf h => exact .leaf (ht _ _ h)
  | enclosed henc hb _ ha ih => exact .enclosed henc hb ih ha
  | alone _ ih => exact .alone ih
  | several hl _ ih => exact .several hl ih
  | cons _ hb _ ih ih' => exact .cons ih hb ih'

/-- With other folds between its words an expression is still laid out as one. Only the words that a
fold stands in may differ. -/
theorem Laid.refold (h : Laid terminal level es s)
    (hle : ∀ form word, terminal form word → Terminal form word)
    (hword : ∀ {form word word'}, terminal form word → Refolds word word' → terminal form word') :
    ∀ {t}, Refolds s t → ∃ es', es'.length = es.length ∧ Laid terminal level es' t := by
  induction h with
  | @leaf form word h => exact fun {t} hs => ⟨[.leaf form t], rfl, .leaf (hword h hs)⟩
  | @enclosed opening closing e e' before text after henc hbefore hlaid hafter ih =>
    intro t hs
    have hopening : isBlank opening = false := by cases henc <;> rfl
    have hclosing : isBlank closing = false := by cases henc <;> rfl
    obtain ⟨u, v, rfl, hu, hv⟩ := hs.split (s := []) hopening
    obtain ⟨inner, w, rfl, hinner, hw⟩ := hv.split hclosing
    rw [hu.eq_nil, hw.eq_nil]
    obtain ⟨before', text', after', rfl, hbefore', htext', hafter'⟩ :=
      hinner.around (hlaid.imp hle).firm
    obtain ⟨es, hlength, hes⟩ := ih htext'
    obtain ⟨e₂, rfl⟩ := List.length_eq_one_iff.1 hlength
    obtain ⟨e₂', henc'⟩ := henc.other e₂
    exact ⟨[e₂'], rfl, .enclosed henc' (hbefore'.blanks hbefore) hes (hafter'.blanks hafter)⟩
  | alone _ ih =>
    intro t hs
    obtain ⟨es, hlength, hes⟩ := ih hs
    obtain ⟨e, rfl⟩ := List.length_eq_one_iff.1 hlength
    exact ⟨[e], rfl, .alone hes⟩
  | @several operator _ _ hlength _ ih =>
    intro t hs
    obtain ⟨es, hl, hes⟩ := ih hs
    exact ⟨[.several operator es], rfl, .several (hl ▸ hlength) hes⟩
  | @cons operator e es text between rest hfirst hbetween hrest ih ih' =>
    intro t hs
    rw [List.append_assoc] at hs
    obtain ⟨nothing, text', t, rfl, hnothing, htext, ht⟩ :=
      Refolds.around (show Refolds ([] ++ text ++ (between ++ rest)) t from hs) (hfirst.imp hle).firm
    rw [← List.append_nil rest, ← List.append_assoc] at ht
    obtain ⟨between', rest', after, rfl, hbetween', hrest', hafter⟩ :=
      ht.around (hrest.imp hle).firm
    rw [hnothing.eq_nil, hafter.eq_nil]
    obtain ⟨es₁, hl₁, hes₁⟩ := ih htext
    obtain ⟨e₁, rfl⟩ := List.length_eq_one_iff.1 hl₁
    obtain ⟨es₂, hl₂, hes₂⟩ := ih' hrest'
    refine ⟨e₁ :: es₂, congrArg Nat.succ hl₂, ?_⟩
    simpa using Laid.cons hes₁ (hbetween.refold hbetween') hes₂

end Expressions

section Trimming
variable {text before after : Text}

theorem Firm.trim_eq (h : Firm text) (hb : Blanks before) (ha : Blanks after) :
    (before ++ text ++ after).trim isBlank = text :=
  congrArg Stretch.chars (h.trim hb ha 0)

/-- With other folds the text of an expression still compiles. -/
theorem Rule.compile_refold {e : Expression} {t : Text} (hbefore : Blanks before)
    (hlaid : Laid Terminal .choice [e] text) (hafter : Blanks after)
    (ht : Refolds (before ++ text ++ after) t) :
    ∃ rule, Rule.compile (t.trim isBlank) = .ok rule := by
  obtain ⟨before', text', after', rfl, hbefore', htext', hafter'⟩ := ht.around hlaid.firm
  obtain ⟨es, hlength, hes⟩ := hlaid.refold (fun _ _ => id) Terminal.refold htext'
  obtain ⟨e', rfl⟩ := List.length_eq_one_iff.1 hlength
  obtain ⟨rule, hrule, -⟩ := compile_laid Blanks.nil hes Blanks.nil
  rw [List.nil_append, List.append_nil] at hrule
  rw [hes.firm.trim_eq (hbefore'.blanks hbefore) (hafter'.blanks hafter)]
  exact ⟨rule, hrule⟩

end Trimming

section Lines
variable {lines : List Text} {gap first : Text}

/-- What is left of lines that go on after a gap with a line break in it. -/
theorem refolds_lines (hclean : ∀ line ∈ lines, Clean line) (hgap : Blanks gap)
    (hfeed : '\n' ∈ gap) : Refolds (gap ++ Text.unlines lines)
      ('\n' :: Text.unlines (lines.filterMap significant?)) := by
  have hbreak : Blanks ['\n'] := by simp [Blanks, isBlank]
  induction lines generalizing gap with
  | nil => exact .fold hgap hfeed hbreak List.mem_cons_self .nil
  | cons line lines ih =>
    obtain ⟨hline, hlines⟩ := List.forall_mem_cons.1 hclean
    rw [Text.unlines_cons, List.append_cons line]
    cases hs : significant? line with
    | none =>
      rw [List.filterMap_cons_none hs, ← List.append_assoc]
      exact ih hlines (List.forall_mem_append.2 ⟨hgap, List.forall_mem_append.2
        ⟨hline.blank hs, hbreak⟩⟩) (List.mem_append_left _ hfeed)
    | some words =>
      obtain ⟨before, after, hb, ha, rfl⟩ := significant?_parts hs
      have hrest := @ih (after ++ ['\n']) hlines (List.forall_mem_append.2 ⟨ha, hbreak⟩) (by simp)
      have hwords := Refolds.fold (List.forall_mem_append.2 ⟨hgap, hb⟩)
        (List.mem_append_left before hfeed) hbreak List.mem_cons_self
        ((Refolds.refl words).append hrest)
      rw [List.filterMap_cons_some hs, Text.unlines_cons]
      simpa using hwords

/-- A block is put together from its lines with other folds. -/
theorem refolds_block (hclean : ∀ line ∈ lines, Clean line) :
    Refolds (Text.unlines (first :: lines))
      (Text.join ['\n'] (first.trimRight isBlank :: lines.filterMap significant?) ++ ['\n']) := by
  obtain ⟨after, ha, hfirst⟩ := first.trimRight_append_rest isBlank
  have hgap : Blanks (after ++ ['\n']) := List.forall_mem_append.2 ⟨ha, by simp [isBlank]⟩
  have hrest := refolds_lines hclean hgap (by simp)
  rw [Text.join_feed (List.cons_ne_nil _ _), Text.unlines_cons, Text.unlines_cons]
  have hwhole := (Refolds.refl (first.trimRight isBlank)).append hrest
  conv => arg 1; rw [hfirst]
  simpa using hwhole

end Lines
end OrderedBnf
