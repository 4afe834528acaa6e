import OrderedBnf.Proofs.NotationChains
import OrderedBnf.Proofs.Printing

/-! Expressions written with spaces between their words, or with line breaks where the notation goes
on over them, are expressions of the notation, and say the same. -/
namespace OrderedBnf.MetaGrammar
open Reader

variable {text : Text} {left gap word between rest : Text} {level : Level} {operator : Operator}
  {e : Expression} {es : List Expression} {n : Nat} {s s' : List Sign} {folds : Bool}

def signsOfAll (es : List Expression) : List Sign := es.flatMap Expression.signs

theorem signs_several (operator : Operator) (es : List Expression) :
    (Expression.several operator es).signs = signsOfAll es :=
  Expression.gatherAll_eq _ es

theorem spaced_le : (spaced folds).Le ⟨fun gap => gap ≠ [] ∧ Blanks gap, Blanks, Blanks, Blanks⟩ where
  apart h := ⟨h.1, h.2.layout.blanks⟩
  beforeBar h := h.layout.blanks
  afterBar h := h.layout.blanks
  within h := h.layout.blanks

theorem spread_terminal (h : Spread Word (spaced folds) n level es word) :
    Spread Terminal (spaced folds) n level es word :=
  h.imp (fun _ _ => Word.terminal) ⟨id, id, id, id⟩ (Nat.le_refl n)

theorem firm_of_spread (h : Spread Word (spaced folds) n level es word) : Firm word :=
  ((spread_terminal h).laid spaced_le).firm

theorem mute_of_spread (h : Spread Word (spaced folds) n level es word) (depth : Nat) :
    Mute depth word :=
  (spread_terminal h).mute
    ⟨fun h => (spaced_le.apart h).2, spaced_le.beforeBar, spaced_le.afterBar, spaced_le.within⟩ depth

/-- A colon of an expression stands in quotation marks, so the expression starts no head. -/
theorem not_title_of_spread (h : Spread Word (spaced folds) n level es word)
    (hnext : left.head?.any isIdentifierChar = false) (hcolon : left.head? ≠ some ':')
    {name behind : Text} (hname : isIdentifier name) : word ++ left ≠ name ++ ':' :: behind := by
  intro he
  have hchars := identifierChar_of_identifier hname
  rcases append_eq_append_cons he with ⟨w, hw, -⟩ | ⟨_ | ⟨c, w⟩, hw, rfl⟩
  · exact (mute_of_spread h 0).quiet name w hw 0 (Place.after_identifier hchars)
  · exact hcolon rfl
  · have hc := hchars c (by rw [hw]; simp)
    rw [List.cons_append, List.head?_cons, Option.any_some, hc] at hnext
    cases hnext

/-- The notation goes on over line breaks before an expression. -/
theorem continues_spread (h : Spread Word (spaced folds) n level es word)
    (hnext : left.head?.any isIdentifierChar = false) (hcolon : left.head? ≠ some ':') :
    continues (word ++ left) := by
  obtain ⟨c, rest, hword, hc, hbar, -⟩ := (firm_of_spread h).head
  have hfeed : c ≠ '\n' := by
    rintro rfl
    cases hc
  have hline : (word ++ left).takeWhile (· ≠ '\n') = c :: (rest ++ left).takeWhile (· ≠ '\n') := by
    rw [hword, List.cons_append]
    exact List.takeWhile_cons_of_pos (by simpa using hfeed)
  have hleft : Text.trimLeft isBlank (c :: (rest ++ left).takeWhile (· ≠ '\n')) =
      c :: (rest ++ left).takeWhile (· ≠ '\n') := List.dropWhile_cons_of_neg (by simp [hc])
  obtain ⟨tail, htrim⟩ := Text.trim_ne_nil hleft
  have hhead : headOf? (c :: tail) = none := by
    by_contra hsome
    obtain ⟨⟨name, first⟩, hhead⟩ := Option.ne_none_iff_exists'.1 hsome
    obtain ⟨hname, hsplit⟩ := headOf?_some hhead
    obtain ⟨after, -, hparts⟩ :=
      Text.trimRight_append_rest isBlank (c :: (rest ++ left).takeWhile (· ≠ '\n'))
    rw [Text.trim, hleft] at htrim
    rw [htrim, hsplit, ← hline] at hparts
    have htitle : word ++ left =
        name.toList ++ ':' :: (first ++ after ++ (word ++ left).dropWhile (· ≠ '\n')) := by
      conv =>
        lhs
        rw [← List.takeWhile_append_dropWhile (p := (· ≠ '\n')) (l := word ++ left), hparts]
      simp
    exact not_title_of_spread h hnext hcolon hname htitle
  rw [continues, hline, htrim, hhead]
  simp [hword, hbar]

/-- The rule for what stands in a pair of brackets, and the atoms that are tried before it. -/
theorem enclosing {opening closing : Char} {e e' : Expression}
    (h : Encloses opening closing e e') : ∃ name passed more chars,
      name ∈ ["Group", "Optional", "Repetition"] ∧
      sketches.lookup name =
        some (some (.sequence [.word [opening], .rule "Expression", .word [closing]])) ∧
      sketches.lookup "Atom" = some (some (.choice (passed ++ .rule name :: more))) ∧
      passed.all (beginsIn chars 3) ∧ opening ∉ chars ∧
      e'.signs = titleSigns (some name) ++ e.signs := by
  cases h with
  | group => exact ⟨"Group", [.rule "Literal"], _, ['\'', '"'], by decide, rfl, rfl, by decide,
      by decide, rfl⟩
  | optional => exact ⟨"Optional", [.rule "Literal", .rule "Group"], _, ['\'', '"', '('], by decide,
      rfl, rfl, by decide, by decide, rfl⟩
  | repetition => exact ⟨"Repetition", [.rule "Literal", .rule "Group", .rule "Optional"], _,
      ['\'', '"', '(', '['], by decide, rfl, rfl, by decide, by decide, rfl⟩

/-- The marks of a pair of brackets are marks of the notation. -/
theorem marks_of_enclosing {opening closing : Char} {e e' : Expression}
    (h : Encloses opening closing e e') : (opening ≠ ' ' ∧ opening ≠ '\t') ∧
      (closing ≠ ' ' ∧ closing ≠ '\t') ∧ closing ∈ [')', ']', '}'] ∧
      language.lexis.isKeyword [opening] = false ∧ language.lexis.isKeyword [closing] = false := by
  cases h <;> exact ⟨by decide, by decide, by decide, rfl, rfl⟩

theorem says_enclosed {opening closing : Char} {e e' : Expression} {before after : Text}
    (henc : Encloses opening closing e e') (ha : Spaces after) (hgap : Spaces gap)
    (hs : gap ++ (opening :: (before ++ word ++ after ++ [closing]) ++ left) <:+ text)
    (h : ∀ {left}, before ++ (word ++ left) <:+ text → Stops text .choice left →
      Says text folds n .choice (before ++ (word ++ left)) left e.signs) :
    Says text folds (n + 1) .operand (gap ++ (opening :: (before ++ word ++ after ++ [closing]) ++ left))
      left e'.signs := by
  have hsplit : gap ++ (opening :: (before ++ word ++ after ++ [closing]) ++ left) =
      gap ++ opening :: (before ++ (word ++ (after ++ closing :: left))) := by simp
  rw [hsplit] at hs ⊢
  obtain ⟨hopening, hclosing, hends, hkey, hkey'⟩ := marks_of_enclosing henc
  obtain ⟨name, passed, more, chars, hname, hbody, hatom, hpassed, hchars, hsigns⟩ := enclosing henc
  have hm := meets hgap hopening hs
  have hinner : before ++ (word ++ (after ++ closing :: left)) <:+ text :=
    (List.suffix_cons _ _).trans hm.word_suffix
  have hend : after ++ closing :: left <:+ text :=
    (List.suffix_append _ _).trans ((List.suffix_append _ _).trans hinner)
  have hstop : Stops text .choice (after ++ closing :: left) := by
    refine stops_mark ha hend ?_ fun _ => ?_
    · simp only [List.mem_cons, List.not_mem_nil, or_false] at hends ⊢
      rcases hends with h | h | h <;> simp [h]
    · rintro rfl
      exact absurd hends (by decide)
  have hexpression := (h hinner hstop).accepts hinner
  have hparts : AcceptsAll text (depthOf folds .choice n) [.word [opening], .rule "Expression",
      .word [closing]] (gap ++ opening :: (before ++ (word ++ (after ++ closing :: left)))) left
      ([] ++ (e.signs ++ ([] ++ []))) :=
    acceptsAll_cons (accepts_mark hm hkey) (acceptsAll_cons hexpression
      (acceptsAll_cons (accepts_mark (meets ha hclosing hend) hkey') acceptsAll_nil))
  have hdeclines : ∀ sketch ∈ passed, Declines text (depthOf folds .choice n + 2) sketch
      (gap ++ opening :: (before ++ (word ++ (after ++ closing :: left)))) := fun sketch hm' =>
    (declines_all hm hchars hpassed sketch hm').mono (by simp only [depthOf]; omega)
  have hsame : titleSigns (some name) ++ ([] ++ (e.signs ++ ([] ++ []))) = e'.signs := by
    simp [hsigns]
  rw [← hsame, Says, depthOf_succ]
  exact accepts_rule hatom (atom_bracketed hbody hname hdeclines hparts)

/-- After an operand and what stands behind it, further operands go on with the chain. -/
theorem chain_cons (hb : (spaced folds).Between operator between) (hword : Firm word)
    (hrest : Firm rest) (hcontinues : continues (rest ++ left))
    (hs : gap ++ (word ++ (between ++ (rest ++ left))) <:+ text)
    (h : Says text folds n operator.tighter (gap ++ (word ++ (between ++ (rest ++ left))))
      (between ++ (rest ++ left)) s)
    (hmore : ∀ {gap}, Spaces gap → gap ++ (rest ++ left) <:+ text →
      Chain text folds n operator (gap ++ (rest ++ left)) left s') :
    Chain text folds n operator (gap ++ (word ++ (between ++ (rest ++ left)))) left (s ++ s') := by
  have hbetween : between ++ (rest ++ left) <:+ text :=
    (List.suffix_append _ _).trans ((List.suffix_append _ _).trans hs)
  obtain ⟨gap', hgap', hsuffix, hround⟩ := accepts_round (n := n) hb hrest hcontinues hbetween
  obtain ⟨word', middle, first, more, hne, hsplit, rfl, hfirst, hrounds⟩ :=
    hmore hgap' (hsuffix.trans hbetween)
  refine ⟨gap ++ word, between ++ (rest ++ left), s, first ++ more, ?_,
    (List.append_assoc ..).symm, rfl, h.accepts hs,
    acceptsRounds_round (hround hfirst) ?_ hrounds⟩
  · simp [hword.ne_nil]
  · have hlength := hsuffix.length_le
    rw [hsplit, List.length_append] at hlength
    have := List.length_pos_iff.2 hne
    omega

/-- What is written out with spaces, and with line breaks that the notation goes on over, is read as
the expression that it was written from. -/
theorem says_of_spread (h : Spread Word (spaced folds) n level es word) :
    ∀ {gap left}, Spaces gap → gap ++ (word ++ left) <:+ text → Stops text level left →
      Says text folds n level (gap ++ (word ++ left)) left (signsOfAll es) := by
  induction h with
  | @leaf n form word hword =>
    intro gap left hgap hs hstop
    exact (accepts_word (meets_firm hgap hword.terminal.firm hs) hstop.next hword).mono le_depthOf
  | @enclosed n opening closing e e' before word after henc hbefore hspread hafter ih =>
    intro gap left hgap hs hstop
    have hsigns (e : Expression) : signsOfAll [e] = e.signs := List.flatMap_singleton ..
    rw [hsigns] at ih ⊢
    exact says_enclosed henc hafter hgap hs (ih hbefore)
  | alone hspread ih =>
    intro gap left hgap hs hstop
    exact says_level.2 (chain_alone (firm_of_spread hspread).ne_nil hs
      (ih hgap hs hstop.tighter) hstop)
  | @several n operator es word _ _ ih =>
    intro gap left hgap hs hstop
    have hsigns : signsOfAll [.several operator es] = signsOfAll es :=
      (List.flatMap_singleton ..).trans (signs_several operator es)
    exact hsigns ▸ ih hgap hs hstop
  | @cons n operator e es word between rest hfirst hbetween hrest ih ih' =>
    intro gap left hgap hs hstop
    have hsplit : gap ++ (word ++ between ++ rest ++ left) =
        gap ++ (word ++ (between ++ (rest ++ left))) := by simp
    rw [hsplit] at hs ⊢
    have hfollowing : between ++ (rest ++ left) <:+ text :=
      (List.suffix_append _ _).trans ((List.suffix_append _ _).trans hs)
    have hreads := ih hgap hs (stops_between hbetween hfollowing)
    have hsigns : signsOfAll (e :: es) = signsOfAll [e] ++ signsOfAll es := by
      simp [signsOfAll]
    rw [hsigns]
    exact says_level.2 (chain_cons hbetween (firm_of_spread hfirst) (firm_of_spread hrest)
      (continues_spread hrest hstop.next hstop.colon) hs hreads
      fun hgap' hs' => says_level.1 (ih' hgap' hs' hstop))

end OrderedBnf.MetaGrammar
