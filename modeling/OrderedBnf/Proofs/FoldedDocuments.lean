import OrderedBnf.Proofs.DocumentBlocks
import OrderedBnf.Proofs.FoldedExpressions
import OrderedBnf.Proofs.QuotedTokens
import OrderedBnf.Proofs.Signs
import OrderedBnf.Proofs.TakingDocuments

/-! Documents that load are ones that the notation accepts, wherever the lines of a rule break but
right within a bracket. -/
namespace OrderedBnf

section Leaves
variable {terminal : Leaf → Text → Prop} {level : Level} {es : List Expression} {text : Text}

def leaves : Gathering (Leaf × Text) := ⟨fun form word => [(form, word)], [], []⟩

/-- The words of a text are those of the expression that it lays out. -/
theorem Laid.among (h : Laid terminal level es text) :
    Laid (fun form word => terminal form word ∧ (form, word) ∈ Expression.gatherAll leaves es)
      level es text := by
  induction h with
  | leaf h => exact .leaf ⟨h, by simp [Expression.gatherAll, Expression.gather, leaves]⟩
  | @enclosed opening closing e e' before text after henc hb _ ha ih =>
    have hsame : Expression.gatherAll leaves [e'] = Expression.gatherAll leaves [e] := by
      cases henc <;> rfl
    exact .enclosed henc hb (hsame ▸ ih) ha
  | alone _ ih => exact .alone ih
  | @several operator es text hlength _ ih =>
    have hsame : Expression.gatherAll leaves [.several operator es] =
        Expression.gatherAll leaves es := List.append_nil _
    exact .several hlength (hsame ▸ ih)
  | @cons operator e es text between rest _ hb _ ih ih' =>
    have hsingle : Expression.gatherAll leaves [e] = Expression.gather leaves e := List.append_nil _
    refine .cons (ih.imp fun form word h => ⟨h.1, ?_⟩) hb (ih'.imp fun form word h => ⟨h.1, ?_⟩)
    · exact List.mem_append_left _ (hsingle ▸ h.2)
    · exact List.mem_append_right _ h.2

end Leaves

/-- A line with a character that is no blank says something. -/
theorem Clean.words {line : Text} {c : Char} (h : Clean line) (hc : c ∈ line)
    (hblank : isBlank c = false) : ∃ words, significant? line = some words := by
  by_contra hnone
  have hblanks := h.blank (Option.eq_none_iff_forall_ne_some.2 fun w hw => hnone ⟨w, hw⟩)
  cases (hblanks c hc).symm.trans hblank

namespace MetaGrammar
open Place

def Unbracketed (line : Text) : Prop := (significant? line).all fun words =>
  !words.head?.any isClosing && !words.getLast?.any (closingOf? · |>.isSome)

instance (line : Text) : Decidable (Unbracketed line) := inferInstanceAs (Decidable (_ = true))

section Lines
variable {text line gap rest u v : Text} {lines : List Text} {c : Char}

theorem Unbracketed.ends {words : Text} (h : Unbracketed line) (hw : significant? line = some words) :
    (∀ c ∈ words.head?, isClosing c = false) ∧ ∀ c ∈ words.getLast?, closingOf? c = none := by
  rw [Unbracketed, hw, Option.all_some, Bool.and_eq_true, Bool.not_eq_true', Bool.not_eq_true'] at h
  refine ⟨fun c hc => ?_, fun c hc => ?_⟩
  · simpa [Option.mem_def.1 hc] using h.1
  · simpa [Option.mem_def.1 hc] using h.2

theorem Unbracketed.last (h : Unbracketed line) (hclean : Clean line) (hline : line = rest ++ [c])
    (hc : isBlank c = false) : closingOf? c = none := by
  obtain ⟨words, hwords⟩ := hclean.words (hline ▸ by simp : c ∈ line) hc
  obtain ⟨before, after, hb, ha, hparts⟩ := significant?_parts hwords
  refine (h.ends hwords).2 c ?_
  have hlast : (before ++ words ++ after).getLast? = some c := by
    rw [← hparts, hline, List.getLast?_concat]
  rcases List.eq_nil_or_concat' after with rfl | ⟨after, d, rfl⟩
  · rcases List.eq_nil_or_concat' words with rfl | ⟨words, d, rfl⟩
    · rw [List.append_nil, List.append_nil] at hlast
      cases (hb c (List.mem_of_getLast? hlast)).symm.trans hc
    · rw [List.append_nil, ← List.append_assoc, List.getLast?_concat] at hlast
      rw [List.getLast?_concat, hlast]
      rfl
  · rw [← List.append_assoc, List.getLast?_concat] at hlast
    obtain rfl := Option.some.inj hlast
    cases (ha d (by simp)).symm.trans hc

theorem Unbracketed.first (h : Unbracketed line) (hclean : Clean line) (hgap : Blanks gap)
    (hline : line = gap ++ c :: rest) (hc : isBlank c = false) : isClosing c = false := by
  obtain ⟨words, hwords⟩ := hclean.words (hline ▸ by simp : c ∈ line) hc
  refine (h.ends hwords).1 c ?_
  have hleft : line.trimLeft isBlank = c :: rest := by
    rw [hline, Text.trimLeft, List.dropWhile_append_of_pos hgap]
    exact List.dropWhile_cons_of_neg (by simp [hc])
  obtain ⟨tail, htail⟩ := Text.trim_ne_nil hleft
  rw [← significant?_trim hwords, htail]
  rfl

/-- What stands behind blanks in a document is the first of a line there. -/
theorem exists_line_start (h : Text.unlines lines = gap ++ c :: rest) (hgap : Blanks gap)
    (hc : isBlank c = false) : ∃ line ∈ lines, ∃ gap rest, Blanks gap ∧ line = gap ++ c :: rest := by
  induction lines generalizing gap with
  | nil => simp [Text.unlines] at h
  | cons line lines ih =>
    rw [Text.unlines_cons] at h
    rcases append_eq_append_cons h with ⟨w, rfl, -⟩ | ⟨_ | ⟨d, w⟩, rfl, hrest⟩
    · exact ⟨_, List.mem_cons_self, gap, w, hgap, rfl⟩
    · obtain ⟨rfl, -⟩ := List.cons.inj hrest
      cases hc
    · obtain ⟨-, hw⟩ := List.forall_mem_append.1 hgap
      obtain ⟨found, hfound, hparts⟩ :=
        ih (List.cons.inj hrest).2 fun c hc => hw c (List.mem_cons_of_mem _ hc)
      exact ⟨found, List.mem_cons_of_mem _ hfound, hparts⟩

/-- What stands before a line break in a document is the last of a line there, or another break. -/
theorem exists_line_end (h : Text.unlines lines = u ++ c :: '\n' :: v)
    (hfeed : ∀ line ∈ lines, '\n' ∉ line) : c = '\n' ∨ ∃ line ∈ lines, ∃ rest, line = rest ++ [c] := by
  induction lines generalizing u with
  | nil => simp [Text.unlines] at h
  | cons line lines ih =>
    rw [Text.unlines_cons] at h
    rcases append_eq_append_cons h with ⟨_ | ⟨d, w⟩, rfl, hrest⟩ | ⟨_ | ⟨d, w⟩, rfl, hrest⟩
    · exact .inr ⟨_, List.mem_cons_self, u, rfl⟩
    · obtain ⟨rfl, -⟩ := List.cons.inj hrest
      exact absurd (by simp) (hfeed _ List.mem_cons_self)
    · exact .inl (List.cons.inj hrest).1.symm
    · rcases ih (List.cons.inj hrest).2 fun l hl => hfeed l (List.mem_cons_of_mem _ hl) with
        rfl | ⟨found, hfound, hparts⟩
      · exact .inl rfl
      · exact .inr ⟨found, List.mem_cons_of_mem _ hfound, hparts⟩

/-- A line of a normalized document is empty or a cleaned line of the document. -/
theorem mem_cleanLines (h : line ∈ cleanLines text) :
    line = [] ∨ ∃ l ∈ text.lines, line = cleanLine l := by
  rw [cleanLines] at h
  split at h
  · exact .inl (List.mem_singleton.1 h)
  · obtain ⟨l, hl, rfl⟩ := List.mem_map.1 h
    exact .inr ⟨l, hl, rfl⟩

theorem cleanLine_subset (line : Text) : cleanLine line ⊆ line := by
  rw [cleanLine]
  split
  · exact List.nil_subset _
  · obtain ⟨after, -, hline⟩ := line.trimRight_append_rest isBlank
    conv => rhs; rw [hline]
    exact List.subset_append_left _ _

theorem cleanLine_last (h : cleanLine line = rest ++ [c]) : isBlank c = false := by
  rw [cleanLine] at h
  split at h
  · simp at h
  · exact Text.trimRight_last h

/-- A normalized document is even if no line of it breaks right within a bracket. -/
theorem even_normalize (hblanks : ∀ c ∈ text, isBlank c → c = ' ' ∨ c = '\t' ∨ c = '\n')
    (hlines : ∀ line ∈ text.lines, Unbracketed line) : Even (normalize text) := by
  have hclean := clean_cleanLines text
  have hunbracketed (line : Text) (hl : line ∈ cleanLines text) : Unbracketed line := by
    rcases mem_cleanLines hl with rfl | ⟨l, hm, rfl⟩
    · rfl
    · rw [Unbracketed, significant?_cleanLine]
      exact hlines l hm
  rw [normalize_eq]
  refine ⟨fun c hc hblank => ?_, fun c hc => ?_, fun gap c hc hgap => ?_⟩
  · obtain ⟨line, hl, hc⟩ := List.mem_flatMap.1 hc
    rcases List.mem_append.1 hc with hc | hc
    · rcases mem_cleanLines hl with rfl | ⟨l, hm, rfl⟩
      · cases hc
      · exact hblanks c (text.lines_subset l hm (cleanLine_subset l hc)) hblank
    · exact .inr (.inr (List.mem_singleton.1 hc))
  · obtain ⟨u, v, hsplit⟩ := hc
    rw [List.append_assoc] at hsplit
    rcases exists_line_end hsplit.symm fun line hl => (hclean line hl).no_feed with
      rfl | ⟨line, hl, rest, hline⟩
    · decide
    · have hblank : isBlank c = false := by
        rcases mem_cleanLines hl with rfl | ⟨l, -, rfl⟩
        · simp at hline
        · exact cleanLine_last hline
      refine ⟨?_, ?_, (hunbracketed line hl).last (hclean line hl) hline hblank⟩ <;>
        rintro rfl <;> cases hblank
  · by_contra hclosing
    have hblank : isBlank c = false := by
      by_contra hblank
      exact hclosing (of_not_sign (not_sign_of_blank (by simpa using hblank))).2.2.1
    obtain ⟨u, v, hsplit⟩ := hc
    have hsplit : Text.unlines (cleanLines text) = u ++ '\n' :: (gap ++ c :: v) := by
      simpa using hsplit.symm
    obtain ⟨before, after, hparts, -, hafter⟩ :=
      Text.unlines_split hsplit fun line hl => (hclean line hl).no_feed
    obtain ⟨line, hl, gap, rest, hgap, hline⟩ := exists_line_start hafter hgap.blanks hblank
    have hl : line ∈ cleanLines text := hparts ▸ List.mem_append_right before hl
    exact hclosing ((hunbracketed line hl).first (hclean line hl) hgap hline hblank)

end Lines

section Loading
variable {lines within : List Text} {first word : Text} {n number : Nat} {name : String}
  {blocks : List Block} {entries : List Entry} {e? : Option Rule}

theorem not_mem_reservedWords (h : Rule.reserved? word = none) : word ∉ reservedWords := by
  intro hmem
  simp only [reservedWords, List.mem_cons, List.not_mem_nil, or_false] at hmem
  rcases hmem with rfl | rfl | rfl <;> cases h

theorem isName_of_identifier (h : isIdentifier word) (hstart : word.head?.any isIdentifierStart)
    (hfree : word ∉ reservedWords) : language.lexis.IsName word := by
  have hkeyword : reservedWords.contains word = false := by simpa using hfree
  cases word with
  | nil => cases h
  | cons c rest =>
    have hrest (d : Char) (hd : d ∈ rest) : isIdentifierChar d :=
      identifierChar_of_identifier h d (List.mem_cons_of_mem _ hd)
    exact ⟨⟨c, rest, rfl, hstart, hrest⟩, hkeyword⟩

/-- An entry of which the notation can spell the name and the words. -/
structure Spelled (entry : Entry) : Prop where
  start : entry.name.toList.head?.any isIdentifierStart
  free : entry.name.toList ∉ reservedWords
  words : ∀ rule ∈ entry.body, ∀ form o, Rule.leaf form o ∈ rule.nodes →
    Opaque form (Rule.leaf form o).writtenAs → Word form (Rule.leaf form o).writtenAs

/-- An expression whose words the notation can spell, as a block has it. -/
theorem laid_word {text : Text} {e : Expression} {rule : Rule} (h : Laid Opaque .choice [e] text)
    (he : rule.expression = e.spliced)
    (hwords : ∀ form o, Rule.leaf form o ∈ (rule.asBodyOf name).nodes →
      Opaque form (Rule.leaf form o).writtenAs → Word form (Rule.leaf form o).writtenAs) :
    Laid Word .choice [e] text := by
  refine h.among.imp fun form word ⟨hform, hmem⟩ => ?_
  have hgather : Expression.gatherAll leaves [e] =
      (rule.asBodyOf name).nodes.flatMap (Rule.gathered leaves) := by
    rw [Rule.gather_asBodyOf, ← Rule.gather_expression, he, Expression.gather_spliced]
    exact List.append_nil _
  rw [hgather] at hmem
  obtain ⟨node, hnode, hword⟩ := List.mem_flatMap.1 hmem
  cases node with
  | leaf form' o =>
    obtain ⟨rfl, rfl⟩ := Prod.mk.inj (List.mem_singleton.1 hword)
    exact hwords _ o hnode hform
  | _ => cases hword

/-- Words of the notation stand on one line. -/
theorem Word.no_feed {form : Leaf} (h : Word form word) : '\n' ∉ word := by
  have hidentifier (h : isIdentifier word) : '\n' ∉ word := not_mem_of_identifier h (by decide)
  cases h with
  | @literal mark body hmark _ hfeed =>
    have hne : '\n' ≠ mark := by
      rintro rfl
      cases hmark
    simp [hne, hfeed]
  | reserved h => exact hidentifier (reserved_identifier h)
  | reference h => exact hidentifier (isIdentifier_of_isName h)

def Embodies (n : Nat) (text : Text) : Prop := ∃ body e? breaks,
  text = body ++ '\n' :: List.replicate breaks '\n' ∧ Behind true n e? body ∧
    (outside 0).after body = outside 0

theorem embodies_blanks {text : Text} (h : Blanks text) (heven : Even (text ++ ['\n'])) :
    Embodies n (text ++ ['\n']) := by
  obtain ⟨breaks, rfl⟩ := heven.breaks h
  refine ⟨[], none, breaks, ?_, .nothing, rfl⟩
  rw [← List.replicate_succ', List.replicate_succ, List.nil_append]

/-- An expression that is folded in another way stands in a text as the notation reads it. -/
theorem embodies_refolded {before laid after text : Text} {e : Expression} (hb : Blanks before)
    (hlaid : Laid Word .choice [e] laid) (ha : Blanks after)
    (hrefolds : Refolds (before ++ laid ++ after) (text ++ ['\n']))
    (hreadable : Readable n (text ++ ['\n'])) : Embodies n (text ++ ['\n']) := by
  obtain ⟨gap, word, trail, htext, hgap, hword, htrail⟩ :=
    hrefolds.around (hlaid.imp fun _ _ => Word.terminal).firm
  obtain ⟨es, hlength, hword⟩ := hlaid.refold (fun _ _ => Word.terminal)
    (fun h hs => hs.eq_of_not_mem h.no_feed ▸ h) hword
  obtain ⟨e', rfl⟩ := List.length_eq_one_iff.1 hlength
  have hgap := hgap.blanks hb
  obtain ⟨trail, rfl, hsplit⟩ : ∃ rest, trail = rest ++ ['\n'] ∧ text = gap ++ word ++ rest := by
    rcases List.eq_nil_or_concat' trail with rfl | ⟨rest, c, rfl⟩
    · obtain ⟨-, init, c, rfl, hc⟩ := (hword.imp fun _ _ => Word.terminal).firm
      rw [List.append_nil, ← List.append_assoc] at htext
      obtain ⟨-, hlast⟩ := List.append_inj' htext rfl
      cases hlast
      cases hc
    · rw [← List.append_assoc] at htext
      obtain ⟨hinit, hlast⟩ := List.append_inj' htext rfl
      cases hlast
      exact ⟨rest, rfl, hinit⟩
  obtain ⟨htrail, -⟩ := List.forall_mem_append.1 (htrail.blanks ha)
  rw [htext] at hreadable ⊢
  obtain ⟨breaks, rfl⟩ := (hreadable.even.part (List.suffix_append ..).isInfix).breaks htrail
  have hfold := hreadable.left.left.even.fold hgap
  have hspread := (hreadable.left.right (after_blanks hgap)).spread hword
  refine ⟨gap ++ word, some e', breaks, ?_, .expression hfold hspread, ?_⟩
  · rw [← List.replicate_succ', List.replicate_succ]
  · rw [after_append, after_blanks hgap]
    exact (mute_of_spread hspread 0).closed

/-- What the loader makes an entry of stands in the document as the notation reads it. -/
theorem embodies_of_makes
    (h : Block.Makes name (Block.ofLines name number
      (first.trimRight isBlank :: within.filterMap significant?)).body e?)
    (hwords : ∀ rule ∈ e?, ∀ form o, Rule.leaf form o ∈ rule.nodes →
      Opaque form (Rule.leaf form o).writtenAs → Word form (Rule.leaf form o).writtenAs)
    (hclean : ∀ line ∈ within, Clean line)
    (hreadable : Readable n (Text.unlines (first :: within))) :
    Embodies n (Text.unlines (first :: within)) := by
  have hbreak : Blanks ['\n'] := by simp [Blanks, isBlank]
  have hrefolds := (@refolds_block within first hclean).symm
  rw [← Text.join_feed (List.cons_ne_nil _ _)] at hreadable hrefolds ⊢
  rw [Block.ofLines] at h
  generalize Text.join ['\n'] (first.trimRight isBlank :: within.filterMap significant?) =
    joined at h hrefolds
  obtain ⟨after, ha, hparts⟩ := joined.trim_parts isBlank
  have hlead : Blanks (joined.takeWhile isBlank) := fun c hc => List.mem_takeWhile_imp hc
  generalize joined.takeWhile isBlank = lead at hlead hparts
  generalize joined.trim isBlank = trimmed at h hparts
  subst hparts
  cases h with
  | nothing =>
    rw [List.append_nil] at hrefolds
    have hblanks : Blanks (lead ++ after ++ ['\n']) :=
      List.forall_mem_append.2 ⟨List.forall_mem_append.2 ⟨hlead, ha⟩, hbreak⟩
    exact embodies_blanks (List.forall_mem_append.1 (hrefolds.blanks hblanks)).1 hreadable.even
  | @rule _ rule _ hcompile =>
    obtain ⟨before, laid, after', e, rfl, hb, ha', hlaid, he⟩ := Rule.laid_of_compile hcompile
    have hsplit : lead ++ (before ++ laid ++ after') ++ after ++ ['\n'] =
        (lead ++ before) ++ laid ++ (after' ++ after ++ ['\n']) := by simp
    rw [hsplit] at hrefolds
    have hbefore : Blanks (lead ++ before) := List.forall_mem_append.2 ⟨hlead, hb⟩
    have hafter : Blanks (after' ++ after ++ ['\n']) :=
      List.forall_mem_append.2 ⟨List.forall_mem_append.2 ⟨ha', ha⟩, hbreak⟩
    exact embodies_refolded hbefore (laid_word hlaid he (hwords _ rfl)) hafter hrefolds hreadable

theorem blanks_unlines (h : ∀ line ∈ lines, Blanks line) : Blanks (Text.unlines lines) := by
  intro c hc
  obtain ⟨line, hl, hc⟩ := List.mem_flatMap.1 hc
  rcases List.mem_append.1 hc with hc | hc
  · exact h line hl c hc
  · rw [List.mem_singleton.1 hc]
    decide

theorem breaks_unlines (h : ∀ line ∈ lines, Blanks line) (heven : Even (Text.unlines lines)) :
    ∃ breaks, Text.unlines lines = List.replicate breaks '\n' := by
  have hblanks := blanks_unlines h
  cases lines with
  | nil => exact ⟨0, rfl⟩
  | cons line lines =>
    rw [← Text.join_feed (List.cons_ne_nil _ _)] at hblanks heven ⊢
    obtain ⟨breaks, hbreaks⟩ := heven.breaks (List.forall_mem_append.1 hblanks).1
    exact ⟨breaks + 1, by rw [hbreaks, List.replicate_succ']⟩

/-- The blocks of a document, as they load, are rules that the notation reads. -/
theorem written_of_grouped (h : Block.Grouped number lines blocks)
    (hloads : List.Forall₂ Block.Loads blocks entries) (hspelled : ∀ entry ∈ entries, Spelled entry)
    (hclean : ∀ line ∈ lines, Clean line) (hreadable : Readable n (Text.unlines lines)) :
    ∃ breaks left ds, Text.unlines lines = List.replicate breaks '\n' ++ left ∧
      Written true n ds left := by
  induction h generalizing entries with
  | nil hblank =>
    obtain ⟨breaks, hbreaks⟩ :=
      breaks_unlines (fun line hl => (hclean line hl).blank (hblank line hl)) hreadable.even
    exact ⟨breaks, [], [], by rw [hbreaks, List.append_nil], .nil⟩
  | @cons number before head name words within after blocks hbefore hhead _ _ _ ih =>
    obtain ⟨indent, rest, rfl, hindent, hname, rfl⟩ := titleOf?_some hhead
    obtain ⟨hcleanBefore, hcleanRest⟩ := List.forall_mem_append.1 hclean
    obtain ⟨hcleanHead, hcleanRest⟩ := List.forall_mem_cons.1 hcleanRest
    obtain ⟨hcleanWithin, hcleanAfter⟩ := List.forall_mem_append.1 hcleanRest
    have hblank (line : Text) (hl : line ∈ before) : Blanks line :=
      (hcleanBefore line hl).blank (hbefore line hl)
    cases hloads with
    | @cons _ entry _ entries hentry hentries =>
    obtain ⟨hspelled, hothers⟩ := List.forall_mem_cons.1 hspelled
    have hisName : language.lexis.IsName name.toList := by
      have hsame : entry.name = name := hentry.name
      exact isName_of_identifier hname (hsame ▸ hspelled.start) (hsame ▸ hspelled.free)
    -- the document up to the colon, the lines of the rule, and those behind it
    have hwhole : Text.unlines (before ++ (indent ++ (name.toList ++ ':' :: rest)) ::
        (within ++ after)) = Text.unlines before ++ indent ++ name.toList ++ [':'] ++
          Text.unlines (rest :: within) ++ Text.unlines after := by simp [Text.unlines]
    have hfront : (outside 0).after (Text.unlines before ++ indent ++ name.toList ++ [':']) =
        outside 0 := by
      rw [after_append, after_append, after_append, after_blanks (blanks_unlines hblank),
        after_blanks hindent, after_identifier (identifierChar_of_identifier hname)]
      rfl
    rw [hwhole] at hreadable ⊢
    obtain ⟨body, e?, n', hbody, hbehind, hclosed⟩ :=
      embodies_of_makes hentry.body hspelled.words hcleanWithin (hreadable.left.right hfront)
    have hrule : (outside 0).after (Text.unlines before ++ indent ++ name.toList ++ [':'] ++
        Text.unlines (rest :: within)) = outside 0 := by
      rw [after_append, hfront, hbody, after_append, hclosed, ← List.replicate_succ,
        after_blanks (layout_replicate _).blanks]
    obtain ⟨more, left, ds, hleft, hwritten⟩ :=
      ih hentries hothers hcleanAfter (hreadable.right hrule)
    have hlead := hreadable.left.left.left.left.even
    obtain ⟨breaks, hbreaks⟩ := breaks_unlines hblank (hlead.part (List.prefix_append ..).isInfix)
    have hspaces : Spaces indent := fun c hc => by
      have hlayout := hlead.layout c (List.mem_append_right _ hc) (hindent c hc)
      have hfeed : c ≠ '\n' := by
        rintro rfl
        exact hcleanHead.no_feed (List.mem_append_left _ hc)
      simpa [hfeed] using hlayout
    refine ⟨breaks, _, ⟨name.toList, e?⟩ :: ds, ?_,
      @Written.cons _ _ _ _ _ _ (n' + more) _ hspaces hisName hbehind hwritten⟩
    rw [hbreaks, hbody, hleft, List.replicate_add]
    simp only [List.append_assoc, List.cons_append, List.nil_append]

/-- The domain of documents on which the notation is to agree with the loader: its own blanks, names
that it can spell, and literals that are each one quotation on one line. -/
structure Neat (text : Text) (grammar : Grammar) : Prop where
  blanks : ∀ c ∈ text, isBlank c → c = ' ' ∨ c = '\t' ∨ c = '\n'
  names : ∀ entry ∈ grammar.entries, entry.line.isSome →
    entry.name.toList.head?.any isIdentifierStart ∧ entry.name.toList ∉ reservedWords
  mentions : ∀ name ∈ grammar.mentions, name.toList.head?.any isIdentifierStart
  literals : ∀ node ∈ grammar.nodes, node.kind = .token →
    ∃ mark, isQuote mark ∧ Quoted mark node.writtenAs ∧ '\n' ∉ node.writtenAs

/-- The notation can spell every rule of a neat grammar that was written down. -/
theorem Neat.spelled {text : Text} {grammar : Grammar} {entry : Entry} (h : Neat text grammar)
    (he : entry ∈ grammar.entries) (hline : entry.line.isSome) : Spelled entry := by
  obtain ⟨hstart, hfree⟩ := h.names entry he hline
  refine ⟨hstart, hfree, fun rule hrule form o hleaf hform => ?_⟩
  have hbody : rule ∈ grammar.bodies := List.mem_filterMap.2 ⟨entry, he, hrule⟩
  have hnode : Rule.leaf form o ∈ grammar.nodes := List.mem_flatMap.2 ⟨rule, hbody, hleaf⟩
  generalize hword : (Rule.leaf form o).writtenAs = word at hform ⊢
  cases hform with
  | literal =>
    obtain ⟨mark, hmark, ⟨body, hbody, hquoted⟩, hfeed⟩ := h.literals _ hnode rfl
    rw [hword] at hquoted hfeed
    rw [hquoted] at hfeed ⊢
    exact .literal hmark hbody fun hc => hfeed (by simp [hc])
  | reserved hr => exact .reserved hr
  | reference hi hr =>
    have hmention : String.ofList word ∈ grammar.mentions := by
      refine List.mem_flatMap.2 ⟨rule, hbody, List.mem_map.2 ⟨.leaf .reference o, ?_, ?_⟩⟩
      · exact List.mem_filter.2 ⟨hleaf, rfl⟩
      · rw [Rule.target, hword]
    have hstart := h.mentions _ hmention
    rw [String.toList_ofList] at hstart
    exact .reference (isName_of_identifier hi hstart (not_mem_reservedWords hr))

/-- Somewhere in a text a reader is in most brackets. -/
theorem exists_deepest (text : Text) : ∃ u, u <+: text ∧
    ∀ v, v <+: text → ((outside 0).after v).depth ≤ ((outside 0).after u).depth := by
  induction text using List.reverseRecOn with
  | nil => exact ⟨[], List.prefix_refl _, fun v hv => by rw [List.prefix_nil.1 hv]⟩
  | append_singleton text c ih =>
    obtain ⟨u, hu, hdeepest⟩ := ih
    rcases Nat.le_total ((outside 0).after (text ++ [c])).depth ((outside 0).after u).depth with
      hle | hle
    · refine ⟨u, hu.trans (List.prefix_append ..), fun v hv => ?_⟩
      rcases List.prefix_concat_iff.1 hv with rfl | hv
      · exact hle
      · exact hdeepest v hv
    · refine ⟨text ++ [c], List.prefix_refl _, fun v hv => ?_⟩
      rcases List.prefix_concat_iff.1 hv with rfl | hv
      · exact Nat.le_refl _
      · exact Nat.le_trans (hdeepest v hv) hle

/-- A document that loads is one that the notation accepts, if no line of a rule breaks right within
a bracket, and unless its brackets nest too deep. -/
theorem lint_of_loads {text : Text} {extensions : List String} {grammar : Grammar}
    (hload : Grammar.load text.lines extensions = .ok grammar) (hneat : Neat text grammar)
    (hlines : ∀ line ∈ text.lines, Unbracketed line) (filename : Option String) :
    (∃ tree, lint text filename = .ok tree) ∨
      ∃ diagnosis, lint text filename = .error (.failed diagnosis) ∧
        diagnosis.failure.reason = .tooDeep ∧ ∃ u, u <+: normalize text ∧
          Language.depthLimit < 14 * ((outside 0).after u).depth + 22 := by
  obtain ⟨blocks, declared, added, hblocks, hloads, -, hentries⟩ := Grammar.load_entries hload
  obtain ⟨u, hu, hdeepest⟩ := exists_deepest (normalize text)
  have hspelled (entry : Entry) (he : entry ∈ declared) : Spelled entry := by
    obtain ⟨block, -, hblock⟩ := exists_of_mem_right hloads he
    exact hneat.spelled (hentries ▸ List.mem_append_left _ he) (by rw [hblock.line]; rfl)
  have hreadable : Readable _ (normalize text) := ⟨even_normalize hneat.blanks hlines, hdeepest⟩
  rw [← Block.ofDocument_cleanLines] at hblocks
  rw [normalize_eq] at hreadable
  obtain ⟨breaks, left, ds, hnormal, hwritten⟩ := written_of_grouped (Block.grouped_iff.1 hblocks)
    hloads hspelled (clean_cleanLines text) hreadable
  obtain ⟨tree, -, hlint | ⟨hlimit, diagnosis, hlint, hdeep⟩⟩ :=
    lint_written hwritten ((normalize_eq text).trans hnormal) filename
  · exact .inl ⟨tree, hlint⟩
  · refine .inr ⟨diagnosis, hlint, hdeep, u, hu, ?_⟩
    rw [depthOf, Bool.toNat_true] at hlimit
    omega

/-- A document that loads is neat if its blanks, names and literals, one after another, are. -/
theorem exists_neat {text : Text} {words : List Text}
    (hblanks : text.all fun c => !isBlank c || c = ' ' || c = '\t' || c = '\n')
    (hload : (Grammar.load text.lines []).toOption.any fun grammar =>
      grammar.entries.all (fun entry => entry.name.toList.head?.any isIdentifierStart &&
        !reservedWords.contains entry.name.toList) &&
      grammar.mentions.all (·.toList.head?.any isIdentifierStart) &&
      (grammar.nodes.filter (·.kind = .token)).map Rule.writtenAs = words)
    (hwords : ∀ word ∈ words, ∃ mark, isQuote mark ∧ Quoted mark word ∧ '\n' ∉ word) :
    ∃ grammar, Grammar.load text.lines [] = .ok grammar ∧ Neat text grammar := by
  cases hg : Grammar.load text.lines [] with
  | error => rw [hg] at hload; cases hload
  | ok grammar =>
    rw [hg] at hload
    simp only [Except.toOption, Option.any_some, Bool.and_eq_true, List.all_eq_true,
      decide_eq_true_eq, Bool.not_eq_true', List.contains_eq_mem, decide_eq_false_iff_not] at hload
    obtain ⟨⟨hnames, hmentions⟩, htokens⟩ := hload
    refine ⟨grammar, rfl, fun c hc hb => ?_, fun entry he _ => hnames entry he, hmentions,
      fun node hn hk => hwords _ ?_⟩
    · simpa [hb, or_assoc] using List.all_eq_true.1 hblanks c hc
    · rw [← htokens]
      exact List.mem_map_of_mem (List.mem_filter.2 ⟨hn, decide_eq_true hk⟩)

def severalLines : Text :=
  "A:\n 'it\\'s' B\n# a note\n | ( C\n[ A ] ) |\n\n \x7b \"(\" \x7d\nB:\n\nC: TOKEN\n".toList

theorem severalLines_linted : ∃ grammar, Grammar.load severalLines.lines [] = .ok grammar ∧
    Neat severalLines grammar ∧ (∀ line ∈ severalLines.lines, Unbracketed line) ∧
    ((∃ tree, lint severalLines none = .ok tree) ∨
      ∃ diagnosis, lint severalLines none = .error (.failed diagnosis) ∧
        diagnosis.failure.reason = .tooDeep ∧ ∃ u, u <+: normalize severalLines ∧
          Language.depthLimit < 14 * ((outside 0).after u).depth + 22) := by
  have hquoted : ∀ word ∈ ["'it\\'s'".toList, "\"(\"".toList], ∃ mark, isQuote mark ∧
      Quoted mark word ∧ '\n' ∉ word := by
    refine List.forall_mem_cons.2 ⟨⟨'\'', rfl, ⟨"it\\'s".toList, ?_, rfl⟩, by decide⟩,
      List.forall_mem_singleton.2 ⟨'"', rfl, ⟨"(".toList, ?_, rfl⟩, by decide⟩⟩
    · exact .plain (by decide) (by decide) (.plain (by decide) (by decide)
        (.escape (.plain (by decide) (by decide) .nil)))
    · exact .plain (by decide) (by decide) .nil
  obtain ⟨grammar, hload, hneat⟩ :=
    @exists_neat severalLines _ (by decide +kernel) (by decide +kernel) hquoted
  have hlines : severalLines.lines.all (decide <| Unbracketed ·) := by decide +kernel
  rw [List.all_eq_true] at hlines
  have hlines (line : Text) (hl : line ∈ severalLines.lines) := of_decide_eq_true (hlines line hl)
  exact ⟨grammar, hload, hneat, hlines, lint_of_loads hload hneat hlines none⟩

def brokenBracket : Text := "A: (\n'a' )\n".toList

theorem brokenBracket_refused : ∃ grammar, Grammar.load brokenBracket.lines [] = .ok grammar ∧
    Neat brokenBracket grammar ∧ ¬ ∃ tree, lint brokenBracket none = .ok tree := by
  have hquoted : ∀ word ∈ ["'a'".toList], ∃ mark, isQuote mark ∧ Quoted mark word ∧ '\n' ∉ word :=
    List.forall_mem_singleton.2
      ⟨'\'', rfl, ⟨['a'], .plain (by decide) (by decide) .nil, rfl⟩, by decide⟩
  obtain ⟨grammar, hload, hneat⟩ :=
    @exists_neat brokenBracket _ (by decide +kernel) (by decide +kernel) hquoted
  refine ⟨grammar, hload, hneat, ?_⟩
  rintro ⟨tree, hlint⟩
  have hrefused : (lint brokenBracket none).isOk = false := by decide +kernel
  rw [hlint] at hrefused
  cases hrefused

end Loading
end MetaGrammar
end OrderedBnf
