import OrderedBnf.Proofs.LoadedRules
import OrderedBnf.Proofs.Refolding

/-! What the notation accepts the loader reads too, as long as a document is tidy. The notation
skips blanks between any two words and takes a literal as a whole; the loader needs the blanks, and
looks for heads line by line. -/
namespace OrderedBnf.MetaGrammar
open Place

/-- Every colon stands right behind a name, something stands between any two operands, and no line
that starts within a literal is a head. -/
structure Tidy (text : Text) (tree : ParseTree) : Prop where
  heads : ∀ rule ∈ rulesOf tree, ∀ name ∈ (Tree.branches rule).head?.join,
    text[ParseTree.stop name]? = some ':'
  apart : ∀ a ∈ Tree.subtrees tree, ∀ b ∈ Tree.subtrees tree,
    (Tree.label a).ruleName? = some "Atom" → (Tree.label b).ruleName? = some "Atom" →
    ParseTree.stop a ≤ ParseTree.start b →
    text.window (ParseTree.stop a) (ParseTree.start b) ≠ []
  literals : ∀ a ∈ Tree.subtrees tree, (Tree.label a).ruleName? = some "Literal" →
    ∀ i < ParseTree.stop a, ParseTree.start a ≤ i → text[i]? = some '\n' →
    titleOf? ((text.drop (i + 1)).takeWhile (· ≠ '\n')) = none

instance (text : Text) (tree : ParseTree) : Decidable (Tidy text tree) :=
  decidable_of_iff (_ ∧ _ ∧ _) ⟨fun h => ⟨h.1, h.2.1, h.2.2⟩, fun h => ⟨h.1, h.2, h.3⟩⟩

/-- A text whose first line is no head, whatever may stand behind it. -/
def Headless (text : Text) : Prop := ∀ before name rest behind, Blanks before → '\n' ∉ before →
  isIdentifier name → text ++ behind ≠ before ++ name ++ ':' :: rest

theorem Headless.append {text : Text} (h : Headless text) (more : Text) : Headless (text ++ more) :=
  fun before name rest behind hb hf hn he =>
    h before name rest (more ++ behind) hb hf hn (List.append_assoc .. ▸ he)

def Steady (form : Leaf) (word : Text) : Prop :=
  Terminal form word ∧ ∀ u v, word = u ++ '\n' :: v → Headless v

/-- A mute text that is broken outside quotation marks, or else before a line that is no head. -/
structure Unheaded (depth : Nat) (text : Text) : Prop extends Mute depth text where
  breaks : ∀ u v, text = u ++ '\n' :: v →
    (∃ d, (outside depth).after u = outside d) ∨ Headless v

namespace Unheaded
variable {depth : Nat} {text rest : Text}

/-- Unheaded texts may follow one another. -/
theorem append (h : Unheaded depth text) (h' : Unheaded depth rest) :
    Unheaded depth (text ++ rest) where
  toMute := h.toMute.append h'.toMute
  breaks u v he := by
    rcases append_eq_append_cons he with ⟨w, hw, rfl⟩ | ⟨w, rfl, hw⟩
    · exact (h.breaks u w hw).imp_right (·.append _)
    · rw [after_append, h.closed]
      exact h'.breaks w v hw

theorem blanks (h : Blanks text) : Unheaded depth text where
  toMute := .blanks h
  breaks _ _ he := .inl ⟨depth, after_blanks fun c hc => h c (he ▸ List.mem_append_left _ hc)⟩

theorem leaf {form : Leaf} (h : Steady form text) : Unheaded depth text where
  toMute := .terminal h.1
  breaks u v he := .inr (h.2 u v he)

/-- Brackets around an unheaded text leave it unheaded. -/
theorem enclosed {opening closing : Char} (hopening : opening ≠ '\n') (hclosing : closing ≠ '\n')
    (ho : (outside depth).step opening = outside (depth + 1)) (h : Unheaded (depth + 1) text)
    (hmute : Mute depth (opening :: (text ++ [closing]))) :
    Unheaded depth (opening :: (text ++ [closing])) where
  toMute := hmute
  breaks u v he := by
    cases u with
    | nil => exact absurd (List.cons.inj he).1 hopening
    | cons c u =>
      obtain ⟨rfl, hrest⟩ := List.cons.inj he
      rw [after_cons, ho]
      rcases append_eq_append_cons hrest with ⟨w, hw, rfl⟩ | ⟨_ | ⟨c, w⟩, -, hw⟩
      · exact (h.breaks u w hw).imp_right (·.append _)
      · exact absurd (List.cons.inj hw).1 hclosing
      · simp at hw

/-- No line after the first is a head. -/
theorem lines {first : Text} {within : List Text} (h : Unheaded 0 (Text.unlines (first :: within)))
    (hfeed : ∀ line ∈ within, '\n' ∉ line) : ∀ line ∈ within, titleOf? line = none := by
  intro line hl
  have hline := hfeed line hl
  obtain ⟨before, after, rfl⟩ := List.append_of_mem hl
  have hsplit : Text.unlines (first :: (before ++ line :: after)) =
      Text.join ['\n'] (first :: before) ++ '\n' :: (line ++ '\n' :: Text.unlines after) := by
    rw [List.append_cons (Text.join _ _), Text.join_feed (List.cons_ne_nil _ _), ← Text.unlines_cons]
    simp [Text.unlines]
  cases ht : titleOf? line with
  | none => rfl
  | some title =>
    obtain ⟨name, words⟩ := title
    obtain ⟨indent, rest, rfl, hindent, hname, -⟩ := titleOf?_some ht
    rcases h.breaks _ _ hsplit with ⟨d, hd⟩ | hno
    · -- the reader comes to the colon outside quotation marks
      refine absurd ?_ (h.quiet (Text.join ['\n'] (first :: before) ++ '\n' ::
        (indent ++ name.toList)) (rest ++ '\n' :: Text.unlines after) ?_ d)
      · rw [after_append, hd, after_cons, step_blank (by decide), after_append,
          after_blanks hindent, after_identifier (identifierChar_of_identifier hname)]
      · rw [hsplit]
        simp
    · refine absurd ?_ (hno indent name.toList (rest ++ '\n' :: Text.unlines after) [] hindent
        (fun hm => hline (by simp [hm])) hname)
      simp

end Unheaded

/-- Behind a feed in a literal there is no head unless the line there is one. -/
theorem headless_of_literal {mark : Char} {body u v behind : Text} (hmark : isQuote mark)
    (h : mark :: (body ++ [mark]) = u ++ '\n' :: v)
    (hline : titleOf? ((v ++ behind).takeWhile (· ≠ '\n')) = none) : Headless v := by
  intro before name rest behind' hb hfeed hname he
  obtain ⟨w, rfl⟩ : ∃ w, v = w ++ [mark] := by
    have hlast := congrArg List.getLast? h
    rcases List.eq_nil_or_concat' v with rfl | ⟨w, c, rfl⟩
    · rw [← List.cons_append, List.getLast?_concat, List.getLast?_concat] at hlast
      obtain rfl := Option.some.inj hlast
      cases hmark
    · rw [← List.cons_append, List.getLast?_concat, ← List.cons_append, ← List.append_assoc,
        List.getLast?_concat] at hlast
      exact ⟨w, by rw [Option.some.inj hlast]⟩
  rw [List.append_assoc, List.singleton_append] at he
  rcases append_eq_append_cons he with ⟨x, rfl, -⟩ | ⟨_ | ⟨c, x⟩, hx, hrest⟩
  · have hwhole : before ++ name ++ ':' :: x ++ [mark] ++ behind =
        (before ++ name ++ [':']) ++ (x ++ mark :: behind) := by simp
    have hno : ∀ c ∈ before ++ name ++ [':'], decide (c ≠ '\n') = true := by
      have hfeed' : '\n' ∉ name := not_mem_of_identifier hname (by decide)
      simp only [List.mem_append, List.mem_singleton, decide_eq_true_eq]
      rintro c ((hc | hc) | hc) rfl
      · exact hfeed hc
      · exact hfeed' hc
      · cases hc
    rw [hwhole, List.takeWhile_append_of_pos hno] at hline
    have ht := titleOf?_indented hb hname ((x ++ mark :: behind).takeWhile (· ≠ '\n'))
    simp only [List.append_assoc, List.singleton_append] at hline ht
    cases hline.symm.trans ht
  · obtain ⟨rfl, -⟩ := List.cons.inj hrest
    cases hmark
  · obtain ⟨rfl, -⟩ := List.cons.inj hrest
    have hmark' : isBlank mark = false ∧ isIdentifierChar mark = false := by
      simp only [isQuote, Bool.or_eq_true, decide_eq_true_eq] at hmark
      rcases hmark with rfl | rfl <;> decide
    have hin : mark ∈ before ++ name := hx ▸ by simp
    rcases List.mem_append.1 hin with hin | hin
    · exact absurd (hb _ hin) (by simp [hmark'.1])
    · exact not_mem_of_identifier hname hmark'.2 hin

/-- An expression with blanks between words that are steady. -/
theorem unheaded_spread {spacing : Spacing} {size : Nat} {level : Level} {es : List Expression}
    {text : Text} (h : Spread Steady spacing size level es text)
    (hs : spacing.Le ⟨Blanks, Blanks, Blanks, Blanks⟩) : ∀ depth, Unheaded depth text := by
  have hmute {size level es text} (h : Spread Steady spacing size level es text) (depth : Nat) :
      Mute depth text := (h.imp (fun _ _ => And.left) ⟨id, id, id, id⟩ (Nat.le_refl _)).mute hs depth
  induction h with
  | leaf h => exact fun _ => .leaf h
  | @enclosed _ _ _ _ _ before text after henc hb hspread ha ih =>
    intro depth
    have hinner := ((Unheaded.blanks (hs.within hb)).append (ih (depth + 1))).append
      (Unheaded.blanks (hs.within ha))
    have hwhole := hmute (.enclosed henc hb hspread ha) depth
    cases henc <;> exact .enclosed (by decide) (by decide) rfl hinner hwhole
  | alone _ ih => exact ih
  | several _ _ ih => exact ih
  | cons _ hb _ ih ih' =>
    intro depth
    refine ((ih depth).append ?_).append (ih' depth)
    cases hb with
    | apart h => exact .blanks (hs.apart h)
    | bar hb ha =>
      have hbar : Unheaded depth ['|'] := ⟨.of_not_mem rfl (by decide), fun u v he =>
        absurd (show '\n' ∈ ['|'] from he ▸ by simp) (by decide)⟩
      exact (Unheaded.blanks (hs.beforeBar hb)).append (hbar.append (.blanks (hs.afterBar ha)))

def Parting (gap : Text) : Prop := gap ≠ [] ∧ Layout gap

section Bodies
variable {depth n : Nat} {body first : Text} {within : List Text}

theorem Bodied.unheaded (h : Bodied Steady Parting depth body) : Unheaded 0 body := by
  cases h with
  | nothing => exact .blanks Blanks.nil
  | expression hlead hspread =>
    exact (Unheaded.blanks hlead.blanks).append (unheaded_spread hspread
      ⟨fun h => h.2.blanks, Layout.blanks, Layout.blanks, Layout.blanks⟩ 0)

/-- What the loader puts together from the lines of a body is empty or compiles. -/
theorem Bodied.sound (h : Bodied Steady Parting depth body) (hclean : ∀ line ∈ within, Clean line)
    (hbody : body ++ List.replicate (n + 1) '\n' = Text.unlines (first :: within)) (name : String)
    (line : Nat) : (Block.ofLines name line
      (first.trimRight isBlank :: within.filterMap significant?)).Sound := by
  have hrefolds := @refolds_block within first hclean
  have hbreaks : Blanks (List.replicate (n + 1) '\n') := (layout_replicate _).blanks
  have hfeed : Blanks ['\n'] := by simp [Blanks, isBlank]
  rw [← hbody] at hrefolds
  rw [Block.Sound, Block.ofLines, ← Text.trim_padded Blanks.nil hfeed, List.nil_append]
  cases h with
  | nothing => exact .inl (Text.trim_eq_nil (hrefolds.blanks hbreaks))
  | expression hlead hspread =>
    have hlaid := (hspread.imp (fun _ _ => And.left) ⟨id, id, id, id⟩ (Nat.le_refl _)).laid
      ⟨fun h => ⟨h.1, h.2.blanks⟩, Layout.blanks, Layout.blanks, Layout.blanks⟩
    exact .inr (Rule.compile_refold hlead.blanks hlaid hbreaks hrefolds)

end Bodies

section Documents
variable {text : Text} {tree rule : ParseTree} {start next n : Nat} {lines : List Text}

theorem Steady.word {form : Leaf} {word : Text} (hword : isIdentifier word)
    (h : Terminal form word) : Steady form word := by
  have hfeed : '\n' ∉ word := not_mem_of_identifier hword (by decide)
  exact ⟨h, fun u v he => absurd (he ▸ by simp) hfeed⟩

theorem Tidy.regular (h : Tidy text tree) (hrule : rule ∈ rulesOf tree) :
    Regular text Steady Parting rule := by
  have hsub := Tree.subtrees_trans (List.mem_filter.1 hrule).1
  refine ⟨fun a ha b hb hna hnb hgap hle => ⟨h.apart a (hsub ha) b (hsub hb) hna hnb hle, hgap⟩,
    fun a ha hname ht => ?_, fun form word hform ht => ?_⟩
  · generalize hw : text.window (ParseTree.start a) (ParseTree.stop a) = word at ht ⊢
    cases ht with
    | reserved hr => exact .word (reserved_identifier hr) (.reserved hr)
    | @literal mark body hmark hbody =>
      refine ⟨.literal hmark hbody, fun u v he => ?_⟩
      have hlength := text.length_window (ParseTree.start a) (ParseTree.stop a)
      rw [hw, he, List.length_append, List.length_cons] at hlength
      have hdrop := text.drop_window (a := ParseTree.start a) (b := ParseTree.stop a) (by omega)
      rw [hw, he, List.append_assoc, List.cons_append] at hdrop
      have hline := h.literals a (hsub ha) hname (ParseTree.start a + u.length) (by omega) (by omega)
        (by rw [← List.getElem?_drop, hdrop]; simp)
      rw [Nat.add_assoc, ← List.drop_drop, hdrop, List.append_cons, List.drop_left' (by simp)] at hline
      exact headless_of_literal hmark he hline
  · cases ht with
    | literal => exact absurd rfl hform
    | reserved hr => exact .word (reserved_identifier hr) (.reserved hr)
    | reference hw hr => exact .word hw (.reference hw hr)

/-- With a colon right behind the name of a rule there is no gap between the two. -/
theorem Read.gap_nil {terminal : Leaf → Text → Prop} {apart : Text → Prop} {name gap body : Text}
    (h : Read text none (.rule "Rule") start rule)
    (hruled : Ruled text terminal apart rule name gap body)
    (hcolon : ∀ name ∈ (Tree.branches rule).head?.join, text[ParseTree.stop name]? = some ':') :
    gap = [] := by
  obtain ⟨t, rest, hbranches, hstart, hname⟩ := hruled.first
  have hcolon := hcolon t (by rw [hbranches]; rfl)
  obtain ⟨hlt, -⟩ := List.getElem?_eq_some_iff.1 hcolon
  have hcovered := hruled.covered
  rw [List.append_assoc] at hcovered
  obtain ⟨m, hm, hend, -, hrest⟩ := text.window_parts h.le h.stop_within hcovered
  have hlength := text.length_window (ParseTree.start t) (ParseTree.stop t)
  have hne : name.length ≠ 0 := by
    obtain ⟨c, tail, rfl, -⟩ := hruled.isName.start
    simp
  rw [hname] at hlength
  have hstop : ParseTree.stop t = m := by omega
  cases gap with
  | nil => rfl
  | cons c gap =>
    have hhead := text.head?_window (a := m) (b := rule.stop) (by simp at hend; omega)
    rw [hrest, ← hstop, hcolon] at hhead
    obtain rfl : c = ':' := Option.some.inj hhead
    exact absurd (hruled.spaces ':' List.mem_cons_self) (by decide)

/-- A rule of a tidy document is a block whose body is empty or compiles. -/
theorem Read.tidy_block (h : Read text none (.rule "Rule") start rule)
    (hregular : Regular text Steady Parting rule)
    (hcolon : ∀ name ∈ (Tree.branches rule).head?.join, text[ParseTree.stop name]? = some ':')
    (hnext : rule.stop ≤ next) (hbreaks : text.window rule.stop next = List.replicate n '\n')
    (hlines : text.drop start = Text.unlines lines) (hclean : ∀ line ∈ lines, Clean line) :
    ∃ head within after name words, lines = head :: (within ++ after) ∧
      titleOf? head = some (name, words) ∧ (∀ line ∈ within, titleOf? line = none) ∧
      text.drop next = Text.unlines after ∧
      ∀ number, (Block.ofLines name number (words :: within.filterMap significant?)).Sound := by
  obtain ⟨name, gap, body, hruled⟩ := h.ruled hregular
  obtain rfl := h.gap_nil hruled hcolon
  obtain ⟨rest, within, after, rfl, hrest, -, hafter⟩ :=
    h.rule_lines hruled hnext hbreaks hlines fun line hl => (hclean line hl).no_feed
  have hwithin (line : Text) (hl : line ∈ within) : Clean line :=
    hclean line (List.mem_cons_of_mem _ (List.mem_append_left _ hl))
  have hbodied : Bodied Steady Parting (Tree.height rule) body :=
    hruled.bodied (Nat.le_mul_of_pos_left _ (by decide))
  have hunheaded : Unheaded 0 (Text.unlines (rest :: within)) :=
    hrest ▸ hbodied.unheaded.append (.blanks (layout_replicate (n + 1)).blanks)
  refine ⟨_, within, after, String.ofList name, rest.trimRight isBlank, rfl, ?_,
    hunheaded.lines fun line hl => (hwithin line hl).no_feed, hafter,
    fun number => hbodied.sound hwithin hrest _ _⟩
  rw [List.append_nil]
  exact titleOf?_indented h.gap.layout.blanks (isIdentifier_of_isName hruled.isName) rest

/-- The rules of a tidy document are its blocks. -/
theorem tidy_blocks {rules : List ParseTree} (h : RulesFrom text start rules)
    (htidy : Tidy text tree) (hrules : rules ⊆ rulesOf tree)
    (hlines : text.drop start = Text.unlines lines) (hclean : ∀ line ∈ lines, Clean line) :
    HeadFirst lines ∧
      ∀ number, ∃ blocks, Block.Grouped number lines blocks ∧ ∀ b ∈ blocks, b.Sound := by
  induction h generalizing lines with
  | done hend =>
    rw [List.drop_eq_nil_of_le hend] at hlines
    rw [eq_nil_of_unlines hlines.symm]
    exact ⟨nofun, fun number => ⟨[], .nil nofun, nofun⟩⟩
  | next hread hnext hbreaks _ ih =>
    obtain ⟨hrule, hrules⟩ := List.cons_subset.1 hrules
    obtain ⟨head, within, after, name, words, rfl, hhead, hwithin, hafter, hsound⟩ :=
      hread.tidy_block (htidy.regular hrule) (htidy.heads _ hrule) hnext hbreaks hlines hclean
    obtain ⟨hfirst, hblocks⟩ := ih hrules hafter
      fun line hl => hclean line (List.mem_cons_of_mem _ (List.mem_append_right _ hl))
    refine ⟨?_, fun number => ?_⟩
    · rintro _ ⟨⟩
      rw [hhead]
      rfl
    · obtain ⟨blocks, hgrouped, hall⟩ := hblocks (number + 1 + within.length)
      refine ⟨_, @Block.Grouped.cons _ [] _ _ _ _ _ _ nofun hhead hwithin hfirst hgrouped, ?_⟩
      exact List.forall_mem_cons.2 ⟨hsound _, hall⟩

/-- A tidy document that the notation accepts is one that the loader reads: its lines come in
blocks, and the body of each is empty or compiles. -/
theorem blocks_of_tidy {filename : Option String} (hlint : lint text filename = .ok tree)
    (htidy : Tidy (normalize text) tree) :
    ∃ blocks, Block.ofDocument text.lines = .ok blocks ∧ ∀ b ∈ blocks, b.Sound := by
  obtain ⟨start, n, after, hrules, -, hafter, hlines⟩ := rules_of_lint hlint
  obtain ⟨-, hblocks⟩ := tidy_blocks hrules htidy (fun _ h => h) hafter fun line hl =>
    clean_cleanLines text line (hlines ▸ List.mem_append_right _ hl)
  obtain ⟨blocks, hgrouped, hsound⟩ := hblocks (1 + n)
  refine ⟨blocks, ?_, hsound⟩
  rw [← Block.ofDocument_cleanLines, Block.ofDocument, hlines, collectFrom_empty]
  exact hgrouped.collectFrom

def folded : Text := "A: 'x:\n y' B\n | [ C ]\n\nB:\n C: \"c\"\n".toList

theorem folded_loads : ∃ tree, lint folded none = .ok tree ∧ Tidy (normalize folded) tree ∧
    ∃ blocks, Block.ofDocument folded.lines = .ok blocks ∧ ∀ b ∈ blocks, b.Sound := by
  have htidy : (lint folded none).toOption.any fun tree => decide (Tidy (normalize folded) tree) := by
    decide +kernel
  cases ht : lint folded none with
  | error => rw [ht] at htidy; cases htidy
  | ok tree =>
    rw [ht] at htidy
    have htidy : Tidy (normalize folded) tree := of_decide_eq_true htidy
    exact ⟨tree, rfl, htidy, blocks_of_tidy ht htidy⟩

/-- Two operands that touch are two to the notation, and one word to the loader that is none. -/
def touching : Text := "A: B'x'\nB: 'y'\n".toList

theorem touching_refused : (∃ tree, lint touching none = .ok tree) ∧
    ¬ ∃ blocks, Block.ofDocument touching.lines = .ok blocks ∧ ∀ b ∈ blocks, b.Sound := by
  constructor
  · have hlint : (lint touching none).isOk := by decide +kernel
    cases ht : lint touching none with
    | error => rw [ht] at hlint; cases hlint
    | ok tree => exact ⟨tree, rfl⟩
  · rintro ⟨blocks, hblocks, hsound⟩
    have hfound : Block.ofDocument touching.lines =
        .ok [⟨"A", "B'x'".toList, 1⟩, ⟨"B", "'y'".toList, 2⟩] := by decide +kernel
    cases hfound.symm.trans hblocks
    rcases hsound _ List.mem_cons_self with hempty | ⟨rule, hrule⟩
    · cases hempty
    · have hrefused : (Rule.compile "B'x'".toList).isOk = false := by decide +kernel
      rw [show Rule.compile "B'x'".toList = .ok rule from hrule] at hrefused
      cases hrefused

end Documents
end OrderedBnf.MetaGrammar
