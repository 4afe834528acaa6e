import OrderedBnf.Proofs.NotationRules
import OrderedBnf.Proofs.OffsetWalk
import OrderedBnf.Proofs.Spacing
import OrderedBnf.Proofs.Fitting
import OrderedBnf.Proofs.Words

/-! Documents as the notation reads them: each body is an expression with blanks between its words,
if perhaps with none between two operands. -/
namespace OrderedBnf.MetaGrammar
open Reader

section Reading
variable (text : Text)

structure Read (title : Option String) (sketch : Sketch) (start : Nat) (tree : ParseTree) :
    Prop where
  within : start ≤ text.length
  fits : ∃ rule, rule.is title sketch ∧ (language.reader text).Fits rule start tree

inductive ReadAll : List Sketch → Nat → List ParseTree → Prop
  | nil {start} : ReadAll [] start []
  | cons {sketch sketches start tree trees} : Read text none sketch start tree →
      ReadAll sketches tree.stop trees → ReadAll (sketch :: sketches) start (tree :: trees)

inductive ReadRounds (sketch : Sketch) : Nat → List ParseTree → Prop
  | nil {start} : ReadRounds sketch start []
  | cons {start tree trees} : Read text none sketch start tree →
      ReadRounds sketch tree.stop trees → ReadRounds sketch start (tree :: trees)

end Reading

variable {text : Text} {title : Option String} {sketch : Sketch} {sketches : List Sketch}
  {name : String} {start : Nat} {tree : ParseTree} {trees : List ParseTree}

theorem Read.sits (h : Read text title sketch start tree) :
    (language.reader text).Sits start tree := by
  obtain ⟨hs, _, -, hf⟩ := h
  exact hf.sits (advances text) hs

/-- What is skipped before a tree is a text of spaces and tabs. -/
theorem Read.gap (h : Read text title sketch start tree) :
    Spaces (text.window start tree.start) := by
  obtain ⟨hs, _, -, hf⟩ := h
  refine hf.skipped Spaces.nil (fun {start i} _ hi _ => ?_) hs
  have hi : skipWhile (fun c => c = ' ' || c = '\t') text start text.length = .ok i := hi
  rw [skipWhile_eq] at hi
  cases hi
  intro c hc
  rw [Text.window, Nat.add_sub_cancel_left] at hc
  replace hc : c ∈ (text.drop start).take _ := hc
  rw [take_takeWhile] at hc
  simpa using List.mem_takeWhile_imp hc

theorem Read.le (h : Read text title sketch start tree) : tree.start ≤ tree.stop := h.sits.le

theorem Read.ahead (h : Read text title sketch start tree) : start ≤ tree.start := h.sits.ahead

theorem Read.stop_within (h : Read text title sketch start tree) : tree.stop ≤ text.length :=
  h.sits.within

section Inversion

/-- A tree of a rule is read as what its name stands for. -/
theorem Read.rule (hs : MetaGrammar.sketches.lookup name = some (some sketch))
    (h : Read text title (.rule name) start tree) : Read text (some name) sketch start tree := by
  obtain ⟨hstart, rule, his, hf⟩ := h
  obtain ⟨o, rfl, rfl⟩ := Rule.is_rule his
  obtain ⟨body, hb, hbody⟩ := body?_of_sketch hs
  have hb : (language.reader text).grammar.body? (Rule.leaf .reference o).target = _ := hb
  cases hf with
  | intro hf =>
    cases hf with
    | leaf hm =>
      cases hm with
      | extension hb' =>
        rw [hb] at hb'
        cases hb'
    | reference hb' hf =>
      rw [hb] at hb'
      cases hb'
      exact ⟨hstart, body, hbody, hf⟩
    | node hb => cases hb

theorem ReadAll.of_row {rules : List Rule} (hrow : Row (language.reader text).Fits rules start trees)
    (his : Rule.areAll sketches rules) (hs : start ≤ text.length) :
    ReadAll text sketches start trees := by
  induction hrow generalizing sketches with
  | nil =>
    cases sketches with
    | nil => exact .nil
    | cons => cases his
  | cons hf _ ih =>
    cases sketches with
    | nil => cases his
    | cons sketch sketches =>
      rw [Rule.areAll, Bool.and_eq_true] at his
      have hr : Read text none sketch _ _ := ⟨hs, _, his.1, hf⟩
      exact .cons hr (ih his.2 hr.stop_within)

theorem ReadRounds.of_rounds {body : Rule}
    (h : Rounds (language.reader text).Fits start body trees) (his : body.is none sketch)
    (hs : start ≤ text.length) : ReadRounds text sketch start trees := by
  induction h with
  | nil => exact .nil
  | cons hf _ _ ih =>
    have hr : Read text none sketch _ _ := ⟨hs, _, his, hf⟩
    exact .cons hr (ih his hr.stop_within)

/-- A tree of a sequence has its first part in front of those of the rest. -/
theorem Read.sequence (h : Read text title (.sequence (sketch :: sketches)) start tree) :
    ∃ (m : Match) (t : ParseTree) (ts : List ParseTree),
      tree = .node m (some t :: ts.map some) ∧ m.ruleName? = title ∧
      m.start = t.start ∧ m.stop = lastStop t.stop ts ∧ Read text none sketch start t ∧
      ReadAll text sketches t.stop ts := by
  obtain ⟨hs, rule, his, hf⟩ := h
  obtain ⟨rules, o, rfl, htitle, hrules⟩ := Rule.is_sequence his
  obtain ⟨first, rest, rfl, hfirst, hrest⟩ := Rule.areAll_cons hrules
  obtain ⟨m, t, ts, rfl, -, hr, hstart, hstop, hf, hrow⟩ := fits_sequence hf
  have hread : Read text none sketch start t := ⟨hs, first, hfirst, hf⟩
  exact ⟨m, t, ts, rfl, (congrArg Rule.name? hr).trans htitle, hstart, hstop, hread,
    .of_row hrow hrest hread.stop_within⟩

/-- A tree of a choice has one branch that is not absent. -/
theorem Read.choice (h : Read text title (.choice sketches) start tree) :
    ∃ (m : Match) (front back : Nat) (t : ParseTree),
      tree = .node m (List.replicate front none ++ some t :: List.replicate back none) ∧
      m.ruleName? = title ∧ m.start = t.start ∧ m.stop = t.stop ∧
      ∃ sketch ∈ sketches, Read text none sketch start t := by
  obtain ⟨hs, rule, his, hf⟩ := h
  obtain ⟨rules, o, rfl, htitle, hrules⟩ := Rule.is_choice his
  obtain ⟨m, before, after, alternative, t, rfl, rfl, -, hr, hstart, hstop, hf⟩ := fits_choice hf
  obtain ⟨sketch, hm, his⟩ := Rule.mem_of_areAll hrules alternative (by simp)
  exact ⟨m, before.length, after.length, t, by simp [List.map_const'],
    (congrArg Rule.name? hr).trans htitle, hstart, hstop, sketch, hm, hs, alternative, his, hf⟩

/-- A tree of an optional is empty or holds its body. -/
theorem Read.optional (h : Read text title (.optional sketch) start tree) :
    (∃ m : Match, tree = .node m [] ∧ m.ruleName? = title ∧ m.start = start ∧ m.stop = start) ∨
    ∃ (m : Match) (t : ParseTree), tree = .node m [some t] ∧ m.ruleName? = title ∧
      m.start = t.start ∧ m.stop = t.stop ∧
      Read text none sketch start t := by
  obtain ⟨hs, rule, his, hf⟩ := h
  obtain ⟨body, o, rfl, htitle, hbody⟩ := Rule.is_optional his
  rcases fits_optional hf with ⟨m, rfl, -, hr, hstart, hstop⟩ | ⟨m, t, rfl, -, hr, hstart, hstop, hf⟩
  · exact .inl ⟨m, rfl, (congrArg Rule.name? hr).trans htitle, hstart, hstop⟩
  · exact .inr ⟨m, t, rfl, (congrArg Rule.name? hr).trans htitle, hstart, hstop, hs, body, hbody, hf⟩

/-- A tree of a repetition holds its rounds. -/
theorem Read.repetition (h : Read text title (.repetition sketch) start tree) :
    ∃ (m : Match) (ts : List ParseTree), tree = .node m (ts.map some) ∧ m.ruleName? = title ∧
      Spans m start ts ∧
      ReadRounds text sketch start ts := by
  obtain ⟨hs, rule, his, hf⟩ := h
  obtain ⟨body, o, rfl, htitle, hbody⟩ := Rule.is_repetition his
  obtain ⟨m, ts, rfl, -, hr, hspan, hrounds⟩ := fits_repetition hf
  exact ⟨m, ts, rfl, (congrArg Rule.name? hr).trans htitle, hspan, .of_rounds hrounds hbody hs⟩

/-- A tree of a word covers that word. -/
theorem Read.word {word : Text} (h : Read text title (.word word) start tree) (hne : word ≠ []) :
    text.window tree.start tree.stop = word ∧ Tree.branches tree = [] ∧
      (Tree.label tree).ruleName? = title := by
  obtain ⟨hs, rule, his, hf⟩ := h
  have htitle := Rule.name?_of_is his
  obtain ⟨o, rfl, rfl⟩ := Rule.is_word his
  cases hf with
  | intro hf =>
    cases hf with
    | leaf hm =>
      cases hm with
      | nothing hnil => exact absurd hnil hne
      | literal hword _ h => exact ⟨hword ▸ h.covered, rfl, htitle⟩
    | node hb => cases hb

/-- An identifier of the notation goes on for as long as it can. -/
theorem Read.identifier (h : Read text title .name start tree) : ∃ word,
    text.window tree.start tree.stop = word ∧ language.lexis.IsName word ∧
      (text.drop tree.stop).head?.any isIdentifierChar = false ∧ Tree.branches tree = [] ∧
      (Tree.label tree).ruleName? = title := by
  obtain ⟨hs, rule, his, hf⟩ := h
  have htitle := Rule.name?_of_is his
  obtain ⟨o, rfl⟩ := Rule.is_name his
  cases hf with
  | intro hf =>
    cases hf with
    | leaf hm =>
      cases hm with
      | @anyIdentifier _ _ i c rest word hword hc hrest h hnext hkey =>
        refine ⟨word, h.covered, ⟨⟨c, rest, hword, hc, hrest⟩, hkey⟩, ?_, rfl, htitle⟩
        exact (congrArg (fun rest : Text => rest.head?.any isIdentifierChar)
          (text.window_length _)).symm.trans hnext
    | node hb => cases hb

/-- A tree of a token covers an escaped text between quotes. -/
theorem Read.token (h : Read text title .token start tree) : ∃ body,
    text.window tree.start tree.stop = '\'' :: (body ++ ['\'']) ∧ Escaped '\'' body ∧
      Tree.branches tree = [] ∧ (Tree.label tree).ruleName? = title := by
  obtain ⟨hs, rule, his, hf⟩ := h
  have htitle := Rule.name?_of_is his
  obtain ⟨o, rfl⟩ := Rule.is_token his
  cases hf with
  | intro hf =>
    cases hf with
    | leaf hm =>
      cases hm with
      | anyToken hword hbody h => exact ⟨_, hword ▸ h.covered, hbody, rfl, htitle⟩
    | node hb => cases hb

/-- A tree of a line break covers one line feed, right where it is asked for. -/
theorem Read.newLine (h : Read text title .newLine start tree) :
    tree.start = start ∧ tree.stop = start + 1 ∧ text.window start (start + 1) = ['\n'] ∧
      (Tree.label tree).ruleName? = title := by
  obtain ⟨hs, rule, his, hf⟩ := h
  have htitle := Rule.name?_of_is his
  obtain ⟨o, rfl⟩ := Rule.is_newLine his
  cases hf with
  | intro hf =>
    cases hf with
    | leaf hm =>
      cases hm with
      | newLine _ hbreak =>
        refine ⟨rfl, rfl, ?_, htitle⟩
        have hget : text[start]? = some '\n' := hbreak
        obtain ⟨hlt, hc⟩ := List.getElem?_eq_some_iff.1 hget
        rw [Text.window, Nat.add_sub_cancel_left, List.drop_eq_getElem_cons hlt, hc]
        rfl
    | node hb => cases hb

/-- What an extension point found. -/
theorem Read.extension (hs : MetaGrammar.sketches.lookup name = some none)
    (h : Read text title (.rule name) start tree) : ∃ found,
    tree.start < text.length ∧
      Scanner.byName scanners name text tree.start text.length = .ok (some found) ∧
      found.stop = tree.stop ∧ Tree.branches tree = [] ∧
      (Tree.label tree).ruleName? = title := by
  obtain ⟨hstart, rule, his, hf⟩ := h
  have htitle := Rule.name?_of_is his
  obtain ⟨o, rfl, rfl⟩ := Rule.is_rule his
  have hb := body?_extension hs
  cases hf with
  | intro hf =>
    cases hf with
    | leaf hm =>
      cases hm with
      | extension _ _ hlt hle hfound _ hstop =>
        exact ⟨_, Nat.lt_of_lt_of_le hlt hle, hfound, hstop, rfl, htitle⟩
    | reference hb' =>
      have hb' : grammar.body? (Rule.leaf .reference o).target = _ := hb'
      rw [hb] at hb'
      cases hb'
    | node hb => cases hb

/-- A continuation covers a line break and the blanks up to what continues the line. -/
theorem Read.continuation (h : Read text title (.rule "Continuation") start tree) : ∃ gap rest,
    text.drop tree.start = '\n' :: (gap ++ rest) ∧ Layout gap ∧ continues rest ∧
      tree.stop = tree.start + 1 + gap.length := by
  obtain ⟨found, hlt, hfound, hstop, -⟩ := h.extension rfl
  obtain ⟨gap, rest, hdrop, hgap, hcontinues, rfl⟩ := continuation_found hlt hfound
  exact ⟨gap, rest, hdrop, hgap, hcontinues, (Int.ofNat_inj.1 hstop).symm⟩

/-- A tree of a quoted text covers an escaped text between double quotes. -/
theorem Read.quoted (h : Read text title (.rule "DoubleQuoted") start tree) : ∃ body,
    text.window tree.start tree.stop = '"' :: (body ++ ['"']) ∧ Escaped '"' body ∧
      Tree.branches tree = [] ∧ (Tree.label tree).ruleName? = title := by
  obtain ⟨found, hlt, hfound, hstop, hleaf⟩ := h.extension rfl
  obtain ⟨c, rest, hdrop⟩ :=
    List.exists_cons_of_ne_nil (by simpa using hlt : text.drop tree.start ≠ [])
  change Quotation.scanner '"' text tree.start text.length = _ at hfound
  rw [Quotation.scanner_eq hdrop] at hfound
  split at hfound
  · cases hfound
  · rename_i hc
    split at hfound
    · rename_i i close hi
      split at hfound
      · cases hfound
      · rename_i hclose
        obtain ⟨body, after, rfl, hmark, hbody, rfl⟩ := @unescaped_escaped _ '"' (by simp) _ _ _ _ hi
        cases hfound
        obtain rfl : close = '"' := by simpa [hclose] using hmark
        obtain rfl : c = '"' := Decidable.not_not.1 hc
        refine ⟨body, ?_, hbody, hleaf⟩
        have hlength : tree.stop - tree.start = body.length + 2 := by
          have := Int.ofNat_inj.1 hstop
          omega
        rw [Text.window, hdrop, hlength]
        simp [List.take_append]
    · split at hfound <;> cases hfound

end Inversion
/-- A tree of a document whose literals and whose gaps between operands are of a certain kind. -/
structure Regular (text : Text) (terminal : Leaf → Text → Prop) (apart : Text → Prop)
    (tree : ParseTree) : Prop where
  apart : ∀ a ∈ Tree.subtrees tree, ∀ b ∈ Tree.subtrees tree,
    (Tree.label a).ruleName? = some "Atom" → (Tree.label b).ruleName? = some "Atom" →
    Layout (text.window (ParseTree.stop a) (ParseTree.start b)) →
    ParseTree.stop a ≤ ParseTree.start b →
    apart (text.window (ParseTree.stop a) (ParseTree.start b))
  literal : ∀ a ∈ Tree.subtrees tree, (Tree.label a).ruleName? = some "Literal" →
    Terminal .literal (text.window (ParseTree.start a) (ParseTree.stop a)) →
    terminal .literal (text.window (ParseTree.start a) (ParseTree.stop a))
  word : ∀ form word, form ≠ .literal → Terminal form word → terminal form word

theorem Regular.mono {text : Text} {terminal : Leaf → Text → Prop} {apart : Text → Prop}
    {t tree : ParseTree} (h : Regular text terminal apart tree)
    (ht : Tree.subtrees t ⊆ Tree.subtrees tree) : Regular text terminal apart t where
  apart a ha b hb := h.apart a (ht ha) b (ht hb)
  literal a ha := h.literal a (ht ha)
  word := h.word

theorem Regular.branch {text : Text} {terminal : Leaf → Text → Prop} {apart : Text → Prop}
    {t tree : ParseTree} (h : Regular text terminal apart tree)
    (ht : some t ∈ Tree.branches tree) : Regular text terminal apart t :=
  h.mono (Tree.subtrees_subset ht)

def spacing (apart : Text → Prop) : Spacing := ⟨apart, Layout, Layout, Layout⟩

theorem window_cons {a b c : Nat} {word rest : Text} (hab : a ≤ b) (hbc : b ≤ c)
    (h : text.window a b = word) (h' : text.window b c = rest) :
    text.window a c = word ++ rest := by
  rw [text.window_append hab hbc, h, h']

section Spreading
variable (text) (terminal : Leaf → Text → Prop) (apart : Text → Prop)

/-- Every tree of a rule up to a height covers an expression of a level, up to a number of brackets
around its words. -/
def Spreads (height depth : Nat) (name : String) (level : Level) : Prop :=
  ∀ ⦃start⦄ ⦃tree : ParseTree⦄, Tree.height tree ≤ height → Read text none (.rule name) start tree →
    Regular text terminal apart tree →
    ∃ e, Spread terminal (spacing apart) depth level [e] (text.window tree.start tree.stop)

variable {text terminal apart} {height depth : Nat}

theorem reserved_of_keyword {word : Text} (h : language.lexis.isKeyword word = false) :
    Rule.reserved? word = none := by
  have h : reservedWords.contains word = false := h
  rw [Rule.reserved?]
  split
  · simp_all [reservedWords]
  · split
    · simp_all [reservedWords]
    · split
      · simp_all [reservedWords]
      · rfl

theorem isIdentifier_of_isName {word : Text} (h : language.lexis.IsName word) :
    isIdentifier word := by
  obtain ⟨c, rest, rfl, hc, hrest⟩ := h.start
  simp only [isIdentifier, List.isEmpty_cons, Bool.not_false, Bool.true_and, List.all_cons,
    Bool.and_eq_true, List.all_eq_true]
  exact ⟨identifierChar_of_start hc, hrest⟩

/-- The words of a pair of brackets with an expression between them. -/
theorem enclosed_spreads (hexpr : Spreads text terminal apart height depth "Expression" .choice)
    {opening closing : Char} (hencloses : ∀ e, ∃ e', Encloses opening closing e e')
    (hheight : Tree.height tree ≤ height + 1)
    (h : Read text title (.sequence [.word [opening], .rule "Expression", .word [closing]])
      start tree) (hregular : Regular text terminal apart tree) :
    ∃ e, Spread terminal (spacing apart) (depth + 1) .operand [e]
      (text.window tree.start tree.stop) := by
  obtain ⟨m, first, ts, rfl, -, hstart, hstop, hfirst, hrest⟩ := h.sequence
  cases hrest with
  | @cons _ _ _ body _ hbody hrest =>
    cases hrest with
    | @cons _ _ _ last _ hlast hrest =>
      cases hrest
      have hmem : some body ∈ Tree.branches (.node m (some first :: [body, last].map some)) := by
        simp [Tree.branches]
      have hlow := Nat.le_of_lt_succ (Nat.lt_of_lt_of_le (Tree.height_branch_lt hmem) hheight)
      obtain ⟨e, he⟩ := hexpr hlow
        hbody (hregular.branch hmem)
      obtain ⟨e', henc⟩ := hencloses e
      have hspread := Spread.enclosed henc hbody.gap.layout he hlast.gap.layout
      refine ⟨e', ?_⟩
      have hwindow : text.window m.start m.stop = opening :: (text.window first.stop body.start ++
          text.window body.start body.stop ++ text.window body.stop last.start ++ [closing]) := by
        have h₁ := (hfirst.word (List.cons_ne_nil _ _)).1
        have h₂ := (hlast.word (List.cons_ne_nil _ _)).1
        rw [hstart, show m.stop = last.stop from hstop]
        have := hfirst.le
        have := hbody.ahead
        have := hbody.le
        have := hlast.ahead
        have := hlast.le
        rw [text.window_append (b := first.stop) (by omega) (by omega), h₁,
          text.window_append (b := body.start) (by omega) (by omega),
          text.window_append (a := body.start) (b := body.stop) (by omega) (by omega),
          text.window_append (a := body.stop) (b := last.start) (by omega) (by omega), h₂]
        simp
      exact hwindow ▸ hspread

/-- What is read as a literal is a literal terminal. -/
theorem Read.literal (h : Read text title (.rule "Literal") start tree) :
    (Tree.label tree).ruleName? = some "Literal" ∧
      Terminal .literal (text.window tree.start tree.stop) := by
  obtain ⟨m, front, back, t, rfl, htitle, hstart, hstop, sketch, hm, ht⟩ := (h.rule rfl).choice
  refine ⟨htitle, ?_⟩
  change Terminal .literal (text.window m.start m.stop)
  rw [hstart, hstop]
  simp only [List.mem_cons, List.not_mem_nil, or_false] at hm
  rcases hm with rfl | rfl
  · obtain ⟨body, hword, hbody, -⟩ := ht.token
    exact hword ▸ .literal rfl hbody
  · obtain ⟨body, hword, hbody, -⟩ := ht.quoted
    exact hword ▸ .literal rfl hbody

/-- What is read as a reserved word is a terminal, and no literal. -/
theorem Read.reserved (h : Read text title (.rule "Reserved") start tree) :
    ∃ form, form ≠ .literal ∧ Terminal form (text.window tree.start tree.stop) := by
  obtain ⟨m, front, back, t, rfl, -, hstart, hstop, sketch, hm, ht⟩ := (h.rule rfl).choice
  change ∃ form, form ≠ .literal ∧ Terminal form (text.window m.start m.stop)
  rw [hstart, hstop]
  simp only [List.mem_cons, List.not_mem_nil, or_false] at hm
  rcases hm with rfl | rfl | rfl
  · exact ⟨.anyToken, by decide, (ht.word (by decide)).1 ▸ .reserved rfl⟩
  · exact ⟨.anyIdentifier, by decide, (ht.word (by decide)).1 ▸ .reserved rfl⟩
  · exact ⟨.newLine, by decide, (ht.word (by decide)).1 ▸ .reserved rfl⟩

theorem atom_spreads (hexpr : Spreads text terminal apart height depth "Expression" .choice) :
    Spreads text terminal apart (height + 2) (depth + 1) "Atom" .operand := by
  intro start tree hheight h hregular
  obtain ⟨m, front, back, t, rfl, -, hstart, hstop, sketch, hm, ht⟩ := (h.rule rfl).choice
  have hmem : some t ∈ Tree.branches (.node m (List.replicate front none ++ some t ::
      List.replicate back none)) := by simp [Tree.branches]
  have hle := Nat.le_of_lt_succ (Nat.lt_of_lt_of_le (Tree.height_branch_lt hmem) hheight)
  replace hregular := hregular.branch hmem
  change ∃ e, Spread terminal (spacing apart) (depth + 1) .operand [e] (text.window m.start m.stop)
  rw [hstart, hstop]
  simp only [List.mem_cons, List.not_mem_nil, or_false] at hm
  rcases hm with rfl | rfl | rfl | rfl | rfl | rfl
  · obtain ⟨hname, hword⟩ := ht.literal
    exact ⟨_, .leaf (hregular.literal t (Tree.self_mem_subtrees t) hname hword)⟩
  · exact enclosed_spreads hexpr (fun e => ⟨e, .group⟩) hle (ht.rule rfl) hregular
  · exact enclosed_spreads hexpr (fun e => ⟨_, .optional⟩) hle (ht.rule rfl) hregular
  · exact enclosed_spreads hexpr (fun e => ⟨_, .repetition⟩) hle (ht.rule rfl) hregular
  · obtain ⟨form, hform, hword⟩ := ht.reserved
    exact ⟨_, .leaf (hregular.word form _ hform hword)⟩
  · obtain ⟨word, hword, hname, -⟩ := ht.identifier
    rw [hword]
    exact ⟨_, .leaf (hregular.word .reference _ (by decide)
      (.reference (isIdentifier_of_isName hname) (reserved_of_keyword hname.free)))⟩

/-- A continuation is blank, with what is skipped before it. -/
theorem Read.continuation_layout (h : Read text title (.rule "Continuation") start tree) :
    start ≤ tree.stop ∧ Layout (text.window start tree.stop) := by
  obtain ⟨gap, rest, hdrop, hgap, -, hstop⟩ := h.continuation
  have hbreak : text.window tree.start tree.stop = '\n' :: gap := by
    rw [Text.window, hdrop, hstop, Nat.add_assoc, Nat.add_sub_cancel_left, Nat.add_comm 1,
      List.take_succ_cons, List.take_left]
  have := h.ahead
  refine ⟨by omega, ?_⟩
  rw [text.window_append h.ahead h.le, hbreak]
  refine List.forall_mem_append.2 ⟨h.gap.layout, List.forall_mem_cons.2 ⟨.inr (.inr rfl), hgap⟩⟩

theorem Read.optional_continuation
    (h : Read text title (.optional (.rule "Continuation")) start tree) :
    start ≤ tree.stop ∧ Layout (text.window start tree.stop) := by
  rcases h.optional with ⟨m, rfl, -, -, hstop⟩ | ⟨m, t, rfl, -, -, hstop, ht⟩
  · change start ≤ m.stop ∧ Layout (text.window start m.stop)
    rw [hstop, text.window_self]
    exact ⟨Nat.le_refl _, fun _ hc => absurd hc List.not_mem_nil⟩
  · change start ≤ m.stop ∧ Layout (text.window start m.stop)
    rw [hstop]
    exact ht.continuation_layout

theorem ReadRounds.newLines (h : ReadRounds text .newLine start trees) :
    start ≤ lastStop start trees ∧
      text.window start (lastStop start trees) = List.replicate trees.length '\n' := by
  induction h with
  | nil => exact ⟨Nat.le_refl _, text.window_self _⟩
  | @cons start tree trees h _ ih =>
    obtain ⟨-, hstop, hbreak, -⟩ := h.newLine
    obtain ⟨hle, hrest⟩ := ih
    rw [lastStop_cons]
    rw [hstop] at hle hrest ⊢
    exact ⟨Nat.le_of_succ_le hle, window_cons (Nat.le_succ _) hle hbreak hrest⟩

theorem Read.newLines (h : Read text title (.repetition .newLine) start tree) :
    start ≤ tree.stop ∧ ∃ n, text.window start tree.stop = List.replicate n '\n' := by
  obtain ⟨m, ts, rfl, -, hspan, hrounds⟩ := h.repetition
  change start ≤ m.stop ∧ ∃ n, text.window start m.stop = _
  rw [show m.stop = lastStop start ts from hspan.2]
  obtain ⟨hle, hwindow⟩ := hrounds.newLines
  exact ⟨hle, _, hwindow⟩

theorem layout_replicate (n : Nat) : Layout (List.replicate n '\n') :=
  fun _ hc => .inr (.inr (List.eq_of_mem_replicate hc))

structure Follows (text : Text) (name : String) (between : Text → Prop) (start : Nat)
    (tree operand : ParseTree) : Prop where
  read : ∃ start', Read text none (.rule name) start' operand
  ahead : start ≤ operand.start
  stop : operand.stop = tree.stop
  between : between (text.window start operand.start)
  lower : Tree.height operand < Tree.height tree
  subset : Tree.subtrees operand ⊆ Tree.subtrees tree

theorem Read.next_atom (h : Read text title (.choice [.rule "Atom",
      .sequence [.rule "Continuation", .rule "Atom"]]) start tree) :
    ∃ atom, Follows text "Atom" Layout start tree atom := by
  obtain ⟨m, front, back, t, rfl, -, hstart, hstop, sketch, hm, ht⟩ := h.choice
  have hmem : some t ∈ Tree.branches (.node m (List.replicate front none ++ some t ::
      List.replicate back none)) := by simp [Tree.branches]
  have hlt := Tree.height_branch_lt hmem
  have hsub := Tree.subtrees_subset hmem
  simp only [List.mem_cons, List.not_mem_nil, or_false] at hm
  rcases hm with rfl | rfl
  · exact ⟨t, ⟨start, ht⟩, ht.ahead, hstop.symm, ht.gap.layout, hlt, hsub⟩
  · obtain ⟨m', c, ts, rfl, -, -, hstop', hc, hrest⟩ := ht.sequence
    cases hrest with
    | @cons _ _ _ atom _ hatom hrest =>
      cases hrest
      have hmem' : some atom ∈ Tree.branches (.node m' (some c :: [atom].map some)) := by
        simp [Tree.branches]
      obtain ⟨hle, hlayout⟩ := hc.continuation_layout
      refine ⟨atom, ⟨_, hatom⟩, Nat.le_trans hle hatom.ahead, ?_, ?_,
        (Tree.height_branch_lt hmem').trans hlt, fun _ h => hsub (Tree.subtrees_subset hmem' h)⟩
      · exact (show m'.stop = atom.stop from hstop').symm.trans hstop.symm
      · rw [text.window_append hle hatom.ahead]
        exact List.forall_mem_append.2 ⟨hlayout, hatom.gap.layout⟩

def Barred (gap : Text) : Prop :=
  ∃ before after, Layout before ∧ Layout after ∧ gap = before ++ '|' :: after

theorem Read.next_sequence (h : Read text title (.rule "Alternative") start tree) :
    ∃ sequence, Follows text "Sequence" Barred start tree sequence := by
  obtain ⟨m, breaks, ts, rfl, -, -, hstop, hbreaks, hrest⟩ := (h.rule rfl).sequence
  cases hrest with
  | @cons _ _ _ bar _ hbar hrest =>
    cases hrest with
    | @cons _ _ _ continued _ hcontinued hrest =>
      cases hrest with
      | @cons _ _ _ sequence _ hsequence hrest =>
        cases hrest
        have hmem : some sequence ∈ Tree.branches (.node m (some breaks ::
            [bar, continued, sequence].map some)) := by simp [Tree.branches]
        obtain ⟨hle, n, hnewLines⟩ := hbreaks.newLines
        obtain ⟨hle', hlayout⟩ := hcontinued.optional_continuation
        have hword := (hbar.word (List.cons_ne_nil _ _)).1
        have hle₁ := Nat.le_trans hle hbar.ahead
        have hle₂ := Nat.le_trans hle' hsequence.ahead
        refine ⟨sequence, ⟨_, hsequence⟩, Nat.le_trans hle₁ (Nat.le_trans hbar.le hle₂),
          hstop.symm, ⟨text.window start bar.start, text.window bar.stop sequence.start, ?_, ?_, ?_⟩,
          Tree.height_branch_lt hmem, Tree.subtrees_subset hmem⟩
        · rw [text.window_append hle hbar.ahead, hnewLines]
          exact List.forall_mem_append.2 ⟨layout_replicate n, hbar.gap.layout⟩
        · rw [text.window_append hle' hsequence.ahead]
          exact List.forall_mem_append.2 ⟨hlayout, hsequence.gap.layout⟩
        · rw [text.window_append hle₁ (Nat.le_trans hbar.le hle₂),
            text.window_append hbar.le hle₂, hword]
          rfl

theorem atom_named (h : Read text title (.rule "Atom") start tree) :
    (Tree.label tree).ruleName? = some "Atom" := by
  obtain ⟨m, front, back, t, rfl, hname, -⟩ := (h.rule rfl).choice
  exact hname

/-- Operands in a row, from one on that is known to cover an expression. -/
theorem rounds_spread {operator : Operator} {operandName : String} {round : Sketch}
    {between : Text → Prop} {whole : ParseTree}
    (hoperand : Spreads text terminal apart height depth operandName operator.tighter)
    (hround : ∀ ⦃start tree⦄, Read text none round start tree →
      ∃ operand, Follows text operandName between start tree operand)
    (hbetween : ∀ a ∈ Tree.subtrees whole, ∀ b ∈ Tree.subtrees whole,
      (∃ start, Read text none (.rule operandName) start a) →
      (∃ start, Read text none (.rule operandName) start b) → ParseTree.stop a ≤ ParseTree.start b →
      between (text.window (ParseTree.stop a) (ParseTree.start b)) →
      (spacing apart).Between operator (text.window (ParseTree.stop a) (ParseTree.start b)))
    (hregular : Regular text terminal apart whole) (hrounds : ReadRounds text round start trees)
    (hheight : ∀ t ∈ trees, Tree.height t ≤ height)
    (hsub : ∀ t ∈ trees, Tree.subtrees t ⊆ Tree.subtrees whole) :
    ∀ {first : ParseTree}, first.stop = start → first ∈ Tree.subtrees whole →
      (∃ start, Read text none (.rule operandName) start first) →
      (∃ e, Spread terminal (spacing apart) depth operator.tighter [e]
        (text.window first.start first.stop)) →
      first.start ≤ lastStop start trees ∧
      ∃ es, Spread terminal (spacing apart) depth operator.level es
        (text.window first.start (lastStop start trees)) := by
  induction hrounds with
  | @nil start =>
    rintro first rfl - ⟨_, hread⟩ ⟨e, he⟩
    exact ⟨hread.le, [e], .alone he⟩
  | @cons start tree trees hread _ ih =>
    rintro first rfl hfirst ⟨s, hfirstRead⟩ ⟨e, he⟩
    obtain ⟨operand, hf⟩ := hround hread
    obtain ⟨s', hoperandRead⟩ := hf.read
    have hmem := hf.subset (Tree.self_mem_subtrees operand)
    have hwhole := hsub tree List.mem_cons_self hmem
    have hspread := hoperand (Nat.le_of_lt (Nat.lt_of_lt_of_le hf.lower
      (hheight tree List.mem_cons_self))) hoperandRead
      (hregular.mono fun _ h => hsub tree List.mem_cons_self (hf.subset h))
    obtain ⟨hle, es, hes⟩ := ih (fun t ht => hheight t (List.mem_cons_of_mem _ ht))
      (fun t ht => hsub t (List.mem_cons_of_mem _ ht)) hf.stop hwhole ⟨s', hoperandRead⟩ hspread
    rw [lastStop_cons]
    refine ⟨Nat.le_trans hfirstRead.le (Nat.le_trans hf.ahead hle), e :: es, ?_⟩
    rw [text.window_append hfirstRead.le (Nat.le_trans hf.ahead hle),
      text.window_append hf.ahead hle, ← List.append_assoc]
    exact .cons he (hbetween first hfirst operand hwhole ⟨s, hfirstRead⟩ ⟨s', hoperandRead⟩ hf.ahead
      hf.between) hes

/-- A rule for an operand and rounds that each add one. -/
theorem operands_spread (operator : Operator) {name operandName : String} {round : Sketch}
    {between : Text → Prop}
    (hs : MetaGrammar.sketches.lookup name =
      some (some (.sequence [.rule operandName, .repetition round])))
    (hround : ∀ ⦃start tree⦄, Read text none round start tree →
      ∃ operand, Follows text operandName between start tree operand)
    (hbetween : ∀ {whole : ParseTree}, Regular text terminal apart whole →
      ∀ a ∈ Tree.subtrees whole, ∀ b ∈ Tree.subtrees whole,
      (∃ start, Read text none (.rule operandName) start a) →
      (∃ start, Read text none (.rule operandName) start b) → ParseTree.stop a ≤ ParseTree.start b →
      between (text.window (ParseTree.stop a) (ParseTree.start b)) →
      (spacing apart).Between operator (text.window (ParseTree.stop a) (ParseTree.start b)))
    (hoperand : Spreads text terminal apart height depth operandName operator.tighter) :
    Spreads text terminal apart (height + 1) depth name operator.level := by
  intro start tree hheight h hregular
  obtain ⟨m, first, ts, rfl, -, hstart, hstop, hfirst, hrest⟩ := (h.rule hs).sequence
  cases hrest with
  | @cons _ _ _ rounds _ hrounds hrest =>
    cases hrest
    obtain ⟨m', trees, rfl, -, hspan, hrounds⟩ := hrounds.repetition
    have hmem : some first ∈ Tree.branches (.node m (some first :: [.node m' (trees.map some)].map
      some)) := List.mem_cons_self
    have hmem' : some (.node m' (trees.map some)) ∈ Tree.branches (.node m (some first ::
      [.node m' (trees.map some)].map some)) := by simp [Tree.branches]
    have hlt := Nat.lt_of_lt_of_le (Tree.height_branch_lt hmem) hheight
    have hbranch {t : ParseTree} (ht : t ∈ trees) :
        some t ∈ Tree.branches (.node m' (trees.map some)) := List.mem_map_of_mem ht
    obtain ⟨-, es, hes⟩ := rounds_spread hoperand hround (hbetween hregular) hregular hrounds
      (fun t ht => Nat.le_of_lt_succ (((Tree.height_branch_lt (hbranch ht)).trans
        (Tree.height_branch_lt hmem')).trans_le hheight))
      (fun t ht _ h => Tree.subtrees_subset hmem' (Tree.subtrees_subset (hbranch ht) h)) rfl
      (Tree.subtrees_subset hmem (Tree.self_mem_subtrees first)) ⟨start, hfirst⟩
      (hoperand (Nat.le_of_lt_succ hlt) hfirst (hregular.branch hmem))
    change ∃ e, Spread terminal (spacing apart) depth operator.level [e] (text.window m.start m.stop)
    rw [hstart, show m.stop = m'.stop from hstop,
      show m'.stop = lastStop first.stop trees from hspan.2]
    exact Spread.joined hes

theorem sequence_spreads (hatom : Spreads text terminal apart height depth "Atom" .operand) :
    Spreads text terminal apart (height + 1) depth "Sequence" .sequence :=
  operands_spread .sequence rfl (fun _ _ h => h.next_atom)
    (fun hregular a ha b hb ⟨_, hreadA⟩ ⟨_, hreadB⟩ hle hgap =>
      .apart (hregular.apart a ha b hb (atom_named hreadA) (atom_named hreadB) hgap hle)) hatom

theorem expression_spreads (hsequence : Spreads text terminal apart height depth "Sequence" .sequence) :
    Spreads text terminal apart (height + 1) depth "Expression" .choice :=
  operands_spread .choice rfl (fun _ _ h => h.next_sequence)
    (fun _ _ _ _ _ _ _ _ ⟨_, _, hbefore, hafter, hgap⟩ => hgap ▸ .bar hbefore hafter) hsequence

/-- An expression that the notation reads is an expression with blanks of the document between its
words. A pair of brackets takes four nodes. -/
theorem spreads (depth : Nat) : Spreads text terminal apart (4 * depth) depth "Expression" .choice := by
  induction depth with
  | zero =>
    intro start tree hheight
    cases tree
    exact absurd hheight (Nat.not_succ_le_zero _)
  | succ depth ih => exact expression_spreads (sequence_spreads (atom_spreads ih))

end Spreading
end OrderedBnf.MetaGrammar
