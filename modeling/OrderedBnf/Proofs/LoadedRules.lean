import OrderedBnf.Proofs.DocumentBlocks
import OrderedBnf.Proofs.RuleLines

/-! The rules that the notation reads in a document are those that the loader finds there. -/
namespace OrderedBnf.MetaGrammar
open Place

section Reading
variable {text : Text} {start next n : Nat} {rule : ParseTree} {lines after within : List Text}
  {name gap first : Text}

def Heads (text : Text) (rule : ParseTree) (name : String) (line : Nat) : Prop :=
  ∃ t rest, Tree.branches rule = some t :: rest ∧
    text.window (ParseTree.start t) (ParseTree.stop t) = name.toList ∧
    (Source.position { content := text } (ParseTree.start t)).line = line

/-- The lines of a rule: that of its head and those within it, before the lines of the next one. -/
structure Lined (text : Text) (start next : Nat) (rule : ParseTree) (lines within after : List Text)
    (name gap first : Text) : Prop where
  lines : ∃ head, lines = head :: (within ++ after) ∧
    significant? head = some (name ++ gap ++ ':' :: first)
  clean : ∀ line ∈ within ++ after, Clean line
  isName : isIdentifier name
  spaces : Spaces gap
  heads : Heads text rule (String.ofList name) ((text.take start).count '\n' + 1)
  rest : text.drop next = Text.unlines after
  count : (text.take next).count '\n' = (text.take start).count '\n' + 1 + within.length
  closed : (ofBody [first]).after (Text.unlines within) = outside 0
  quiet : ∀ u v, Text.unlines within = u ++ ':' :: v → (ofBody [first]).after u ≠ outside 0

theorem layout_spread {n : Nat} {level : Level} {es : List Expression} {text : Text}
    (h : Spread Terminal (spacing Layout) n level es text) (depth : Nat) : Mute depth text :=
  h.mute ⟨Layout.blanks, Layout.blanks, Layout.blanks, Layout.blanks⟩ depth

/-- A body that is written as a layout is mute. -/
theorem Bodied.mute {depth : Nat} {body : Text} (h : Bodied Terminal Layout depth body) :
    Mute 0 body := by
  cases h with
  | nothing => exact .blanks Blanks.nil
  | expression hlead hspread => exact (Mute.blanks hlead.blanks).append (layout_spread hspread 0)

/-- Every tree is regular if nothing is asked of its literals and gaps. -/
theorem regular_any (text : Text) (tree : ParseTree) : Regular text Terminal Layout tree :=
  ⟨fun _ _ _ _ _ _ h _ => h, fun _ _ _ h => h, fun _ _ _ h => h⟩

theorem take_window {a b : Nat} (h : a ≤ b) : text.take b = text.take a ++ text.window a b :=
  text.window_append (Nat.zero_le a) h

theorem Spaces.count_feed (h : Spaces gap) : gap.count '\n' = 0 :=
  List.count_eq_zero.2 fun hc => absurd (h _ hc) (by decide)

/-- The words of a line that starts with a name and a colon. -/
theorem significant?_head {indent rest : Text} (hindent : Blanks indent) (hname : isIdentifier name) :
    significant? (indent ++ (name ++ gap ++ ':' :: rest)) =
      some (name ++ gap ++ ':' :: rest.trimRight isBlank) := by
  obtain ⟨c, tail, rfl, hc, hbar, hclosing⟩ := (firm_of_identifier hname).head
  obtain ⟨after, hafter, hrest⟩ := rest.trimRight_append_rest isBlank
  have hfirm : Firm (c :: tail ++ gap ++ ':' :: rest.trimRight isBlank) := by
    refine ⟨⟨c, _, rfl, hc, hbar, hclosing⟩, ?_⟩
    rcases List.eq_nil_or_concat' (rest.trimRight isBlank) with he | ⟨init, last, he⟩
    · exact ⟨c :: tail ++ gap, ':', by rw [he], by decide⟩
    · exact ⟨c :: tail ++ gap ++ ':' :: init, last, by rw [he]; simp, Text.trimRight_last he⟩
  have htrim := congrArg Stretch.chars (hfirm.trim hindent hafter 0)
  have hline : indent ++ (c :: tail ++ gap ++ ':' :: rest.trimRight isBlank) ++ after =
      indent ++ (c :: tail ++ gap ++ ':' :: rest) := by
    conv => rhs; rw [hrest]
    simp
  rw [hline] at htrim
  have htrim : Text.trim isBlank (indent ++ (c :: tail ++ gap ++ ':' :: rest)) =
    c :: tail ++ gap ++ ':' :: rest.trimRight isBlank := htrim
  have hhash : c ≠ '#' := by
    rintro rfl
    exact not_mem_of_identifier hname (by decide) List.mem_cons_self
  rw [significant?, htrim]
  exact if_neg hhash

/-- A name, a colon and the rest of a line are a head. -/
theorem titleOf?_indented {indent : Text} (hindent : Blanks indent) (hname : isIdentifier name)
    (rest : Text) : titleOf? (indent ++ (name ++ ':' :: rest)) =
      some (String.ofList name, rest.trimRight isBlank) := by
  have hwords := @significant?_head name [] indent rest hindent hname
  rw [List.append_nil] at hwords
  rw [titleOf?, hwords, Option.bind_some, headOf?_eq (not_mem_of_identifier hname (by decide)),
    if_pos hname]

theorem titleOf?_head (hname : isIdentifier name) (rest : Text) :
    titleOf? (name ++ ':' :: rest) = some (String.ofList name, rest.trimRight isBlank) :=
  titleOf?_indented Blanks.nil hname rest

/-- The parts of a line that is a head. -/
theorem titleOf?_some {head : Text} {name : String} (h : titleOf? head = some (name, first)) :
    ∃ indent rest, head = indent ++ (name.toList ++ ':' :: rest) ∧ Blanks indent ∧
      isIdentifier name.toList ∧ first = Text.trimRight isBlank rest := by
  obtain ⟨words, hwords, hhead⟩ := Option.bind_eq_some_iff.1 h
  obtain ⟨before, after, hb, -, rfl⟩ := significant?_parts hwords
  obtain ⟨hname, rfl⟩ := headOf?_some hhead
  have hparts : before ++ (name.toList ++ ':' :: first) ++ after =
      before ++ (name.toList ++ ':' :: (first ++ after)) := by simp
  rw [hparts, titleOf?_indented hb hname] at h
  exact ⟨before, first ++ after, hparts, hb, hname, (congrArg Prod.snd (Option.some.inj h)).symm⟩

/-- A rule and the line breaks after it are whole lines: the first goes on after the colon, with the
body of the rule, and the others hold the rest of it. -/
theorem Read.rule_lines {terminal : Leaf → Text → Prop} {apart : Text → Prop} {body : Text}
    (h : Read text none (.rule "Rule") start rule)
    (hruled : Ruled text terminal apart rule name gap body) (hnext : rule.stop ≤ next)
    (hbreaks : text.window rule.stop next = List.replicate n '\n')
    (hlines : text.drop start = Text.unlines lines) (hfeed : ∀ line ∈ lines, '\n' ∉ line) :
    ∃ (rest : Text) (within after : List Text), lines =
        (text.window start rule.start ++ (name ++ gap ++ ':' :: rest)) ::
        (within ++ after) ∧
      body ++ List.replicate (n + 1) '\n' = Text.unlines (rest :: within) ∧
      text.window start next = Text.unlines
        ((text.window start rule.start ++ (name ++ gap ++ ':' :: rest)) :: within) ∧
      text.drop next = Text.unlines after := by
  -- the rule with its indentation and the breaks after it, with the last of all breaks apart
  have hwindow : text.window start next = (text.window start rule.start ++ (name ++ gap ++ [':'])) ++
      (body ++ List.replicate n '\n') ++ ['\n'] := by
    rw [text.window_append h.ahead (Nat.le_trans h.le hnext), text.window_append h.le hnext,
      hruled.covered, hbreaks]
    simp [← List.replicate_succ, ← List.replicate_succ']
  have hdrop : Text.unlines lines = ((text.window start rule.start ++ (name ++ gap ++ [':'])) ++
      (body ++ List.replicate n '\n')) ++ '\n' :: text.drop next := by
    rw [← hlines, text.drop_window (Nat.le_trans h.ahead (Nat.le_trans h.le hnext)), hwindow]
    simp
  obtain ⟨chunk, after, rfl, hchunk, hafter⟩ := Text.unlines_split hdrop hfeed
  have hne : chunk ≠ [] := by
    rintro rfl
    simp [Text.unlines] at hchunk
  obtain ⟨head, within, rfl⟩ := List.exists_cons_of_ne_nil hne
  have hcolon : '\n' ∉ text.window start rule.start ++ (name ++ gap ++ [':']) := by
    have hindent := List.count_eq_zero.1 h.gap.count_feed
    have hgap := List.count_eq_zero.1 hruled.spaces.count_feed
    have hfeed : '\n' ∉ name :=
      not_mem_of_identifier (isIdentifier_of_isName hruled.isName) (by decide)
    simp [hindent, hgap, hfeed]
  have hwhole := hwindow.trans hchunk.symm
  rw [List.append_assoc] at hchunk
  obtain ⟨rest, rfl, hrest⟩ := Text.unlines_first hchunk hcolon
  have hhead : text.window start rule.start ++ (name ++ gap ++ [':']) ++ rest =
      text.window start rule.start ++ (name ++ gap ++ ':' :: rest) := by simp
  rw [hhead] at hwhole ⊢
  refine ⟨rest, within, after, rfl, ?_, hwhole, hafter.symm⟩
  rw [Text.unlines_cons, ← hrest, List.replicate_succ', List.append_assoc]

/-- A rule that the notation reads, and the line breaks after it, are whole lines. -/
theorem Read.lined (h : Read text none (.rule "Rule") start rule) (hnext : rule.stop ≤ next)
    (hbreaks : text.window rule.stop next = List.replicate n '\n') (hreturn : '\r' ∉ text)
    (hlines : text.drop start = Text.unlines lines) (hclean : ∀ line ∈ lines, Clean line) :
    ∃ within after name gap first, Lined text start next rule lines within after name gap first := by
  obtain ⟨name, gap, body, hruled⟩ := h.ruled (regular_any text rule)
  have hname := isIdentifier_of_isName hruled.isName
  have hfeed (line : Text) (hl : line ∈ lines) := (hclean line hl).no_feed
  have hbodied : Bodied Terminal Layout (Tree.height rule) body :=
    hruled.bodied (Nat.le_mul_of_pos_left _ (by decide))
  obtain ⟨rest, within, after, rfl, hrest, hwindow, hafter⟩ :=
    h.rule_lines hruled hnext hbreaks hlines hfeed
  have hmute : Mute 0 (Text.unlines (rest :: within)) :=
    hrest ▸ hbodied.mute.append (.blanks (layout_replicate (n + 1)).blanks)
  rw [Text.unlines_cons] at hmute
  have hbody : (ofBody [rest.trimRight isBlank]).after (Text.unlines within) = outside 0 := by
    rw [ofBody_singleton, ← after_append, List.append_assoc]
    exact hmute.closed
  refine ⟨within, after, name, gap, rest.trimRight isBlank, ⟨_, rfl, ?_⟩, fun line hl => ?_, hname,
    hruled.spaces, ?_, hafter, ?_, hbody, fun u v hu => ?_⟩
  · exact significant?_head h.gap.layout.blanks hname
  · exact hclean line (List.mem_cons_of_mem _ hl)
  · obtain ⟨t, rest', hbranches, hstart, hword⟩ := hruled.first
    refine ⟨t, rest', hbranches, by rw [hword, String.toList_ofList], ?_⟩
    rw [Source.position_line hreturn, hstart, take_window h.ahead, List.count_append,
      h.gap.count_feed, Nat.add_zero]
  · rw [take_window (Nat.le_trans h.ahead (Nat.le_trans h.le hnext)), List.count_append, hwindow,
      Text.count_unlines, List.length_cons, Nat.add_right_comm, Nat.add_assoc]
    exact fun line hl => hfeed line (List.mem_append_left after hl)
  · rw [ofBody_singleton, ← after_append, List.append_assoc]
    refine hmute.quiet _ v ?_ 0
    rw [hu]
    simp

namespace Lined
variable {number line : Nat} {title : String} {body : List Text}

/-- The lines of a rule are one block. -/
theorem block (h : Lined text start next rule lines within after name gap first)
    (hsound : ∀ b ∈ Block.collect number title line [first] (within ++ after), b.Sound) :
    ∃ body, body ≠ [] ∧ ofBody body = outside 0 ∧
      Block.collect number title line [first] (within ++ after) =
        Block.collect (number + within.length) title line body after := by
  obtain ⟨hblock, hplace⟩ := Block.collect_lines
    (fun l hl => h.clean l (List.mem_append_left _ hl)) (List.cons_ne_nil _ _) h.quiet hsound
  exact ⟨_, by simp, hplace.trans h.closed, hblock⟩

theorem no_colon (h : Lined text start next rule lines within after name gap first) :
    ':' ∉ name ++ gap := by
  rw [List.mem_append]
  rintro (hc | hc)
  · exact not_mem_of_identifier h.isName (by decide) hc
  · exact absurd (h.spaces _ hc) (by decide)

/-- With no blank before the colon the loader takes the line for a head. -/
theorem head (h : Lined text start next rule lines within after name [] first) :
    headOf? (name ++ [] ++ ':' :: first) = some (String.ofList name, first) := by
  rw [headOf?_eq h.no_colon, List.append_nil, if_pos h.isName]

theorem no_head {c : Char} (h : Lined text start next rule lines within after name (c :: gap) first) :
    headOf? (name ++ c :: gap ++ ':' :: first) = none := by
  refine (headOf?_eq h.no_colon).trans (if_neg fun hid => ?_)
  have hblank := h.spaces.layout.blanks c List.mem_cons_self
  rw [not_blank_of_identifierChar (identifierChar_of_identifier hid c (by simp))] at hblank
  cases hblank

/-- A line with a blank before the colon is no part of a block that compiles. -/
theorem gap_nil (h : Lined text start next rule lines within after name gap first)
    (hne : body ≠ []) (hclosed : ofBody body = outside 0)
    (hsound : ∀ b ∈ Block.collect number title line body lines, b.Sound) : gap = [] := by
  cases gap with
  | nil => rfl
  | cons c gap =>
    obtain ⟨head, rfl, hwords⟩ := h.lines
    rw [Block.collect, hwords] at hsound
    dsimp only at hsound
    rw [h.no_head] at hsound
    dsimp only at hsound
    obtain ⟨more, blocks, hblocks⟩ := @Block.collect_first (number + 1) line title
      (body ++ [name ++ c :: gap ++ ':' :: first]) (within ++ after)
    rw [hblocks] at hsound
    have hpadded := (hsound _ List.mem_cons_self).padded
    obtain ⟨rest, hrest⟩ := Text.join_cons ['\n'] (name ++ c :: gap ++ ':' :: first) more
    rw [List.append_assoc, Text.join_append hne (by simp), List.singleton_append, hrest] at hpadded
    have hgap : Blanks gap := fun d hd => h.spaces.layout.blanks d (List.mem_cons_of_mem _ hd)
    have hplace : (outside 0).after (Text.join ['\n'] body ++ ['\n'] ++ name) = outside 0 := by
      rw [after_append, after_append]
      exact (congrArg (·.after name) hclosed).trans
        (after_identifier (identifierChar_of_identifier h.isName))
    have hcolon : (gap ++ ':' :: first ++ rest).dropWhile isBlank = ':' :: (first ++ rest) := by
      rw [List.append_assoc, List.dropWhile_append_of_pos hgap]
      rfl
    obtain ⟨d, hd, hstarter⟩ := hpadded.starts_after (by simp) hplace
      (h.spaces.layout.blanks c List.mem_cons_self)
      (show separates (gap ++ ':' :: first ++ rest) by rw [separates, hcolon]; rfl)
    rw [hcolon] at hd
    cases hd
    cases hstarter

end Lined

theorem eq_nil_of_unlines {lines : List Text} (h : Text.unlines lines = []) : lines = [] := by
  cases lines with
  | nil => rfl
  | cons => simp [Text.unlines_cons] at h

/-- Behind an open block, the loader finds the rules that the notation reads. -/
theorem collect_rules {rules : List ParseTree} (h : RulesFrom text start rules)
    (hreturn : '\r' ∉ text) {number line : Nat} {title : String} {body : List Text}
    (hlines : text.drop start = Text.unlines lines) (hclean : ∀ line ∈ lines, Clean line)
    (hnumber : number = (text.take start).count '\n' + 1) (hne : body ≠ [])
    (hclosed : ofBody body = outside 0)
    (hsound : ∀ b ∈ Block.collect number title line body lines, b.Sound) :
    ∃ blocks, Block.collect number title line body lines =
      Block.ofLines title line body :: blocks ∧
      List.Forall₂ (fun rule block => Heads text rule block.name block.line) rules blocks := by
  induction h generalizing number line title body lines with
  | done hend =>
    rw [List.drop_eq_nil_of_le hend] at hlines
    rw [eq_nil_of_unlines hlines.symm]
    exact ⟨[], rfl, .nil⟩
  | next hread hnext hbreaks _ ih =>
    obtain ⟨within, after, name, gap, first, hlined⟩ :=
      hread.lined hnext hbreaks hreturn hlines hclean
    obtain rfl := hlined.gap_nil hne hclosed hsound
    obtain ⟨head, rfl, hwords⟩ := hlined.lines
    rw [Block.collect, hwords] at hsound ⊢
    dsimp only at hsound ⊢
    rw [hlined.head] at hsound ⊢
    dsimp only at hsound ⊢
    obtain ⟨body', hne', hclosed', hblock⟩ := hlined.block fun b hb =>
      hsound b (List.mem_cons_of_mem _ hb)
    rw [hblock] at hsound ⊢
    obtain ⟨blocks, hblocks, hrules⟩ := ih hlined.rest
      (fun l hl => hlined.clean l (List.mem_append_right _ hl))
      (by rw [hlined.count]; omega) hne' hclosed' fun b hb => hsound b (List.mem_cons_of_mem _ hb)
    exact ⟨_, rfl, hblocks ▸ .cons (hnumber ▸ hlined.heads) hrules⟩

/-- The loader passes over empty lines. -/
theorem collectFrom_empty (number n : Nat) (lines : List Text) :
    Block.collectFrom number (List.replicate n [] ++ lines) =
      Block.collectFrom (number + n) lines := by
  induction n generalizing number with
  | zero => rfl
  | succ n ih =>
    rw [List.replicate_succ, List.cons_append, Block.collectFrom]
    exact (ih (number + 1)).trans (by rw [Nat.add_right_comm, Nat.add_assoc])

/-- The loader finds the rules that the notation reads, from the first one on. -/
theorem collectFrom_rules {rules : List ParseTree} (h : RulesFrom text start rules)
    (hreturn : '\r' ∉ text) {blocks : List Block} {number : Nat}
    (hlines : text.drop start = Text.unlines lines) (hclean : ∀ line ∈ lines, Clean line)
    (hnumber : number = (text.take start).count '\n' + 1)
    (hblocks : Block.collectFrom number lines = .ok blocks) (hsound : ∀ b ∈ blocks, b.Sound) :
    List.Forall₂ (fun rule block => Heads text rule block.name block.line) rules blocks := by
  cases h with
  | done hend =>
    rw [List.drop_eq_nil_of_le hend] at hlines
    rw [eq_nil_of_unlines hlines.symm] at hblocks
    cases hblocks
    exact .nil
  | next hread hnext hbreaks hrest =>
    obtain ⟨within, after, name, gap, first, hlined⟩ :=
      hread.lined hnext hbreaks hreturn hlines hclean
    obtain ⟨head, rfl, hwords⟩ := hlined.lines
    rw [Block.collectFrom, hwords] at hblocks
    dsimp only at hblocks
    cases gap with
    | cons =>
      rw [hlined.no_head] at hblocks
      cases hblocks
    | nil =>
      rw [hlined.head] at hblocks
      cases hblocks
      obtain ⟨body, hne, hclosed, hblock⟩ := hlined.block hsound
      rw [hblock] at hsound ⊢
      obtain ⟨blocks, hblocks, hrules⟩ := collect_rules hrest hreturn hlined.rest
        (fun l hl => hlined.clean l (List.mem_append_right _ hl))
        (by rw [hlined.count]; omega) hne hclosed hsound
      exact hblocks ▸ .cons (hnumber ▸ hlined.heads) hrules

end Reading

section Documents
variable {text : Text} {filename : Option String} {tree : ParseTree} {extensions : List String}
  {grammar : Grammar}

theorem normalize_getLast? (text : Text) : (normalize text).getLast? = some '\n' := by
  simp [normalize]

theorem normalize_no_return (text : Text) : '\r' ∉ normalize text := by
  intro h
  rw [normalize_eq, Text.unlines, List.mem_flatMap] at h
  obtain ⟨line, hl, h⟩ := h
  rcases List.mem_append.1 h with h | h
  · exact absurd ((clean_cleanLines text line hl).unbroken _ h) (by decide)
  · simp at h

/-- A document that the notation accepts has empty lines, and then the lines of its rules. -/
theorem rules_of_lint (hlint : lint text filename = .ok tree) : ∃ start n after,
    RulesFrom (normalize text) start (rulesOf tree) ∧
      (normalize text).take start = List.replicate n '\n' ∧
      (normalize text).drop start = Text.unlines after ∧
      cleanLines text = List.replicate n [] ++ after := by
  obtain ⟨start, n, hbreaks, hrules⟩ := parse_rulesFrom (normalize_getLast? text) hlint
  have htake : (normalize text).take start = List.replicate n '\n' := hbreaks
  have hsplit : Text.unlines (cleanLines text) =
      List.replicate n '\n' ++ (normalize text).drop start := by
    rw [← normalize_eq, ← htake, List.take_append_drop]
  obtain ⟨after, hlines, hafter⟩ :=
    Text.unlines_breaks hsplit fun line hl => (clean_cleanLines text line hl).no_feed
  exact ⟨start, n, after, hrules, htake, hafter.symm, hlines⟩

/-- The blocks of a document are its rules as the notation reads them, if all of them compile. -/
theorem blocks_of_lint {blocks : List Block} (hlint : lint text filename = .ok tree)
    (hblocks : Block.ofDocument text.lines = .ok blocks) (hsound : ∀ b ∈ blocks, b.Sound) :
    List.Forall₂ (fun rule block => Heads (normalize text) rule block.name block.line)
      (rulesOf tree) blocks := by
  obtain ⟨start, n, after, hrules, htake, hafter, hlines⟩ := rules_of_lint hlint
  rw [← Block.ofDocument_cleanLines, Block.ofDocument, hlines, collectFrom_empty] at hblocks
  refine collectFrom_rules hrules (normalize_no_return text) hafter (fun line hl =>
    clean_cleanLines text line (hlines ▸ List.mem_append_right _ hl)) ?_ hblocks hsound
  rw [htake, List.count_replicate_self, Nat.add_comm]

theorem sound_of_loads {blocks : List Block} {declared : List Entry}
    (h : List.Forall₂ Block.Loads blocks declared) : ∀ b ∈ blocks, b.Sound := by
  induction h with
  | nil => exact fun _ h => absurd h List.not_mem_nil
  | cons hentry _ ih =>
    refine List.forall_mem_cons.2 ⟨?_, ih⟩
    exact hentry.body.sound

theorem heads_of_loads {rules : List ParseTree} {blocks : List Block} {declared : List Entry}
    (hrules : List.Forall₂ (fun rule block => Heads text rule block.name block.line) rules blocks)
    (hdeclared : List.Forall₂ Block.Loads blocks declared) (hm : declared ⊆ grammar.entries) :
    List.Forall₂ (fun rule name => ∃ line, grammar.line? name = some line ∧
      Heads text rule name line) rules (declared.map Entry.name) := by
  induction hrules generalizing declared with
  | nil =>
    cases hdeclared
    exact .nil
  | cons hrule _ ih =>
    cases hdeclared with
    | cons hentry hdeclared =>
      refine .cons ⟨_, ?_, hentry.name ▸ hrule⟩ (ih hdeclared (List.subset_of_cons_subset hm))
      exact (Grammar.line?_of_mem (hm List.mem_cons_self)).trans hentry.line

/-- Of a document that both the notation and the loader accept, the notation reads the rules that
the loader finds: the rules in the tree stand for the names of the grammar, in order, up to those
that only an extension point declares. The first branch of each is the name, on the line that the
grammar keeps. -/
theorem lint_rules (hlint : lint text filename = .ok tree)
    (hload : Grammar.load text.lines extensions = .ok grammar) :
    ∃ declared added : List String, grammar.names = declared ++ added ∧
      (∀ name ∈ added, name ∈ extensions ∧ grammar.line? name = none) ∧
      List.Forall₂ (fun rule name => ∃ line, grammar.line? name = some line ∧
        Heads (normalize text) rule name line) (rulesOf tree) declared := by
  obtain ⟨blocks, declared, added, hblocks, hdeclared, hadded, hentries⟩ :=
    Grammar.load_entries hload
  have hrules := blocks_of_lint hlint hblocks (sound_of_loads hdeclared)
  refine ⟨declared.map Entry.name, added.map Entry.name, ?_, fun name hname => ?_, ?_⟩
  · rw [Grammar.names, hentries, List.map_append]
  · obtain ⟨entry, he, rfl⟩ := List.mem_map.1 hname
    obtain ⟨hext, hline⟩ := hadded entry he
    exact ⟨hext, (Grammar.line?_of_mem (hentries ▸ List.mem_append_right _ he)).trans hline⟩
  · exact heads_of_loads hrules hdeclared (hentries ▸ List.subset_append_left _ _)

def twoRules : Text := "A: 'a'\n  ( B )\n\n # C:\n B:\n".toList

theorem two_rules_linted : ∃ tree grammar, lint twoRules none = .ok tree ∧
    Grammar.load twoRules.lines [] = .ok grammar ∧ grammar.names = ["A", "B"] ∧
    List.Forall₂ (fun rule name => ∃ line, grammar.line? name = some line ∧
      Heads (normalize twoRules) rule name line) (rulesOf tree) ["A", "B"] := by
  have hlint : (lint twoRules none).isOk := by decide +kernel
  have hload : (Grammar.load twoRules.lines []).toOption.map Grammar.names = some ["A", "B"] := by
    decide +kernel
  cases ht : lint twoRules none with
  | error => rw [ht] at hlint; cases hlint
  | ok tree =>
    cases hg : Grammar.load twoRules.lines [] with
    | error => rw [hg] at hload; cases hload
    | ok grammar =>
      have hnames : grammar.names = ["A", "B"] := by simpa [hg, Except.toOption] using hload
      obtain ⟨declared, added, hsplit, hadded, hrules⟩ := lint_rules ht hg
      have hnone : added = [] :=
        List.eq_nil_iff_forall_not_mem.2 fun name hn => List.not_mem_nil (hadded name hn).1
      rw [hnone, List.append_nil, hnames] at hsplit
      exact ⟨tree, grammar, rfl, rfl, hnames, hsplit ▸ hrules⟩

end Documents
end OrderedBnf.MetaGrammar
