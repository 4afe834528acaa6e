import OrderedBnf.Proofs.DepthLimit
import OrderedBnf.Proofs.NotationRules
import OrderedBnf.Proofs.Signs
import OrderedBnf.Proofs.Words

/-! What the rules of the notation match and fail on, as they are sketched: how deep the match goes,
and the signs of its tree. -/
namespace OrderedBnf.MetaGrammar
open Reader

section Judgments
variable (text : Text) (depth : Nat)

abbrev answers : Answers := EndsIn (language.reader text) depth

/-- No rule that was written as sketched matches a remainder. -/
def Declines (sketch : Sketch) (left : Text) : Prop :=
  ∀ ⦃title rule⦄, rule.is title sketch →
    (language.reader text).RefusesBy (answers text depth) rule left

/-- Every rule that was written as sketched matches what one remainder has before another, and its
tree has the given signs. -/
def Accepts (title : Option String) (sketch : Sketch) (left left' : Text) (s : List Sign) : Prop :=
  ∀ ⦃rule⦄, rule.is title sketch → ∃ tree,
    (language.reader text).TakesBy (answers text depth) rule left left' tree ∧ signs text tree = s

def AcceptsAll (parts : List Sketch) (left left' : Text) (s : List Sign) : Prop :=
  ∀ ⦃rules⦄, Rule.areAll parts rules → ∃ trees,
    (language.reader text).TakesAllBy (answers text depth) rules left left' trees ∧
      trees.flatMap (signs text) = s

def AcceptsRounds (sketch : Sketch) (left left' : Text) (s : List Sign) : Prop :=
  ∀ ⦃rule⦄, rule.is none sketch → ∃ trees,
    (language.reader text).TakesRoundsBy (answers text depth) rule left left' trees ∧
      trees.flatMap (signs text) = s

/-- The tree of a rule that was written as sketched covers a word, and is no sign by itself. -/
def Covers (title : Option String) (sketch : Sketch) (gap word left : Text) : Prop :=
  ∀ ⦃rule⦄, rule.is title sketch → ∃ tree,
    (language.reader text).TakesBy (answers text depth) rule (gap ++ (word ++ left)) left tree ∧
      text.window tree.start tree.stop = word ∧ signs text tree = [] ∧
      (Tree.label tree).ruleName?.any ["Group", "Optional", "Repetition"].contains = false

end Judgments

variable {text : Text} {depth depth' : Nat} {title : Option String} {name : String}
  {sketch : Sketch} {parts passed : List Sketch} {left middle left' gap word rest : Text}
  {s s' : List Sign} {c : Char}

theorem Declines.mono (h : depth ≤ depth') (hd : Declines text depth sketch left) :
    Declines text depth' sketch left :=
  fun _ _ his => (hd his).imp fun _ _ _ => EndsIn.mono h

/-- More depth accepts what less depth does. -/
theorem Accepts.mono (h : depth ≤ depth') (ha : Accepts text depth title sketch left left' s) :
    Accepts text depth' title sketch left left' s := by
  intro rule his
  obtain ⟨tree, ht, hs⟩ := ha his
  exact ⟨tree, ht.imp fun _ _ _ => EndsIn.mono h, hs⟩

theorem Covers.mono (h : depth ≤ depth') (hc : Covers text depth title sketch gap word left) :
    Covers text depth' title sketch gap word left := by
  intro rule his
  obtain ⟨tree, ht, hs⟩ := hc his
  exact ⟨tree, ht.imp fun _ _ _ => EndsIn.mono h, hs⟩

theorem Covers.accepts (h : Covers text depth title sketch gap word left) :
    Accepts text depth title sketch (gap ++ (word ++ left)) left [] := by
  intro rule his
  obtain ⟨tree, ht, -, hs, -⟩ := h his
  exact ⟨tree, ht, hs⟩

section Signs

def titleSigns (title : Option String) : List Sign :=
  if title = some "Optional" then [.optional]
  else if title = some "Repetition" then [.repetition]
  else []

theorem sign?_titled {tree : ParseTree} (h : (Tree.label tree).ruleName? ≠ some "Atom") :
    (sign? text tree).toList = titleSigns (Tree.label tree).ruleName? := by
  rw [sign?, if_neg h, titleSigns]
  split
  · rfl
  · split <;> rfl

theorem signs_leaf {m : Match} (h : m.ruleName? = none) : signs text (.leaf m) = [] := by
  have hname : (Tree.label (.leaf m)).ruleName? = none := h
  have hsign := @sign?_titled text (.leaf m) (by rw [hname]; nofun)
  rw [hname] at hsign
  rw [Tree.leaf, signs_node]
  exact congrArg (· ++ []) hsign

theorem ruleName?_spanning {kind : Kind} {rule : Rule} {cursor : Nat}
    {branches : List (Option ParseTree)} :
    (Tree.label (ParseTree.spanning kind rule cursor branches)).ruleName? = rule.name? := by
  rw [Match.ruleName?, ParseTree.spanning_rule]

theorem signs_branches {kind : Kind} {rule : Rule} {cursor : Nat}
    {branches : List (Option ParseTree)} : signs text (.spanning kind rule cursor branches) =
      (sign? text (.spanning kind rule cursor branches)).toList ++
        (branches.filterMap id).flatMap (signs text) := by
  obtain ⟨m, hnode, -⟩ := @ParseTree.spanning_node kind rule cursor branches
  rw [hnode, signs_node]

theorem signs_spanning {kind : Kind} {rule : Rule} {cursor : Nat}
    {branches : List (Option ParseTree)} (h : rule.name? ≠ some "Atom") :
    signs text (.spanning kind rule cursor branches) =
      titleSigns rule.name? ++ (branches.filterMap id).flatMap (signs text) := by
  rw [signs_branches, sign?_titled (by rwa [ruleName?_spanning]), ruleName?_spanning]

end Signs

section Declining

theorem declines_rule (hs : sketches.lookup name = some (some sketch))
    (h : Declines text depth sketch left) : Declines text (depth + 1) (.rule name) left := by
  intro title rule his
  obtain ⟨o, rfl, rfl⟩ := Rule.is_rule his
  obtain ⟨body, hb, hbody⟩ := body?_of_sketch hs
  exact refuses_reference EndsIn.closes hb (h hbody)

theorem declines_choice (h : ∀ sketch ∈ parts, Declines text depth sketch left) :
    Declines text (depth + 1) (.choice parts) left := by
  intro title rule his
  obtain ⟨rules, o, rfl, -, hrules⟩ := Rule.is_choice his
  refine refuses_choice EndsIn.closes fun rule hm => ?_
  obtain ⟨sketch, hsketch, his⟩ := Rule.mem_of_areAll hrules rule hm
  exact h sketch hsketch his

/-- A sequence fails where one of its parts does after those before it have matched. -/
theorem declines_after (h : AcceptsAll text depth passed left middle s)
    (hd : Declines text depth sketch middle) :
    Declines text (depth + 1) (.sequence (passed ++ sketch :: parts)) left := by
  intro title rule his
  obtain ⟨rules, o, rfl, -, hrules⟩ := Rule.is_sequence his
  obtain ⟨front, rules, rfl, hfront, hrules⟩ := Rule.areAll_append hrules
  obtain ⟨rule, back, rfl, hrule, -⟩ := Rule.areAll_cons hrules
  obtain ⟨trees, ht, -⟩ := h hfront
  exact refuses_after EndsIn.closes ht (hd hrule)

theorem acceptsAll_nil : AcceptsAll text depth [] left left [] := by
  intro rules hrules
  rw [Rule.areAll_nil hrules]
  exact ⟨[], .nil, rfl⟩

theorem declines_first (h : Declines text depth sketch left) :
    Declines text (depth + 1) (.sequence (sketch :: parts)) left :=
  declines_after acceptsAll_nil h

end Declining

/-- From a remainder that starts with spaces, skipping leads to the character after them. -/
theorem meets (hgap : Spaces gap) (hc : c ≠ ' ' ∧ c ≠ '\t') (hs : gap ++ c :: rest <:+ text) :
    (language.reader text).Meets gap (c :: rest) where
  skip := by
    have htake : (gap ++ c :: rest).takeWhile (fun c => c = ' ' || c = '\t') = gap :=
      takeWhile_gap (fun d hd => by simpa using hgap d hd) (by simpa using hc)
    change skipWhile _ text _ text.length = _
    have hdrop : text.drop ((language.reader text).offset (gap ++ c :: rest)) = gap ++ c :: rest :=
      drop_offset (r := language.reader text) hs
    rw [skipWhile_eq, hdrop, htake, ← offset_append (r := language.reader text) hs]
  stop := rfl
  ne_nil := List.cons_ne_nil _ _
  suffix := hs

section Beginnings
variable {chars : Text}

def openings : List (String × Char) := [("DoubleQuoted", '"'), ("Continuation", '\n')]

def beginsIn (chars : Text) : Nat → Sketch → Bool
  | _ + 1, .word (c :: _) => chars.contains c
  | _ + 1, .token => chars.contains '\''
  | n + 1, .rule name =>
    match sketches.lookup name with
    | some (some body) => beginsIn chars n body
    | some none => (openings.lookup name).any chars.contains
    | none => false
  | n + 1, .sequence (part :: _) => beginsIn chars n part
  | n + 1, .choice alternatives => alternatives.all (beginsIn chars n)
  | _, _ => false

/-- An extension point finds nothing where its character is not. -/
theorem extend_none {opening : Char} (ho : openings.lookup name = some opening) (hc : c ≠ opening)
    {start : Nat} (h : text.drop start = c :: rest) :
    Scanner.byName scanners name text start text.length = .ok none := by
  simp only [openings, List.lookup_cons, List.lookup_nil] at ho
  split at ho
  · rename_i hname
    cases ho
    rw [eq_of_beq hname, extend_quoted, Quotation.scanner_eq h, if_pos hc]
  · split at ho
    · rename_i hname
      cases ho
      rw [eq_of_beq hname, extend_continuation, continuation_nil h hc]
    · cases ho

/-- What begins with certain characters fails on all others. -/
theorem declines_of_beginsIn (hm : (language.reader text).Meets gap (c :: rest)) (hc : c ∉ chars) :
    ∀ {depth : Nat} {sketch : Sketch}, beginsIn chars depth sketch →
      Declines text depth sketch (gap ++ c :: rest) := by
  intro depth
  induction depth with
  | zero =>
    intro sketch h
    simp [beginsIn] at h
  | succ depth ih =>
    intro sketch h
    have hne {d : Char} (hd : chars.contains d) : c ≠ d := by
      rintro rfl
      exact hc (List.contains_iff_mem.1 hd)
    cases sketch with
    | word word =>
      intro title rule his
      obtain ⟨o, rfl, hword⟩ := Rule.is_word his
      cases word with
      | nil => simp [beginsIn] at h
      | cons d word =>
        refine refuses_literal EndsIn.closes hm (hword ▸ List.cons_ne_nil _ _) fun hp => ?_
        rw [hword] at hp
        exact hne h (List.cons_prefix_cons.1 hp).1.symm
    | token =>
      intro title rule his
      obtain ⟨o, rfl⟩ := Rule.is_token his
      exact refuses_token EndsIn.closes hm fun he => hne h (Option.some.inj he)
    | rule name =>
      rw [beginsIn] at h
      split at h
      · exact declines_rule ‹_› (ih h)
      · intro title rule his
        obtain ⟨o, rfl, rfl⟩ := Rule.is_rule his
        obtain ⟨opening, ho, hopening⟩ := (Option.any_eq_true ..).1 h
        exact refuses_extension EndsIn.closes hm (body?_extension ‹_›)
          (extend_none ho (hne hopening) (drop_offset hm.word_suffix))
      · cases h
    | sequence parts =>
      cases parts with
      | nil => simp [beginsIn] at h
      | cons part parts => exact declines_first (ih h)
    | choice alternatives =>
      exact declines_choice fun sketch hs => ih (List.all_eq_true.1 h sketch hs)
    | name | newLine | optional | repetition => simp [beginsIn] at h

end Beginnings

section Accepting

/-- A rule accepts what its name stands for. -/
theorem accepts_rule (hs : sketches.lookup name = some (some sketch))
    (h : Accepts text depth (some name) sketch left left' s) :
    Accepts text (depth + 1) title (.rule name) left left' s := by
  intro rule his
  obtain ⟨o, rfl, rfl⟩ := Rule.is_rule his
  obtain ⟨body, hb, hbody⟩ := body?_of_sketch hs
  obtain ⟨tree, ht, hsigns⟩ := h hbody
  exact ⟨tree, takes_reference EndsIn.closes hb ht, hsigns⟩

theorem acceptsAll_cons (h : Accepts text depth none sketch left middle s)
    (hrest : AcceptsAll text depth parts middle left' s') :
    AcceptsAll text depth (sketch :: parts) left left' (s ++ s') := by
  intro rules hrules
  obtain ⟨rule, rest, rfl, hrule, hrules⟩ := Rule.areAll_cons hrules
  obtain ⟨tree, ht, rfl⟩ := h hrule
  obtain ⟨trees, hts, rfl⟩ := hrest hrules
  exact ⟨tree :: trees, .cons ht hts, List.flatMap_cons⟩

/-- The branches of a node over trees. -/
theorem branches_some (trees : List ParseTree) :
    (trees.map some).filterMap id = trees := by
  rw [List.filterMap_map, Function.id_comp, List.filterMap_some]

/-- A sequence accepts what its parts accept in turn. -/
theorem accepts_sequence (ht : title ≠ some "Atom") (h : AcceptsAll text depth parts left left' s) :
    Accepts text (depth + 1) title (.sequence parts) left left' (titleSigns title ++ s) := by
  intro rule his
  obtain ⟨rules, o, rfl, rfl, hrules⟩ := Rule.is_sequence his
  obtain ⟨trees, htrees, rfl⟩ := h hrules
  exact ⟨_, takes_sequence EndsIn.closes htrees, by rw [signs_spanning ht, branches_some]⟩

structure Chooses (text : Text) (title : Option String) (tree branch : ParseTree) : Prop where
  named : (Tree.label tree).ruleName? = title
  window : text.window tree.start tree.stop = text.window branch.start branch.stop
  bracketed : isBracketed tree =
    (Tree.label branch).ruleName?.any ["Group", "Optional", "Repetition"].contains
  signs : signs text tree = (sign? text tree).toList ++ signs text branch

theorem takes_alternative {good : ParseTree → Prop} {rule : Rule}
    (his : rule.is title (.choice (passed ++ sketch :: parts)))
    (hpassed : ∀ sketch ∈ passed, Declines text depth sketch left)
    (h : ∀ ⦃rule⦄, rule.is none sketch → ∃ branch,
      (language.reader text).TakesBy (answers text depth) rule left left' branch ∧ good branch) :
    ∃ tree branch, (language.reader text).TakesBy (answers text (depth + 1)) rule left left' tree ∧
      good branch ∧ Chooses text title tree branch := by
  obtain ⟨rules, o, rfl, rfl, hrules⟩ := Rule.is_choice his
  obtain ⟨front, rules, rfl, hfront, hrules⟩ := Rule.areAll_append hrules
  obtain ⟨rule, back, rfl, hrule, -⟩ := Rule.areAll_cons hrules
  obtain ⟨branch, hbranch, hgood⟩ := h hrule
  have htree := @takes_choice _ _ _ rule front back o _ _ _ EndsIn.closes (fun rule hm => by
    obtain ⟨sketch, hsketch, his⟩ := Rule.mem_of_areAll hfront rule hm
    exact hpassed sketch hsketch his) hbranch
  refine ⟨_, branch, htree, hgood, ruleName?_spanning, ?_, ?_, ?_⟩
  · rw [htree.stop, ParseTree.spanning_start (filterMap_single front back branch), hbranch.stop]
  · rw [isBracketed, ParseTree.spanning_branches, List.any_append, List.any_cons, List.any_map,
      List.any_map]
    simp [Function.comp_def, List.any_eq_false.2]
  · rw [signs_branches, filterMap_single, List.flatMap_singleton]

/-- A choice accepts what one alternative does, where those before it decline. -/
theorem accepts_choice (ht : title ≠ some "Atom")
    (hpassed : ∀ sketch ∈ passed, Declines text depth sketch left)
    (h : Accepts text depth none sketch left left' s) :
    Accepts text (depth + 1) title (.choice (passed ++ sketch :: parts)) left left'
      (titleSigns title ++ s) := by
  intro rule his
  obtain ⟨tree, branch, htree, rfl, hchooses⟩ := takes_alternative his hpassed h
  refine ⟨tree, htree, ?_⟩
  rw [hchooses.signs, sign?_titled (hchooses.named ▸ ht), hchooses.named]

theorem accepts_present (ht : title ≠ some "Atom")
    (h : Accepts text depth none sketch left left' s) :
    Accepts text (depth + 1) title (.optional sketch) left left' (titleSigns title ++ s) := by
  intro rule his
  obtain ⟨body, o, rfl, rfl, hbody⟩ := Rule.is_optional his
  obtain ⟨tree, htree, rfl⟩ := h hbody
  exact ⟨_, takes_present EndsIn.closes htree, by rw [signs_spanning ht]; simp⟩

theorem accepts_absent (ht : title ≠ some "Atom") (h : Declines text depth sketch left) :
    Accepts text (depth + 1) title (.optional sketch) left left (titleSigns title) := by
  intro rule his
  obtain ⟨body, o, rfl, rfl, hbody⟩ := Rule.is_optional his
  exact ⟨_, takes_absent EndsIn.closes (h hbody), by rw [signs_spanning ht]; simp⟩

theorem acceptsRounds_done (h : Declines text depth sketch left) :
    AcceptsRounds text depth sketch left left [] :=
  fun _ his => ⟨[], .done (h his), rfl⟩

theorem acceptsRounds_round (h : Accepts text depth none sketch left middle s)
    (hlt : middle.length < left.length) (hrest : AcceptsRounds text depth sketch middle left' s') :
    AcceptsRounds text depth sketch left left' (s ++ s') := by
  intro rule his
  obtain ⟨tree, ht, rfl⟩ := h his
  obtain ⟨trees, hts, rfl⟩ := hrest his
  exact ⟨tree :: trees, .round ht hlt hts, List.flatMap_cons⟩

/-- A repetition accepts rounds up to where its body declines. -/
theorem accepts_repetition (ht : title ≠ some "Atom")
    (h : AcceptsRounds text depth sketch left left' s) (hl : left <:+ text) :
    Accepts text (depth + 1) title (.repetition sketch) left left' (titleSigns title ++ s) := by
  intro rule his
  obtain ⟨body, o, rfl, rfl, hbody⟩ := Rule.is_repetition his
  obtain ⟨trees, htrees, rfl⟩ := h hbody
  exact ⟨_, takes_repetition EndsIn.closes htrees hl, by rw [signs_spanning ht, branches_some]⟩

end Accepting

section Leaves

/-- A leaf covers the word that it matched. -/
theorem covers_leaf (hm : (language.reader text).Meets gap (word ++ left)) {rule : Rule} {kind : Kind}
    (his : rule.is none sketch)
    (ht : (language.reader text).TakesBy (answers text depth) rule (gap ++ (word ++ left)) left
      (.leaf ⟨kind, (language.reader text).offset (word ++ left), (language.reader text).offset left,
        rule⟩)) :
    ∃ tree,
    (language.reader text).TakesBy (answers text depth) rule (gap ++ (word ++ left)) left tree ∧
      text.window tree.start tree.stop = word ∧ signs text tree = [] ∧
      (Tree.label tree).ruleName?.any ["Group", "Optional", "Repetition"].contains = false := by
  have hname : rule.name? = none := Rule.name?_of_is his
  refine ⟨_, ht, window_offset hm.word_suffix, signs_leaf hname, ?_⟩
  change rule.name?.any _ = false
  rw [hname]
  rfl

/-- A name of the language is covered up to where no character of a name follows. -/
theorem covers_name (hm : (language.reader text).Meets gap (word ++ left))
    (hname : language.lexis.IsName word) (hnext : left.head?.any isIdentifierChar = false) :
    Covers text (depth + 1) none .name gap word left := by
  intro rule his
  obtain ⟨o, rfl⟩ := Rule.is_name his
  exact covers_leaf hm his (takes_identifier EndsIn.closes hm hname hnext)

/-- A quoted text is covered as one token, whatever follows it. -/
theorem covers_token {body : Text}
    (hm : (language.reader text).Meets gap ('\'' :: (body ++ ['\'']) ++ left))
    (hbody : Escaped '\'' body) :
    Covers text (depth + 1) none .token gap ('\'' :: (body ++ ['\''])) left := by
  intro rule his
  obtain ⟨o, rfl⟩ := Rule.is_token his
  exact covers_leaf hm his (takes_token EndsIn.closes hm rfl hbody)

theorem covers_quoted {body : Text}
    (hm : (language.reader text).Meets gap ('"' :: (body ++ ['"']) ++ left))
    (hbody : Escaped '"' body) (hfeed : '\n' ∉ body) :
    Covers text (depth + 1) none (.rule "DoubleQuoted") gap ('"' :: (body ++ ['"'])) left := by
  intro rule his
  obtain ⟨o, rfl, hname⟩ := Rule.is_rule his
  have hdrop : text.drop ((language.reader text).offset ('"' :: (body ++ ['"']) ++ left)) =
      '"' :: (body ++ '"' :: left) := (drop_offset hm.word_suffix).trans (by simp)
  have hends : ∀ c ∈ body, (decide (c = '\n') || decide (c = '"')) → c = '"' := fun c hc hp => by
    rw [Bool.or_eq_true, decide_eq_true_eq, decide_eq_true_eq] at hp
    exact hp.resolve_left fun h => hfeed (h ▸ hc)
  have hfound : Scanner.byName scanners "DoubleQuoted" text
      ((language.reader text).offset ('"' :: (body ++ ['"']) ++ left)) text.length =
        .ok (some ⟨.token, (language.reader text).offset ('"' :: (body ++ ['"']) ++ left),
          ((language.reader text).offset ('"' :: (body ++ ['"']) ++ left) +
            ('"' :: (body ++ ['"'])).length : Nat)⟩) := by
    rw [extend_quoted, Quotation.scanner_eq hdrop, if_neg (fun h => h rfl),
      Text.unescaped_eq hbody hends rfl (by decide)]
    dsimp only
    rw [if_neg (by decide), List.length_cons, List.length_append, List.length_singleton]
    congr 4
    omega
  exact covers_leaf hm his
    (takes_extension EndsIn.closes hm (hname ▸ body?_extension rfl) (hname ▸ hfound))

/-- A word is covered where no longer word begins with it. -/
theorem covers_word (hm : (language.reader text).Meets gap (word ++ left)) (hne : word ≠ [])
    (hnext : 1 < word.length → left.head?.any isIdentifierChar = false)
    (hkey : language.lexis.isKeyword word → left.head?.any isIdentifierChar = false) :
    Covers text (depth + 1) none (.word word) gap word left := by
  intro rule his
  obtain ⟨o, rfl, hword⟩ := Rule.is_word his
  refine covers_leaf hm his (takes_literal EndsIn.closes hm hword hne (fun hlong _ => ?_) hkey)
  have hnext := hnext hlong
  cases left with
  | nil => rfl
  | cons c left =>
    rw [← Bool.not_eq_true] at hnext ⊢
    intro hletter
    refine hnext (identifierChar_of_start ?_)
    rw [isIdentifierStart, show isLetter c = true from hletter]
    rfl

/-- A sign of one character that is part of no word. -/
theorem accepts_mark (hm : (language.reader text).Meets gap (c :: left))
    (hkey : language.lexis.isKeyword [c] = false) :
    Accepts text (depth + 1) none (.word [c]) (gap ++ c :: left) left [] :=
  (@covers_word _ _ left gap [c] hm (List.cons_ne_nil _ _) (fun h => absurd h (Nat.lt_irrefl 1))
    fun h => Bool.false_ne_true (hkey ▸ h) |>.elim).accepts

theorem accepts_newLine (hs : '\n' :: left <:+ text) :
    Accepts text (depth + 1) none .newLine ('\n' :: left) left [] := by
  intro rule his
  have hname : rule.name? = none := Rule.name?_of_is his
  obtain ⟨o, rfl⟩ := Rule.is_newLine his
  exact ⟨_, takes_newLine (r := language.reader text) EndsIn.closes rfl hs, signs_leaf hname⟩

theorem declines_newLine (hs : left <:+ text) (hc : left.head? ≠ some '\n') :
    Declines text (depth + 1) .newLine left := by
  intro title rule his
  obtain ⟨o, rfl⟩ := Rule.is_newLine his
  exact refuses_newLine (r := language.reader text) EndsIn.closes rfl hs hc

end Leaves

section Covering

theorem covers_rule (hs : sketches.lookup name = some (some sketch))
    (h : Covers text depth (some name) sketch gap word left) :
    Covers text (depth + 1) title (.rule name) gap word left := by
  intro rule his
  obtain ⟨o, rfl, rfl⟩ := Rule.is_rule his
  obtain ⟨body, hb, hbody⟩ := body?_of_sketch hs
  obtain ⟨tree, ht, hcovers⟩ := h hbody
  exact ⟨tree, takes_reference EndsIn.closes hb ht, hcovers⟩

/-- A choice covers what one alternative does, where those before it decline. -/
theorem covers_choice
    (ht : title.any ["Atom", "Group", "Optional", "Repetition"].contains = false)
    (hpassed : ∀ sketch ∈ passed, Declines text depth sketch (gap ++ (word ++ left)))
    (h : Covers text depth none sketch gap word left) :
    Covers text (depth + 1) title (.choice (passed ++ sketch :: parts)) gap word left := by
  have hsigns : title ≠ some "Atom" ∧ titleSigns title = [] := by
    cases title with
    | none => exact ⟨by simp, rfl⟩
    | some name => simp_all [titleSigns]
  intro rule his
  obtain ⟨tree, branch, htree, ⟨hword, hbranch, -⟩, hchooses⟩ := takes_alternative his hpassed h
  refine ⟨tree, htree, hchooses.window.trans hword, ?_, ?_⟩
  · rw [hchooses.signs, hbranch, sign?_titled (hchooses.named ▸ hsigns.1), hchooses.named, hsigns.2]
    rfl
  · rw [hchooses.named]
    cases title with
    | none => rfl
    | some name => simp_all

/-- An atom with no brackets says the word that it covers. -/
theorem atom_plain (hpassed : ∀ sketch ∈ passed, Declines text depth sketch (gap ++ (word ++ left)))
    (h : Covers text depth none sketch gap word left) :
    Accepts text (depth + 1) (some "Atom") (.choice (passed ++ sketch :: parts))
      (gap ++ (word ++ left)) left [.word word] := by
  intro rule his
  obtain ⟨tree, branch, htree, ⟨hword, hbranch, hplain⟩, hchooses⟩ :=
    takes_alternative his hpassed h
  refine ⟨tree, htree, ?_⟩
  rw [hchooses.signs, hbranch, sign?, if_pos hchooses.named, hchooses.bracketed, hplain,
    hchooses.window, hword]
  rfl

/-- An atom in brackets says what stands between them, and what the brackets say. -/
theorem atom_bracketed (hs : sketches.lookup name = some (some (.sequence parts)))
    (hname : name ∈ ["Group", "Optional", "Repetition"]) {more : List Sketch}
    (hpassed : ∀ sketch ∈ passed, Declines text (depth + 2) sketch left)
    (h : AcceptsAll text depth parts left left' s) :
    Accepts text (depth + 3) (some "Atom") (.choice (passed ++ .rule name :: more)) left left'
      (titleSigns (some name) ++ s) := by
  have hatom : some name ≠ some "Atom" := by
    rintro ⟨⟩
    exact absurd hname (by decide)
  have hbranch : ∀ ⦃rule : Rule⦄, rule.is none (.rule name) → ∃ branch,
      (language.reader text).TakesBy (answers text (depth + 2)) rule left left' branch ∧
        (Tree.label branch).ruleName? = some name ∧
        signs text branch = titleSigns (some name) ++ s := by
    intro rule his
    obtain ⟨o, rfl, rfl⟩ := Rule.is_rule his
    obtain ⟨body, hb, hbody⟩ := body?_of_sketch hs
    obtain ⟨rules, o', rfl, hname', hrules⟩ := Rule.is_sequence hbody
    obtain ⟨trees, htrees, rfl⟩ := h hrules
    refine ⟨_, takes_reference EndsIn.closes hb (takes_sequence EndsIn.closes htrees),
      ruleName?_spanning.trans hname', ?_⟩
    rw [signs_spanning (hname' ▸ hatom), branches_some, hname']
  intro rule his
  obtain ⟨tree, branch, htree, ⟨hlabel, hsigns⟩, hchooses⟩ :=
    takes_alternative his hpassed hbranch
  refine ⟨tree, htree, ?_⟩
  have hbracketed : isBracketed tree := by
    rw [hchooses.bracketed, hlabel]
    exact List.contains_iff_mem.2 hname
  rw [hchooses.signs, hsigns, sign?, if_pos hchooses.named, if_pos hbracketed]
  rfl

end Covering

end OrderedBnf.MetaGrammar
