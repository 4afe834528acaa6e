import OrderedBnf.Proofs.NotationAtoms
import OrderedBnf.Proofs.RuleLines

/-! Chains of operands in the notation: atoms in a sequence, and sequences in an expression. -/
namespace OrderedBnf.MetaGrammar
open Reader

def ruleOf : Level → String
  | .operand => "Atom"
  | .sequence => "Sequence"
  | .choice => "Expression"

def round : Operator → Sketch
  | .sequence => .choice [.rule "Atom", .sequence [.rule "Continuation", .rule "Atom"]]
  | .choice => .rule "Alternative"

/-- How much deeper a round goes than its operand, where an operand may stand on a further line or
where it may not. -/
def roundDepth (folds : Bool) : Operator → Nat
  | .sequence => 1 + folds.toNat
  | .choice => 2

theorem lookup_level (operator : Operator) : sketches.lookup (ruleOf operator.level) =
    some (some (.sequence [.rule (ruleOf operator.tighter), .repetition (round operator)])) := by
  cases operator <;> rfl

theorem ruleOf_level_ne (operator : Operator) : titleSigns (some (ruleOf operator.level)) = [] ∧
    some (ruleOf operator.level) ≠ some "Atom" := by
  cases operator <;> decide

/-- How deep the match of an expression goes that has a number of brackets within it. -/
def depthOf (folds : Bool) : Level → Nat → Nat
  | .operand, n => (13 + folds.toNat) * n + 5
  | .sequence, n => (13 + folds.toNat) * n + folds.toNat + 9
  | .choice, n => (13 + folds.toNat) * n + folds.toNat + 14

theorem depthOf_level (folds : Bool) (operator : Operator) (n : Nat) :
    depthOf folds operator.level n =
      depthOf folds operator.tighter n + roundDepth folds operator + 3 := by
  cases operator with
  | sequence =>
    simp only [Operator.level, Operator.tighter, depthOf, roundDepth]
    omega
  | choice => rfl

theorem depthOf_succ (folds : Bool) (n : Nat) :
    depthOf folds .operand (n + 1) = depthOf folds .choice n + 4 := by
  simp only [depthOf, Nat.mul_succ]
  omega

theorem le_depthOf {folds : Bool} {level : Level} {n : Nat} : 5 ≤ depthOf folds level n := by
  cases level <;> simp only [depthOf] <;> omega

section Stopping
variable (text : Text)

/-- What may follow an expression of a level: nothing that would go on with it. -/
structure Stops (level : Level) (left : Text) : Prop where
  next : left.head?.any isIdentifierChar = false
  colon : left.head? ≠ some ':'
  sequence : level ≠ .operand → Declines text 6 (round .sequence) left
  choice : level = .choice → Declines text 6 (round .choice) left

end Stopping

variable {text : Text} {left left' middle gap word rest next : Text} {c : Char} {level : Level}
  {operator : Operator} {e : Expression} {es : List Expression} {depth n : Nat} {folds : Bool}

section Following

def enders : Text := [')', ']', '}', '|', '\n']

theorem not_mark_of_ender (h : c ∈ enders) :
    c ∉ marks ∧ isIdentifierStart c = false ∧ isIdentifierChar c = false ∧ c ≠ ' ' ∧ c ≠ '\t' := by
  have hall : enders.all fun c => !marks.contains c && !isIdentifierStart c &&
      !isIdentifierChar c && c ≠ ' ' && c ≠ '\t' := by decide
  simpa [and_assoc] using List.all_eq_true.1 hall c h

/-- No operand follows where none begins and no line is continued. -/
theorem declines_operand (hgap : Spaces gap) (hs : gap ++ c :: rest <:+ text) (hc : c ∈ enders)
    (h : Declines text 4 (.rule "Continuation") (gap ++ c :: rest)) :
    Declines text 6 (round .sequence) (gap ++ c :: rest) := by
  obtain ⟨hmark, hstart, -, hsharp⟩ := not_mark_of_ender hc
  refine declines_choice fun sketch hsketch => ?_
  simp only [List.mem_cons, List.not_mem_nil, or_false] at hsketch
  rcases hsketch with rfl | rfl
  · exact declines_atom (meets hgap hsharp hs) hmark hstart
  · exact declines_first h

theorem next_of_spaces (hgap : Spaces gap) (hc : isIdentifierChar c = false) :
    (gap ++ c :: rest).head?.any isIdentifierChar = false := by
  cases gap with
  | nil => exact hc
  | cons d gap => rcases hgap d List.mem_cons_self with rfl | rfl <;> rfl

theorem head_ne (hgap : Spaces gap) {d : Char} (hd : d ≠ ' ' ∧ d ≠ '\t') (hc : c ≠ d) :
    (gap ++ c :: rest).head? ≠ some d := by
  cases gap with
  | nil => simpa using hc
  | cons d' gap => rcases hgap d' List.mem_cons_self with rfl | rfl <;> simp [hd.1.symm, hd.2.symm]

/-- Line breaks in a row. -/
theorem accepts_newLines (hs : List.replicate n '\n' ++ left <:+ text)
    (hc : left.head? ≠ some '\n') :
    Accepts text 2 none (.repetition .newLine) (List.replicate n '\n' ++ left) left [] := by
  refine accepts_repetition nofun ?_ hs
  induction n with
  | zero => exact acceptsRounds_done (declines_newLine hs hc)
  | succ n ih =>
    exact acceptsRounds_round (accepts_newLine hs) (Nat.lt_succ_self _)
      (ih ((List.suffix_cons ..).trans hs))

/-- What no rule goes on with after line breaks: a bar, the head of a rule, or nothing. -/
theorem declines_continuation (hs : '\n' :: (gap ++ next) <:+ text) (hgap : Layout gap)
    (hnext : ∀ c ∈ next.head?, isBlank c = false) (h : continues next = false) :
    Declines text 1 (.rule "Continuation") ('\n' :: (gap ++ next)) := by
  have hm : (language.reader text).Meets [] ('\n' :: (gap ++ next)) :=
    meets Spaces.nil (by decide) hs
  have hrest : ∀ c ∈ next.head?, c ≠ ' ' ∧ c ≠ '\t' ∧ c ≠ '\n' := fun c hc => by
    have hc := hnext c hc
    refine ⟨?_, ?_, ?_⟩ <;> rintro rfl <;> cases hc
  intro title rule his
  obtain ⟨o, rfl, hname⟩ := Rule.is_rule his
  refine refuses_extension EndsIn.closes hm (hname ▸ body?_extension rfl) ?_
  have hdrop : text.drop ((language.reader text).offset ('\n' :: (gap ++ next))) =
      '\n' :: (gap ++ next) := drop_offset (r := language.reader text) hs
  have hfound := continuation_eq hdrop hgap hrest
  rw [h, if_neg Bool.false_ne_true, ← extend_continuation, ← hname] at hfound
  exact hfound

/-- A line break that a rule is continued behind. -/
theorem accepts_continuation (hs : '\n' :: (gap ++ next) <:+ text) (hgap : Layout gap)
    (hnext : ∀ c ∈ next.head?, isBlank c = false) (h : continues next) :
    Accepts text 1 none (.rule "Continuation") ('\n' :: (gap ++ next)) next [] := by
  have hm : (language.reader text).Meets [] ('\n' :: gap ++ next) :=
    meets Spaces.nil (by decide) hs
  have hrest : ∀ c ∈ next.head?, c ≠ ' ' ∧ c ≠ '\t' ∧ c ≠ '\n' := fun c hc => by
    have hc := hnext c hc
    refine ⟨?_, ?_, ?_⟩ <;> rintro rfl <;> cases hc
  have hcovers : Covers text 1 none (.rule "Continuation") [] ('\n' :: gap) next := by
    intro rule his
    obtain ⟨o, rfl, hname⟩ := Rule.is_rule his
    have hdrop : text.drop ((language.reader text).offset ('\n' :: gap ++ next)) =
        '\n' :: (gap ++ next) := drop_offset (r := language.reader text) hs
    have hfound := continuation_eq hdrop hgap hrest
    rw [h, if_pos rfl, Nat.add_assoc, Nat.add_comm 1, ← List.length_cons (a := '\n')] at hfound
    rw [← extend_continuation] at hfound
    exact covers_leaf hm his
      (takes_extension EndsIn.closes hm (hname ▸ body?_extension rfl) (hname ▸ hfound))
  exact hcovers.accepts

/-- A line that starts with a bar continues no sequence. -/
theorem continues_bar (rest : Text) : continues ('|' :: rest) = false := by
  have hline : ('|' :: rest).takeWhile (· ≠ '\n') = '|' :: rest.takeWhile (· ≠ '\n') :=
    List.takeWhile_cons_of_pos (by decide)
  obtain ⟨tail, htrim⟩ := @Text.trim_ne_nil isBlank ('|' :: rest.takeWhile (· ≠ '\n')) '|' _
    (List.dropWhile_cons_of_neg (by decide))
  rw [continues, hline, htrim]
  simp

/-- A bar and a closing bracket end a sequence, and the bracket an expression as well. -/
theorem stops_mark (hgap : Spaces gap) (hs : gap ++ c :: rest <:+ text)
    (hc : c ∈ [')', ']', '}', '|']) (hbar : level = .choice → c ≠ '|') :
    Stops text level (gap ++ c :: rest) := by
  have hender : c ∈ enders := List.mem_append_left ['\n'] hc
  obtain ⟨-, -, hchar, hsharp⟩ := not_mark_of_ender hender
  have hfeed : c ≠ '\n' := by
    rintro rfl
    exact absurd hc (by decide)
  have hcolon : c ≠ ':' := by
    rintro rfl
    exact absurd hc (by decide)
  have hm := meets hgap hsharp hs
  have hcontinuation : Declines text 1 (.rule "Continuation") (gap ++ c :: rest) :=
    @declines_of_beginsIn _ _ _ _ ['\n'] hm (by simpa using hfeed) _ _ (by decide)
  refine ⟨next_of_spaces hgap hchar, head_ne hgap (by decide) hcolon, fun _ => ?_, fun hlevel => ?_⟩
  · exact declines_operand hgap hs hender (hcontinuation.mono (by decide))
  · have hbars : Declines text 2 (.word ['|']) (gap ++ c :: rest) :=
      @declines_of_beginsIn _ _ _ _ ['|'] hm (by simpa using hbar hlevel) _ _ (by decide)
    have hbreaks : AcceptsAll text 2 [.repetition .newLine] (gap ++ c :: rest) (gap ++ c :: rest) [] :=
      acceptsAll_cons (@accepts_newLines _ _ 0 hs (head_ne hgap (by decide) hfeed)) acceptsAll_nil
    exact (declines_rule rfl (declines_after hbreaks hbars)).mono (by decide : 4 ≤ 6)

/-- A bar ends a sequence, also on a further line. -/
theorem stops_bar {breaks : Nat} (hgap : Spaces gap)
    (hs : List.replicate breaks '\n' ++ (gap ++ '|' :: rest) <:+ text) :
    Stops text .sequence (List.replicate breaks '\n' ++ (gap ++ '|' :: rest)) := by
  cases breaks with
  | zero => exact stops_mark hgap hs (by decide) (by rintro ⟨⟩)
  | succ breaks =>
    have hlayout : Layout (List.replicate breaks '\n' ++ gap) :=
      List.forall_mem_append.2 ⟨layout_replicate breaks, hgap.layout⟩
    rw [List.replicate_succ, List.cons_append, ← List.append_assoc] at hs ⊢
    have hcontinuation := declines_continuation hs hlayout (by simp [isBlank]) (continues_bar rest)
    exact ⟨rfl, by simp, fun _ => @declines_operand _ [] _ _ Spaces.nil hs (by decide)
      (hcontinuation.mono (by decide)), by rintro ⟨⟩⟩

/-- No line is continued before a word. -/
theorem accepts_no_continuation (hgap : Spaces gap) (hword : Firm word)
    (hs : gap ++ (word ++ left) <:+ text) :
    Accepts text 2 none (.optional (.rule "Continuation")) (gap ++ (word ++ left))
      (gap ++ (word ++ left)) [] := by
  have hm := meets_firm hgap hword hs
  obtain ⟨c, rest, rfl, hc, -⟩ := hword.head
  have hdeclines : Declines text 1 (.rule "Continuation") (gap ++ (c :: rest ++ left)) := by
    refine @declines_of_beginsIn _ _ _ _ ['\n'] hm ?_ _ _ (by decide)
    rw [List.mem_singleton]
    rintro rfl
    cases hc
  exact accepts_absent nofun hdeclines

/-- At the end of a document nothing is left to skip. -/
theorem skip_end (text : Text) : (language.reader text).lexis.skip text
    ((language.reader text).offset []) text.length = .ok text.length := by
  change skipWhile (fun c => c = ' ' || c = '\t') text _ text.length = _
  have hdrop : text.drop ((language.reader text).offset []) = [] :=
    drop_offset (r := language.reader text) List.nil_suffix
  rw [skipWhile_eq, hdrop]
  rfl

/-- What may stand behind the line breaks after a rule: the head of another one, or nothing. -/
structure Onward (indent rest : Text) : Prop where
  spaces : Spaces indent
  start : ∀ c ∈ rest.head?, isIdentifierStart c
  halts : continues rest = false
  ended : rest = [] → indent = []

theorem isBlank_of_start (h : isIdentifierStart c) : isBlank c = false :=
  not_blank_of_identifierChar (identifierChar_of_start h)

theorem Onward.ne_feed (h : Onward gap next) : (gap ++ next).head? ≠ some '\n' := by
  cases next with
  | nil => simp [h.ended rfl]
  | cons c next =>
    refine head_ne h.spaces (by decide) ?_
    rintro rfl
    cases h.start '\n' rfl

theorem Onward.declines_bar (h : Onward gap next) (hs : gap ++ next <:+ text) :
    Declines text 1 (.word ['|']) (gap ++ next) := by
  cases next with
  | nil =>
    rw [h.ended rfl]
    intro title rule his
    obtain ⟨o, rfl, hword⟩ := Rule.is_word his
    exact refuses_literal_at_end (r := language.reader text) EndsIn.closes (skip_end text)
      (Nat.le_refl _) (hword ▸ List.cons_ne_nil _ _)
  | cons c next =>
    have hc : isIdentifierStart c := h.start c rfl
    have hm := meets h.spaces (by refine ⟨?_, ?_⟩ <;> rintro rfl <;> cases hc) hs
    refine @declines_of_beginsIn _ _ _ _ ['|'] hm ?_ _ _ (by decide)
    rw [List.mem_singleton]
    rintro rfl
    cases hc

/-- The line breaks behind a rule are no continuation of it. -/
theorem Onward.declines_continuation {breaks : Nat} (h : Onward gap next)
    (hs : '\n' :: (List.replicate breaks '\n' ++ (gap ++ next)) <:+ text) :
    Declines text 1 (.rule "Continuation")
      ('\n' :: (List.replicate breaks '\n' ++ (gap ++ next))) := by
  have hlayout : Layout (List.replicate breaks '\n' ++ gap) :=
    List.forall_mem_append.2 ⟨layout_replicate breaks, h.spaces.layout⟩
  rw [← List.append_assoc] at hs ⊢
  exact MetaGrammar.declines_continuation hs hlayout
    (fun c hc => isBlank_of_start (h.start c hc)) h.halts

/-- A line break before the head of a rule, or at the end, ends an expression. -/
theorem Onward.stops {breaks : Nat} (h : Onward gap next)
    (hs : '\n' :: (List.replicate breaks '\n' ++ (gap ++ next)) <:+ text) :
    Stops text level ('\n' :: (List.replicate breaks '\n' ++ (gap ++ next))) := by
  have hcontinuation := h.declines_continuation hs
  refine ⟨rfl, by simp, fun _ => ?_, fun _ => ?_⟩
  · exact @declines_operand _ [] _ _ Spaces.nil hs (by decide) (hcontinuation.mono (by decide))
  · rw [← List.cons_append, ← List.replicate_succ] at hs ⊢
    have hbreaks := acceptsAll_cons (accepts_newLines hs h.ne_feed) acceptsAll_nil
    have hbar := (h.declines_bar ((List.suffix_append _ _).trans hs)).mono (by decide : 1 ≤ 2)
    exact (declines_rule rfl (declines_after hbreaks hbar)).mono (by decide : 4 ≤ 6)

end Following

section Chains
variable (text) (folds) (n : Nat)

def Chain (operator : Operator) (left left' : Text) (s : List Sign) : Prop :=
  ∃ word middle first more, word ≠ [] ∧ left = word ++ middle ∧ first ++ more = s ∧
    Accepts text (depthOf folds operator.tighter n) none (.rule (ruleOf operator.tighter)) left
      middle first ∧
    AcceptsRounds text (depthOf folds operator.tighter n + roundDepth folds operator)
      (round operator) middle left' more

def Says : Level → Text → Text → List Sign → Prop
  | .operand, left, left', s =>
    Accepts text (depthOf folds .operand n) none (.rule (ruleOf .operand)) left left' s
  | .sequence, left, left', s => Chain text folds n .sequence left left' s
  | .choice, left, left', s => Chain text folds n .choice left left' s

end Chains

section Chaining
variable {s s' : List Sign}

theorem says_level : Says text folds n operator.level left left' s ↔
    Chain text folds n operator left left' s := by
  cases operator <;> rfl

/-- A chain of operands is accepted as the rule of its level. -/
theorem Chain.accepts (h : Chain text folds n operator left left' s) (hs : left <:+ text) :
    Accepts text (depthOf folds operator.level n) none (.rule (ruleOf operator.level)) left left'
      s := by
  obtain ⟨word, middle, first, more, -, rfl, rfl, hfirst, hrounds⟩ := h
  obtain ⟨hsigns, hatom⟩ := ruleOf_level_ne operator
  have hrest : Accepts text (depthOf folds operator.tighter n + roundDepth folds operator + 1) none
      (.repetition (round operator)) middle left' more :=
    accepts_repetition nofun hrounds ((List.suffix_append _ _).trans hs)
  have hparts := acceptsAll_cons (hfirst.mono (Nat.le_add_right _ (roundDepth folds operator + 1)))
    (acceptsAll_cons hrest acceptsAll_nil)
  have hchain := accepts_sequence hatom hparts
  rw [hsigns, List.append_nil] at hchain
  exact depthOf_level folds operator n ▸ accepts_rule (lookup_level operator) hchain

/-- What says an expression is accepted as the rule of its level. -/
theorem Says.accepts (h : Says text folds n level left left' s) (hs : left <:+ text) :
    Accepts text (depthOf folds level n) none (.rule (ruleOf level)) left left' s := by
  cases level with
  | operand => exact h
  | sequence => exact @Chain.accepts _ _ _ .sequence _ _ _ h hs
  | choice => exact @Chain.accepts _ _ _ .choice _ _ _ h hs

/-- What can follow a chain can follow its last operand. -/
theorem Stops.tighter (h : Stops text operator.level left) : Stops text operator.tighter left where
  next := h.next
  colon := h.colon
  sequence hne := by
    cases operator with
    | sequence => exact absurd rfl hne
    | choice => exact h.sequence (by decide)
  choice he := by cases operator <;> cases he

theorem Stops.declines_round (h : Stops text operator.level left) :
    Declines text (depthOf folds operator.tighter n + roundDepth folds operator) (round operator)
      left := by
  have hdepth : 6 ≤ depthOf folds operator.tighter n + roundDepth folds operator := by
    have hle := @le_depthOf folds operator.tighter n
    have hround : 1 ≤ roundDepth folds operator := by cases operator <;> simp [roundDepth]
    omega
  cases operator with
  | sequence => exact (h.sequence (by decide)).mono hdepth
  | choice => exact (h.choice rfl).mono hdepth

/-- An operand by itself is a chain. -/
theorem chain_alone (hword : word ≠ []) (hs : gap ++ (word ++ left) <:+ text)
    (h : Says text folds n operator.tighter (gap ++ (word ++ left)) left s)
    (hstop : Stops text operator.level left) :
    Chain text folds n operator (gap ++ (word ++ left)) left s :=
  ⟨gap ++ word, left, s, [], by simp [hword], (List.append_assoc ..).symm, List.append_nil s,
    h.accepts hs, acceptsRounds_done hstop.declines_round⟩

end Chaining

def Fold (folds : Bool) (gap : Text) : Prop :=
  ∃ breaks spaces, gap = List.replicate breaks '\n' ++ spaces ∧ Spaces spaces ∧
    (folds = false → breaks = 0)

theorem Spaces.fold (h : Spaces gap) : Fold folds gap := ⟨0, gap, rfl, h, fun _ => rfl⟩

theorem Fold.layout (h : Fold folds gap) : Layout gap := by
  obtain ⟨breaks, spaces, rfl, hspaces, -⟩ := h
  exact List.forall_mem_append.2 ⟨layout_replicate breaks, hspaces.layout⟩

def spaced (folds : Bool) : Spacing :=
  ⟨fun gap => gap ≠ [] ∧ Fold folds gap, Fold folds, Fold folds, Spaces⟩

section Joining
variable {between : Text} {s s' : List Sign}

theorem accepts_broken {breaks : Nat} (hspaces : Spaces gap) (hword : Firm word)
    (hcontinues : continues (word ++ left))
    (hs : List.replicate (breaks + 1) '\n' ++ gap ++ (word ++ left) <:+ text) :
    Accepts text 1 none (.rule "Continuation")
      (List.replicate (breaks + 1) '\n' ++ gap ++ (word ++ left)) (word ++ left) [] := by
  have hlayout : Layout (List.replicate breaks '\n' ++ gap) :=
    List.forall_mem_append.2 ⟨layout_replicate breaks, hspaces.layout⟩
  rw [List.replicate_succ, List.cons_append, List.cons_append] at hs ⊢
  refine accepts_continuation hs hlayout (fun c hc => ?_) hcontinues
  obtain ⟨d, rest, rfl, hd, -⟩ := hword.head
  cases hc
  exact hd

/-- Before a word the notation goes on, over line breaks if there are any. -/
theorem accepts_fold (hgap : Fold folds gap) (hword : Firm word)
    (hcontinues : continues (word ++ left)) (hs : gap ++ (word ++ left) <:+ text) :
    ∃ gap', Spaces gap' ∧ gap' ++ (word ++ left) <:+ gap ++ (word ++ left) ∧
      Accepts text 2 none (.optional (.rule "Continuation")) (gap ++ (word ++ left))
        (gap' ++ (word ++ left)) [] := by
  obtain ⟨breaks, spaces, rfl, hspaces, -⟩ := hgap
  cases breaks with
  | zero => exact ⟨spaces, hspaces, List.suffix_refl _, accepts_no_continuation hspaces hword hs⟩
  | succ breaks =>
    exact ⟨[], Spaces.nil, List.suffix_append _ _,
      accepts_present nofun (accepts_broken hspaces hword hcontinues hs)⟩

/-- What stands between two operands ends the first of them. -/
theorem stops_between (hb : (spaced folds).Between operator between) (hs : between ++ left <:+ text) :
    Stops text operator.tighter (between ++ left) := by
  cases hb with
  | apart hb =>
    obtain ⟨c, gap, rfl⟩ := List.exists_cons_of_ne_nil hb.1
    have hc : isIdentifierChar c = false ∧ c ≠ ':' := by
      rcases hb.2.layout c List.mem_cons_self with rfl | rfl | rfl <;> decide
    exact ⟨hc.1, fun h => hc.2 (Option.some.inj h), fun h => absurd rfl h, nofun⟩
  | @bar before after hbefore _ =>
    obtain ⟨breaks, spaces, rfl, hspaces, -⟩ := hbefore
    have hsplit : List.replicate breaks '\n' ++ spaces ++ '|' :: after ++ left =
        List.replicate breaks '\n' ++ (spaces ++ '|' :: (after ++ left)) := by simp
    rw [hsplit] at hs ⊢
    exact stops_bar hspaces hs

/-- An operand on a later line makes a round, behind the line breaks. -/
theorem accepts_brokenRound {breaks : Nat} (hspaces : Spaces gap) (hword : Firm word)
    (hcontinues : continues (word ++ left))
    (hs : List.replicate (breaks + 1) '\n' ++ gap ++ (word ++ left) <:+ text)
    (h : Accepts text (depthOf true .operand n) none (.rule "Atom") (word ++ left) middle s) :
    Accepts text (depthOf true .operand n + 2) none (round .sequence)
      (List.replicate (breaks + 1) '\n' ++ gap ++ (word ++ left)) middle s := by
  have hcontinuation := accepts_broken hspaces hword hcontinues hs
  rw [List.replicate_succ, List.cons_append, List.cons_append] at hs hcontinuation ⊢
  have hle := @le_depthOf true .operand n
  have hparts := acceptsAll_cons (hcontinuation.mono (by omega))
    (acceptsAll_cons h acceptsAll_nil)
  have hatom : ∀ sketch ∈ [Sketch.rule "Atom"], Declines text (depthOf true .operand n + 1) sketch
      ('\n' :: (List.replicate breaks '\n' ++ gap ++ (word ++ left))) :=
    List.forall_mem_singleton.2 (Declines.mono (by omega) (@declines_atom _ [] _ _
      (meets Spaces.nil (by decide) hs) (by decide) (by decide)))
  have hsequence := @accepts_sequence _ _ none _ _ _ _ nofun hparts
  have hround := @accepts_choice _ _ none _ [] [.rule "Atom"] _ _ _ nofun hatom hsequence
  have hsigns : titleSigns none ++ (titleSigns none ++ ([] ++ (s ++ []))) = s := List.append_nil s
  exact hsigns ▸ hround

/-- After a bar an operand makes a round, whatever folds on either side of the bar. -/
theorem accepts_barRound {before after : Text} (hbefore : Fold folds before)
    (hafter : Fold folds after) (hword : Firm word) (hcontinues : continues (word ++ left))
    (hs : before ++ '|' :: after ++ (word ++ left) <:+ text) :
    ∃ gap, Spaces gap ∧ gap ++ (word ++ left) <:+ before ++ '|' :: after ++ (word ++ left) ∧
      ∀ {middle s}, Accepts text (depthOf folds .sequence n) none (.rule "Sequence")
          (gap ++ (word ++ left)) middle s →
        Accepts text (depthOf folds .sequence n + 2) none (round .choice)
          (before ++ '|' :: after ++ (word ++ left)) middle s := by
  obtain ⟨breaks, spaces, rfl, hspaces, -⟩ := hbefore
  have hsplit : List.replicate breaks '\n' ++ spaces ++ '|' :: after ++ (word ++ left) =
      List.replicate breaks '\n' ++ (spaces ++ '|' :: (after ++ (word ++ left))) := by simp
  rw [hsplit] at hs ⊢
  have hbar : spaces ++ '|' :: (after ++ (word ++ left)) <:+ text :=
    (List.suffix_append _ _).trans hs
  have hafter' : after ++ (word ++ left) <:+ text :=
    (List.suffix_cons ..).trans ((List.suffix_append ..).trans hbar)
  obtain ⟨gap, hgap, hsuffix, hcontinued⟩ := accepts_fold hafter hword hcontinues hafter'
  refine ⟨gap, hgap, ?_, fun {middle s} h => ?_⟩
  · exact hsuffix.trans ((List.suffix_cons ..).trans
      ((List.suffix_append ..).trans (List.suffix_append ..)))
  · have hbreaks := accepts_newLines hs (head_ne hspaces (by decide) (by decide))
    have hmark := @accepts_mark _ 0 _ spaces '|' (meets hspaces (by decide) hbar) rfl
    have hle := @le_depthOf folds .sequence n
    have hparts := acceptsAll_cons (hbreaks.mono (by omega)) (acceptsAll_cons
      (hmark.mono (by omega)) (acceptsAll_cons (hcontinued.mono (by omega))
        (acceptsAll_cons h acceptsAll_nil)))
    have halternative := @accepts_sequence _ _ (some "Alternative") _ _ _ _ (by decide) hparts
    have hsigns : titleSigns (some "Alternative") ++ ([] ++ ([] ++ ([] ++ (s ++ [])))) = s :=
      List.append_nil s
    exact accepts_rule rfl (hsigns ▸ halternative)

/-- After what stands between two operands, the second one makes a round. -/
theorem accepts_round (hb : (spaced folds).Between operator between) (hword : Firm word)
    (hcontinues : continues (word ++ left)) (hs : between ++ (word ++ left) <:+ text) :
    ∃ gap, Spaces gap ∧ gap ++ (word ++ left) <:+ between ++ (word ++ left) ∧ ∀ {middle s},
      Accepts text (depthOf folds operator.tighter n) none (.rule (ruleOf operator.tighter))
        (gap ++ (word ++ left)) middle s →
      Accepts text (depthOf folds operator.tighter n + roundDepth folds operator) none
        (round operator) (between ++ (word ++ left)) middle s := by
  cases hb with
  | apart hb =>
    obtain ⟨-, breaks, spaces, rfl, hspaces, hfolds⟩ := hb
    cases breaks with
    | zero =>
      refine ⟨spaces, hspaces, List.suffix_refl _, fun {middle s} h => ?_⟩
      have hround := @accepts_choice _ _ none _ [.sequence [.rule "Continuation", .rule "Atom"]] []
        _ _ _ nofun (by simp) h
      exact hround.mono (by simp [roundDepth])
    | succ breaks =>
      obtain rfl : folds = true := by
        cases folds
        · cases hfolds rfl
        · rfl
      exact ⟨[], Spaces.nil, List.suffix_append _ _, fun {middle s} h =>
        accepts_brokenRound hspaces hword hcontinues hs h⟩
  | bar hbefore hafter => exact accepts_barRound hbefore hafter hword hcontinues hs

end Joining

end OrderedBnf.MetaGrammar
