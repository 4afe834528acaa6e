import Mathlib.Data.List.TakeWhile
import OrderedBnf.MetaGrammar
import OrderedBnf.Proofs.Layout
import OrderedBnf.Proofs.Literals
import OrderedBnf.Proofs.RuleSketches

/-! The notation described in itself: its rules as they are sketched, what is skipped between the
words of a document, and what the extension points find. -/
namespace OrderedBnf.MetaGrammar

def sketches : List (String × Option Sketch) :=
  [("Grammar", some (.sequence [.repetition .newLine,
     .repetition (.sequence [.rule "Rule", .repetition .newLine])])),
   ("Rule", some (.sequence [.name, .word [':'],
     .optional (.sequence [.optional (.rule "Continuation"), .rule "Expression"]), .newLine])),
   ("Expression", some (.sequence [.rule "Sequence", .repetition (.rule "Alternative")])),
   ("Alternative", some (.sequence [.repetition .newLine, .word ['|'],
     .optional (.rule "Continuation"), .rule "Sequence"])),
   ("Sequence", some (.sequence [.rule "Atom", .repetition
     (.choice [.rule "Atom", .sequence [.rule "Continuation", .rule "Atom"]])])),
   ("Atom", some (.choice [.rule "Literal", .rule "Group", .rule "Optional", .rule "Repetition",
     .rule "Reserved", .name])),
   ("Literal", some (.choice [.token, .rule "DoubleQuoted"])),
   ("DoubleQuoted", none),
   ("Continuation", none),
   ("Group", some (.sequence [.word ['('], .rule "Expression", .word [')']])),
   ("Optional", some (.sequence [.word ['['], .rule "Expression", .word [']']])),
   ("Repetition", some (.sequence [.word ['{'], .rule "Expression", .word ['}']])),
   ("Reserved", some (.choice [.word "TOKEN".toList, .word "IDENTIFIER".toList,
     .word "NEW_LINE".toList]))]

theorem sketches_agree : Grammar.agreeAll grammar.entries sketches := by decide +kernel

/-- Every rule that is sketched has the body of its sketch. -/
theorem body?_of_sketch {name : String} {sketch : Sketch}
    (h : sketches.lookup name = some (some sketch)) :
    ∃ body, grammar.body? name = some (some body) ∧ body.is (some name) sketch :=
  Grammar.body?_of_agreeAll sketches_agree h

theorem body?_extension {name : String} (h : sketches.lookup name = some none) :
    grammar.body? name = some none :=
  Grammar.body?_of_agreeAll_none sketches_agree h

def Spaces (text : Text) : Prop := ∀ c ∈ text, c = ' ' ∨ c = '\t'

def Layout (text : Text) : Prop := ∀ c ∈ text, c = ' ' ∨ c = '\t' ∨ c = '\n'

theorem Spaces.layout {text : Text} (h : Spaces text) : Layout text :=
  fun c hc => (h c hc).imp_right .inl

theorem Layout.blanks {text : Text} (h : Layout text) : Blanks text := by
  intro c hc
  rcases h c hc with rfl | rfl | rfl <;> decide

theorem Spaces.nil : Spaces [] := fun _ h => absurd h List.not_mem_nil

section Skipping
variable {p : Char → Bool} {text gap rest : Text} {start : Nat}

theorem skipWhile_eq (p : Char → Bool) (text : Text) (start : Nat) :
    skipWhile p text start text.length = .ok (start + ((text.drop start).takeWhile p).length) := by
  unfold skipWhile
  dsimp only
  rw [Text.window_length, Text.lacks_eq_false (Nat.le_refl _)]
  rfl

theorem take_takeWhile (p : Char → Bool) (text : Text) :
    text.take (text.takeWhile p).length = text.takeWhile p :=
  (List.prefix_iff_eq_take.1 (List.takeWhile_prefix p)).symm

theorem takeWhile_gap (hgap : ∀ c ∈ gap, p c) (hrest : rest.head?.any p = false) :
    (gap ++ rest).takeWhile p = gap := by
  rw [List.takeWhile_append_of_pos hgap]
  cases rest with
  | nil => exact List.append_nil _
  | cons c rest => rw [List.takeWhile_cons_of_neg (by simpa using hrest), List.append_nil]

end Skipping

/-- Whether a line break before a text is the break of a continued rule. -/
def continues (rest : Text) : Bool :=
  let line := Text.trim isBlank (rest.takeWhile (· ≠ '\n'))
  rest ≠ [] && line.head? ≠ some '|' && (headOf? line).isNone

section Continuing
variable {text gap rest : Text} {start : Nat}

/-- Behind a line break a continuation is found where what follows the layout continues the line. -/
theorem continuation_eq (h : text.drop start = '\n' :: (gap ++ rest)) (hgap : Layout gap)
    (hrest : ∀ c ∈ rest.head?, c ≠ ' ' ∧ c ≠ '\t' ∧ c ≠ '\n') :
    continuation text start text.length = if continues rest
      then .ok (some ⟨.token, start, (start + 1 + gap.length : Nat)⟩) else .ok none := by
  have htake : (text.drop start).takeWhile (fun c => c = ' ' || c = '\t' || c = '\n') =
      '\n' :: gap := by
    rw [h, ← List.cons_append]
    refine takeWhile_gap (fun c hc => ?_) ?_
    · rcases List.mem_cons.1 hc with rfl | hc
      · rfl
      · simpa [or_assoc] using hgap c hc
    · cases rest with
      | nil => rfl
      | cons c rest => simpa [and_assoc] using hrest c rfl
  have hnext : text.drop (start + (gap.length + 1)) = rest := by
    rw [← List.drop_drop, h, ← List.cons_append, List.drop_left' (by simp)]
  have hend : start + (gap.length + 1) = text.length ↔ rest = [] := by
    rw [← hnext, List.drop_eq_nil_iff]
    have := congrArg List.length h
    simp only [List.length_drop, List.length_cons, List.length_append] at this
    omega
  unfold continuation
  rw [h]
  dsimp only
  rw [if_neg (by simp), skipWhile_eq, htake]
  dsimp only
  rw [List.length_cons, Text.window_length, hnext, continues]
  by_cases hempty : rest = []
  · simp [hend, hempty]
  · have hstop : ((start + (gap.length + 1) : Nat) : Int) = (start + 1 + gap.length : Nat) := by
      omega
    rw [hstop]
    cases hhead : headOf? (Text.trim isBlank (rest.takeWhile (· ≠ '\n'))) with
    | some => simp
    | none =>
      by_cases hbar : (Text.trim isBlank (rest.takeWhile (· ≠ '\n'))).head? = some '|' <;>
        simp_all

theorem continuation_nil {c : Char} (h : text.drop start = c :: rest) (hc : c ≠ '\n') :
    continuation text start text.length = .ok none := by
  unfold continuation
  rw [h]
  exact if_pos hc

/-- A continuation that is found begins with a line break. -/
theorem continuation_found {found : Found} (hlt : start < text.length)
    (h : continuation text start text.length = .ok (some found)) : ∃ gap rest,
      text.drop start = '\n' :: (gap ++ rest) ∧ Layout gap ∧ continues rest ∧
      found = ⟨.token, start, (start + 1 + gap.length : Nat)⟩ := by
  obtain ⟨c, tail, hdrop⟩ := List.exists_cons_of_ne_nil (by simpa using hlt : text.drop start ≠ [])
  by_cases hc : c = '\n'
  · subst hc
    let p : Char → Bool := fun c => c = ' ' || c = '\t' || c = '\n'
    have hgap : Layout (tail.takeWhile p) := fun c hc => by
      simpa [p, or_assoc] using List.mem_takeWhile_imp hc
    have hrest : ∀ c ∈ (tail.dropWhile p).head?, c ≠ ' ' ∧ c ≠ '\t' ∧ c ≠ '\n' := by
      intro c hc
      have := List.head?_dropWhile_not p tail
      rw [Option.mem_def.1 hc] at this
      simpa [p, and_assoc] using this
    have hsplit : text.drop start = '\n' :: (tail.takeWhile p ++ tail.dropWhile p) := by
      rw [List.takeWhile_append_dropWhile, hdrop]
    rw [continuation_eq hsplit hgap hrest] at h
    split at h
    · cases h
      exact ⟨_, _, hsplit, hgap, ‹_›, rfl⟩
    · cases h
  · rw [continuation_nil hdrop hc] at h
    cases h

end Continuing

theorem extend_continuation (text : Text) (start stop : Nat) :
    Scanner.byName scanners "Continuation" text start stop = continuation text start stop := rfl

theorem extend_quoted (text : Text) (start stop : Nat) :
    Scanner.byName scanners "DoubleQuoted" text start stop =
      Quotation.scanner '"' text start stop := rfl

theorem continuation_advances : Scanner.Advances continuation := by
  intro text start found hlt h
  obtain ⟨gap, rest, hdrop, -, -, rfl⟩ := continuation_found hlt h
  have hlength := congrArg List.length hdrop
  simp only [List.length_drop, List.length_cons, List.length_append] at hlength
  refine ⟨rfl, ?_, ?_⟩ <;> dsimp only <;> omega

/-- What is skipped stays within a document, and so does what the extension points find. -/
theorem advances (text : Text) : language.lexis.Advances text text.length where
  skip := skipWhile_within
  extend {rule start found} hlt h := by
    change Scanner.byName scanners rule.target text start text.length = _ at h
    simp only [Scanner.byName, scanners, List.lookup_cons, List.lookup_nil] at h
    split at h
    · exact (Quotation.scanner_stable _).advances hlt h
    · split at h
      · exact continuation_advances hlt h
      · cases h

end OrderedBnf.MetaGrammar
