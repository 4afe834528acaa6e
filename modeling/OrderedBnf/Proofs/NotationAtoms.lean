import OrderedBnf.Proofs.NotationReading
import OrderedBnf.Proofs.NotationTaking

/-! The atoms of the notation: what begins one, and the signs of one. -/
namespace OrderedBnf.MetaGrammar
open Reader

/-- The words that stand for themselves in an expression of the notation. -/
inductive Word : Leaf → Text → Prop
  | literal {mark body} : isQuote mark → Escaped mark body → '\n' ∉ body →
      Word .literal (mark :: (body ++ [mark]))
  | reserved {form word} : Rule.reserved? word = some form → Word form word
  | reference {word} : language.lexis.IsName word → Word .reference word

def marks : Text := ['\'', '"', '(', '[', '{']

variable {text : Text} {left gap word rest : Text} {c : Char}

def marked : List Sketch := [.rule "Literal", .rule "Group", .rule "Optional", .rule "Repetition"]

theorem not_mark_of_start (h : isIdentifierStart c) : c ∉ marks := by
  have hall : marks.all fun c => !isIdentifierStart c := by decide
  intro hc
  simpa [h] using List.all_eq_true.1 hall c hc

/-- What begins with certain characters fails on all others, one after another. -/
theorem declines_all {chars : Text} {depth : Nat} {passed : List Sketch}
    (hm : (language.reader text).Meets gap (c :: rest)) (hc : c ∉ chars)
    (h : passed.all (beginsIn chars depth)) :
    ∀ sketch ∈ passed, Declines text depth sketch (gap ++ c :: rest) :=
  fun sketch hs => declines_of_beginsIn hm hc (List.all_eq_true.1 h sketch hs)

section Declining
variable (hm : (language.reader text).Meets gap (c :: rest))
include hm

theorem declines_name (hc : isIdentifierStart c = false) :
    Declines text 1 .name (gap ++ c :: rest) := by
  intro title rule his
  obtain ⟨o, rfl⟩ := Rule.is_name his
  exact refuses_identifier EndsIn.closes hm hc

/-- No atom begins with anything but a mark and the start of a word. -/
theorem declines_atom (hc : c ∉ marks) (hstart : isIdentifierStart c = false) :
    Declines text 5 (.rule "Atom") (gap ++ c :: rest) := by
  have hletters : ['T', 'I', 'N'].all isIdentifierStart := by decide
  have hreserved : c ∉ ['T', 'I', 'N'] := fun h =>
    Bool.false_ne_true (hstart ▸ List.all_eq_true.1 hletters c h)
  have hmarks : ∀ sketch ∈ marked, Declines text 3 sketch (gap ++ c :: rest) :=
    declines_all hm hc (by decide)
  have hwords : Declines text 3 (.rule "Reserved") (gap ++ c :: rest) :=
    declines_of_beginsIn hm hreserved (by decide)
  refine declines_rule rfl (declines_choice fun sketch hs => ?_)
  rcases List.mem_append.1 (show sketch ∈ marked ++ [.rule "Reserved", .name] from hs) with hs | hs
  · exact hmarks sketch hs |>.mono (by decide)
  · simp only [List.mem_cons, List.not_mem_nil, or_false] at hs
    rcases hs with rfl | rfl
    · exact hwords
    · exact (declines_name hm hstart).mono (by decide)

end Declining

section Words
variable {form : Leaf}

theorem Word.terminal (h : Word form word) : Terminal form word := by
  cases h with
  | literal hmark hbody _ => exact .literal hmark hbody
  | reserved h => exact .reserved h
  | reference h => exact .reference (isIdentifier_of_isName h) (reserved_of_keyword h.free)

theorem meets_firm (hgap : Spaces gap) (hfirm : Firm word) (hs : gap ++ (word ++ left) <:+ text) :
    (language.reader text).Meets gap (word ++ left) := by
  obtain ⟨c, rest, rfl, hc, -⟩ := hfirm.head
  refine meets hgap ⟨?_, ?_⟩ hs
  · rintro rfl
    cases hc
  · rintro rfl
    cases hc

theorem mem_reservedWords (h : Rule.reserved? word = some form) : word ∈ reservedWords := by
  rw [Rule.reserved?] at h
  split at h
  · simp [reservedWords, *]
  · split at h
    · simp [reservedWords, *]
    · split at h
      · simp [reservedWords, *]
      · cases h

theorem reservedWords_start (h : word ∈ reservedWords) :
    ∃ c rest, word = c :: rest ∧ isIdentifierStart c ∧ ∀ d ∈ word, isIdentifierChar d := by
  have hall : ∀ word ∈ reservedWords,
      word.head?.any isIdentifierStart ∧ word.all isIdentifierChar := by decide
  obtain ⟨hstart, hchars⟩ := hall word h
  cases word with
  | nil => cases hstart
  | cons c rest => exact ⟨c, rest, rfl, hstart, List.all_eq_true.1 hchars⟩

variable (hm : (language.reader text).Meets gap (word ++ left))
  (hnext : left.head?.any isIdentifierChar = false)
include hm hnext

theorem declines_reserved (h : language.lexis.IsName word) :
    Declines text 3 (.rule "Reserved") (gap ++ (word ++ left)) := by
  refine declines_rule rfl (declines_choice fun sketch hs => ?_)
  obtain ⟨w, hw, rfl⟩ : ∃ w ∈ reservedWords, sketch = .word w := by
    simpa [reservedWords] using hs
  intro title rule his
  obtain ⟨o, rfl, hword⟩ := Rule.is_word his
  obtain ⟨c, rest, rfl, -, hchars⟩ := reservedWords_start hw
  exact refuses_reserved EndsIn.closes hm h hnext hword (List.cons_ne_nil _ _)
    (List.contains_iff_mem.2 hw) hchars

/-- The reserved word that stands in a place is none of the others. -/
theorem covers_reserved (h : word ∈ reservedWords) :
    Covers text 3 none (.rule "Reserved") gap word left := by
  have hword : Covers text 1 none (.word word) gap word left := by
    obtain ⟨c, rest, rfl, -⟩ := reservedWords_start h
    exact covers_word hm (List.cons_ne_nil _ _) (fun _ => hnext) fun _ => hnext
  refine covers_rule rfl ?_
  have hpassed (chars : Text) (passed : List Sketch) {c : Char} {rest : Text} (hw : word = c :: rest)
      (hc : c ∉ chars) (hall : passed.all (beginsIn chars 1)) :
      ∀ sketch ∈ passed, Declines text 1 sketch (gap ++ (word ++ left)) := by
    subst hw
    exact declines_all hm hc hall
  simp only [reservedWords, List.mem_cons, List.not_mem_nil, or_false] at h
  rcases h with h | h | h
  · exact @covers_choice _ _ _ _ _ [] _ _ _ rfl (by simp) (h ▸ hword)
  · exact @covers_choice _ _ _ _ _ [.word "TOKEN".toList] _ _ _ rfl
      (hpassed ['T'] _ h (by decide) (by decide)) (h ▸ hword)
  · exact @covers_choice _ _ _ _ _ [.word "TOKEN".toList, .word "IDENTIFIER".toList] _ _ _ rfl
      (hpassed ['T', 'I'] _ h (by decide) (by decide)) (h ▸ hword)

omit hnext in
theorem covers_literal {mark : Char} {body : Text} (hw : word = mark :: (body ++ [mark]))
    (hmark : isQuote mark) (hbody : Escaped mark body) (hfeed : '\n' ∉ body) :
    Covers text 3 none (.rule "Literal") gap word left := by
  subst hw
  refine covers_rule rfl ?_
  simp only [isQuote, Bool.or_eq_true, decide_eq_true_eq] at hmark
  rcases hmark with rfl | rfl
  · exact @covers_choice _ _ _ _ _ [] _ _ _ rfl (by simp) (covers_token hm hbody)
  · have htoken : ∀ sketch ∈ [Sketch.token], Declines text 1 sketch
        (gap ++ ('"' :: (body ++ ['"']) ++ left)) :=
      @declines_all _ _ _ '"' ['\''] _ _ hm (by decide) (by decide)
    exact covers_choice rfl htoken (covers_quoted hm hbody hfeed)

/-- An atom with no brackets around it has its word for a sign. -/
theorem accepts_word (h : Word form word) :
    Accepts text 5 none (.rule "Atom") (gap ++ (word ++ left)) left [.word word] := by
  have hpassed {c : Char} {rest : Text} (hw : word = c :: rest) (hc : isIdentifierStart c) :
      ∀ sketch ∈ marked, Declines text 3 sketch (gap ++ (word ++ left)) := by
    subst hw
    exact declines_all hm (not_mark_of_start hc) (by decide)
  refine accepts_rule rfl ?_
  cases h with
  | literal hmark hbody hfeed =>
    exact @atom_plain _ _ _ _ [] _ _ _ (by simp) (covers_literal hm rfl hmark hbody hfeed)
  | reserved h =>
    have h := mem_reservedWords h
    obtain ⟨c, rest, hw, hc, -⟩ := reservedWords_start h
    exact atom_plain (hpassed hw hc) (covers_reserved hm hnext h)
  | reference h =>
    obtain ⟨c, rest, hw, hc, -⟩ := h.start
    have hall : ∀ sketch ∈ marked ++ [.rule "Reserved"],
        Declines text 3 sketch (gap ++ (word ++ left)) := List.forall_mem_append.2
      ⟨hpassed hw hc, fun sketch hs => List.mem_singleton.1 hs ▸ declines_reserved hm hnext h⟩
    exact atom_plain hall ((covers_name hm h hnext).mono (by decide : 1 ≤ 3))

end Words

end OrderedBnf.MetaGrammar
