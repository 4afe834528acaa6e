import OrderedBnf.StatementTrace
import OrderedBnf.Proofs.Characters
import OrderedBnf.Proofs.RuleSketches
import OrderedBnf.Proofs.Words

/-! The rules of the tiny language, as they are sketched, and what fails on a text for what the text
starts with. -/
namespace OrderedBnf

theorem Lexis.IsName.sharp {lexis : Lexis} {name : Text} (h : lexis.IsName name) (left : Text) :
    Comment.Sharp (name ++ left) := by
  obtain ⟨c, rest, rfl, hc, -⟩ := h.start
  refine ⟨not_blank_of_identifierChar (identifierChar_of_start hc), ?_⟩
  rintro rfl
  exact absurd hc (by decide)

namespace StatementTrace
open Reader Comment

def sketches : List (String × Option Sketch) :=
  [("Program", some (.repetition (.rule "Function"))),
   ("Function", some (.sequence [.word "function".toList, .name, .word ['('],
     .optional (.rule "Parameters"), .word [')'], .rule "Block"])),
   ("Parameters", some (.sequence [.name, .repetition (.sequence [.word [','], .name])])),
   ("Block", some (.sequence [.word ['{'], .repetition (.rule "Statement"), .word ['}']])),
   ("Statement", some (.choice [.rule "Block",
     .sequence [.word "if".toList, .word ['('], .rule "Expression", .word [')'], .rule "Statement",
       .optional (.sequence [.word "else".toList, .rule "Statement"])],
     .sequence [.word "while".toList, .word ['('], .rule "Expression", .word [')'],
       .rule "Statement"],
     .sequence [.word "return".toList, .optional (.rule "Expression"), .word [';']],
     .sequence [.word "var".toList, .name,
       .optional (.sequence [.word ['='], .rule "Expression"]), .word [';']],
     .sequence [.name, .word ['='], .rule "Expression", .word [';']],
     .sequence [.rule "Expression", .word [';']]])),
   ("Expression", some (.sequence [.rule "Term", .repetition (.sequence
     [.choice [.word ['=', '='], .word ['<'], .word ['+'], .word ['-']], .rule "Term"])])),
   ("Term", some (.sequence [.rule "Factor", .repetition (.sequence
     [.choice [.word ['*'], .word ['/']], .rule "Factor"])])),
   ("Factor", some (.choice [.rule "IntegerLiteral", .rule "StringLiteral", .rule "Call", .name,
     .sequence [.word ['('], .rule "Expression", .word [')']]])),
   ("Call", some (.sequence [.name, .word ['('], .optional (.rule "Arguments"), .word [')']])),
   ("Arguments", some (.sequence [.rule "Expression",
     .repetition (.sequence [.word [','], .rule "Expression"])])),
   ("IntegerLiteral", none),
   ("StringLiteral", none)]

def reserved : List Text :=
  ["function", "if", "else", "while", "return", "var"].map String.toList

theorem sketches_reserved_agree :
    Grammar.agreeAll grammar.entries sketches ∧ grammar.keywords = reserved := by
  decide +kernel

theorem body?_of_sketch {name : String} {sketch : Sketch}
    (h : sketches.lookup name = some (some sketch)) :
    ∃ body, grammar.body? name = some (some body) ∧ body.is (some name) sketch :=
  Grammar.body?_of_agreeAll sketches_reserved_agree.1 h

theorem body?_extension {name : String} (h : sketches.lookup name = some none) :
    grammar.body? name = some none :=
  Grammar.body?_of_agreeAll_none sketches_reserved_agree.1 h

theorem isKeyword_eq (word : Text) : language.lexis.isKeyword word = reserved.contains word := by
  rw [← sketches_reserved_agree.2]
  rfl

/-- What a significant text may start with: the characters of a word, or an identifier. -/
inductive Head where
  | word (word : Text)
  | name
  deriving DecidableEq

def openings : List (String × List Char) :=
  [("IntegerLiteral", ['0', '1', '2', '3', '4', '5', '6', '7', '8', '9', '+', '-']),
   ("StringLiteral", ['"'])]

def bars (name : String) (head : Head) : Bool :=
  match openings.lookup name, head with
  | some chars, .word head => head.head?.any (!chars.contains ·)
  | some _, .name => true
  | none, _ => false

/-- Whether a rule fails on every text with a head, by its first words. -/
def refuses : Nat → Sketch → Head → Bool
  | _ + 1, .word word, .word head => !word.isPrefixOf head && !head.isPrefixOf word
  | _ + 1, .word word, .name => word.head?.any (!isIdentifierStart ·) ||
    (word ≠ [] && reserved.contains word && word.all isIdentifierChar)
  | _ + 1, .name, .word head => head.head?.any (!isIdentifierStart ·)
  | n + 1, .rule name, head =>
    match sketches.lookup name with
    | some (some body) => refuses n body head
    | some none => bars name head
    | none => false
  | n + 1, .sequence (part :: _), head => refuses n part head
  | n + 1, .choice alternatives, head => alternatives.all (refuses n · head)
  | _, _, _ => false

section Literals
variable {name : String} {chars : List Char} (ho : openings.lookup name = some chars) {c : Char}
include ho

theorem openings_cases :
    name = "IntegerLiteral" ∧ chars = ['0', '1', '2', '3', '4', '5', '6', '7', '8', '9', '+', '-'] ∨
      name = "StringLiteral" ∧ chars = ['"'] := by
  simp only [openings, List.lookup_cons, List.lookup_nil] at ho
  split at ho
  · rename_i h
    cases ho
    exact .inl ⟨eq_of_beq h, rfl⟩
  · split at ho
    · rename_i h
      cases ho
      exact .inr ⟨eq_of_beq h, rfl⟩
    · cases ho

/-- No extension opens with a character that begins a name. -/
theorem not_opening (h : isIdentifierStart c) : chars.contains c = false := by
  have hstarts : chars.all fun c => !isIdentifierStart c := by
    rcases openings_cases ho with ⟨-, rfl⟩ | ⟨-, rfl⟩ <;> decide
  rw [← Bool.not_eq_true]
  intro hc
  have := List.all_eq_true.1 hstarts c (List.contains_iff_mem.1 hc)
  rw [h] at this
  cases this

/-- A literal is looked for in vain where it does not start. -/
theorem extend_none (hc : chars.contains c = false) {text rest : Text} {start : Nat}
    (h : text.drop start = c :: rest) :
    Scanner.byName CurlyBrace.literals name text start text.length = .ok none := by
  rw [← Bool.not_eq_true, List.contains_iff_mem] at hc
  rcases openings_cases ho with ⟨rfl, rfl⟩ | ⟨rfl, rfl⟩
  · change Numeral.scanner Numeral.integer? text start text.length = _
    have hdigit : isAsciiDigit c = false := by
      rw [← Bool.not_eq_true, isAsciiDigit, Bool.and_eq_true, decide_eq_true_eq, decide_eq_true_eq]
      rintro ⟨hlow, hhigh⟩
      have hlow : 48 ≤ c.toNat := hlow
      have hhigh : c.toNat ≤ 57 := hhigh
      have hcode : c.toNat ∈ [48, 49, 50, 51, 52, 53, 54, 55, 56, 57] := by
        simp only [List.mem_cons, List.not_mem_nil, or_false]
        omega
      have hmem := List.mem_map_of_mem (f := Char.ofNat) hcode
      rw [Char.ofNat_toNat] at hmem
      exact hc (List.mem_append_left ['+', '-'] hmem)
    simp only [List.mem_cons, not_or] at hc
    have hsign : Numeral.skipSign (c :: rest) = c :: rest := Numeral.skipOne_of_not (by simp [hc])
    have hdigits : Numeral.digits? (c :: rest) = none := by
      simp [Numeral.digits?, Numeral.some?, Numeral.one?, hdigit]
    have hnone : Numeral.integer? (c :: rest) = none := by
      rw [Numeral.integer?_eq, hsign, Numeral.magnitude?, hdigits, Option.or_none,
        Numeral.one?_eq_none.2 (by simp [hc])]
      rfl
    rw [Numeral.scanner_eq, h, hnone]
  · change Quotation.scanner '"' text start text.length = _
    rw [Quotation.scanner_eq h, if_pos (by simpa using hc)]

end Literals

def Leads : Head → Text → Prop
  | .word word, text => word <+: text
  | .name, text => ∃ name rest, text = name ++ rest ∧ language.lexis.IsName name ∧
      rest.head?.any isIdentifierChar = false

def Begins (heads : List Head) (left : Text) : Prop :=
  ∃ gap text, left = gap ++ text ∧ Gap .nothing gap ∧ Sharp text ∧ ∃ head ∈ heads, Leads head text

def Names (after : Text → Prop) (left : Text) : Prop :=
  ∃ gap name rest, left = gap ++ (name ++ rest) ∧ Gap .nothing gap ∧ language.lexis.IsName name ∧
    rest.head?.any isIdentifierChar = false ∧ after rest

theorem Begins.mono {heads heads' : List Head} {left : Text} (h : Begins heads left)
    (hm : heads ⊆ heads') : Begins heads' left := by
  obtain ⟨gap, text, rfl, hg, hs, head, hhead, hl⟩ := h
  exact ⟨gap, text, rfl, hg, hs, head, hm hhead, hl⟩

theorem Begins.mem {heads : List Head} {left : Text} (h : Begins heads left) :
    ∃ head ∈ heads, Begins [head] left := by
  obtain ⟨gap, text, rfl, hg, hs, head, hhead, hl⟩ := h
  exact ⟨head, hhead, gap, text, rfl, hg, hs, head, List.mem_singleton_self _, hl⟩

theorem Names.begins {after : Text → Prop} {left : Text} (h : Names after left) :
    Begins [.name] left := by
  obtain ⟨gap, name, rest, rfl, hg, hn, hnext, -⟩ := h
  exact ⟨gap, name ++ rest, rfl, hg, hn.sharp rest, .name, List.mem_singleton_self _, name, rest,
    rfl, hn, hnext⟩

theorem Names.imp {after after' : Text → Prop} {left : Text} (h : Names after left)
    (ha : ∀ rest, after rest → after' rest) : Names after' left := by
  obtain ⟨gap, name, rest, rfl, hg, hn, hnext, hr⟩ := h
  exact ⟨gap, name, rest, rfl, hg, hn, hnext, ha rest hr⟩

theorem skipsComments (text : Text) : (language.reader text).SkipsComments := ⟨rfl, rfl⟩

private theorem head_any {p : Char → Bool} {word text : Text} (h : word.head?.any (!p ·))
    (hp : word <+: text) : ∃ c rest, text = c :: rest ∧ p c = false := by
  obtain ⟨rest, rfl⟩ := hp
  cases word with
  | nil => cases h
  | cons c word => exact ⟨c, word ++ rest, rfl, by simpa using h⟩

section Leaves
variable {whole gap text : Text} {head : Head} (hs : (language.reader whole).Stands gap text)
  (hl : Leads head text) {n : Nat} {title : Option String} {rule : Rule}
include hs hl

theorem refuses_word {word : Text} (h : refuses (n + 1) (.word word) head)
    (his : rule.is title (.word word)) : (language.reader whole).Refuses rule (gap ++ text) := by
  obtain ⟨o, rfl, hword⟩ := Rule.is_word his
  cases head with
  | word lead =>
    simp only [refuses, Bool.and_eq_true, Bool.not_eq_true', ← Bool.not_eq_true,
      List.isPrefixOf_iff_prefix] at h
    refine refuses_literal Ends.closes (hs.meets (skipsComments whole)) ?_ ?_
    · rw [hword]
      rintro rfl
      exact h.1 List.nil_prefix
    · rw [hword]
      intro hp
      exact (List.prefix_or_prefix_of_prefix hp hl).elim h.1 h.2
  | name =>
    obtain ⟨name, rest, rfl, hname, hnext⟩ := hl
    simp only [refuses, Bool.or_eq_true, Bool.and_eq_true, decide_eq_true_eq] at h
    rcases h with h | ⟨⟨hne, hkey⟩, hchars⟩
    · refine refuses_literal Ends.closes (hs.meets (skipsComments whole)) ?_ ?_
      · rw [hword]
        rintro rfl
        cases h
      · rw [hword]
        intro hp
        obtain ⟨c, more, he, hc⟩ := head_any h hp
        obtain ⟨d, tail, rfl, hd, -⟩ := hname.start
        cases he
        rw [hc] at hd
        cases hd
    · exact refuses_reserved Ends.closes (hs.meets (skipsComments whole)) hname hnext hword hne
        ((isKeyword_eq word).trans hkey) (List.all_eq_true.1 hchars)

theorem refuses_name (h : refuses (n + 1) .name head) (his : rule.is title .name) :
    (language.reader whole).Refuses rule (gap ++ text) := by
  obtain ⟨o, rfl⟩ := Rule.is_name his
  cases head with
  | word lead =>
    obtain ⟨c, rest, rfl, hc⟩ := head_any h hl
    exact refuses_identifier Ends.closes (hs.meets (skipsComments whole)) hc
  | name => simp [refuses] at h

theorem refuses_barred {name : String} (hbody : sketches.lookup name = some none)
    (h : bars name head) (his : rule.is title (.rule name)) :
    (language.reader whole).Refuses rule (gap ++ text) := by
  obtain ⟨o, rfl, rfl⟩ := Rule.is_rule his
  have hr := skipsComments whole
  have hb := body?_extension hbody
  have hdrop := drop_offset hs.word_suffix
  unfold bars at h
  split at h
  · rename_i chars lead ho
    obtain ⟨c, rest, rfl, hc⟩ := head_any h hl
    exact refuses_extension Ends.closes (hs.meets hr) hb (extend_none ho hc hdrop)
  · rename_i chars ho
    obtain ⟨name, rest, rfl, hname, -⟩ := hl
    obtain ⟨c, tail, rfl, hc, -⟩ := hname.start
    exact refuses_extension Ends.closes (hs.meets hr) hb (extend_none ho (not_opening ho hc) hdrop)
  · cases h

end Leaves

/-- What fails by its first words fails. -/
theorem refuses_sound {whole gap text : Text} {head : Head}
    (hs : (language.reader whole).Stands gap text) (hl : Leads head text) :
    ∀ {n : Nat} {sketch : Sketch} {title : Option String} {rule : Rule}, refuses n sketch head →
      rule.is title sketch → (language.reader whole).Refuses rule (gap ++ text) := by
  intro n
  induction n with
  | zero =>
    intro sketch title rule h
    simp [refuses] at h
  | succ n ih =>
    intro sketch title rule h his
    cases sketch with
    | word word => exact refuses_word hs hl h his
    | name => exact refuses_name hs hl h his
    | token => simp [refuses] at h
    | newLine => simp [refuses] at h
    | rule name =>
      rw [refuses] at h
      split at h
      · rename_i body hbody
        obtain ⟨o, rfl, rfl⟩ := Rule.is_rule his
        obtain ⟨rule, hb, hrule⟩ := body?_of_sketch hbody
        exact refuses_reference Ends.closes hb (ih h hrule)
      · rename_i hbody
        exact refuses_barred hs hl hbody h his
      · cases h
    | sequence parts =>
      obtain ⟨rules, o, rfl, -, hrules⟩ := Rule.is_sequence his
      cases parts with
      | nil => simp [refuses] at h
      | cons part parts =>
        obtain ⟨rule, rest, rfl, hrule, -⟩ := Rule.areAll_cons hrules
        exact refuses_first Ends.closes (ih h hrule)
    | choice alternatives =>
      obtain ⟨rules, o, rfl, -, hrules⟩ := Rule.is_choice his
      refine refuses_choice Ends.closes fun rule hm => ?_
      obtain ⟨sketch, hsketch, hrule⟩ := Rule.mem_of_areAll hrules rule hm
      exact ih (List.all_eq_true.1 h sketch hsketch) hrule
    | optional body => simp [refuses] at h
    | repetition body => simp [refuses] at h

/-- What fails by its first words on each of some heads fails on what begins with one of them. -/
theorem refuses_begins {whole left : Text} {heads : List Head} {n : Nat} {sketch : Sketch}
    {title : Option String} {rule : Rule} (h : heads.all (refuses n sketch ·))
    (his : rule.is title sketch) (hb : Begins heads left)
    (hs : left <:+ whole) : (language.reader whole).Refuses rule left := by
  obtain ⟨gap, text, rfl, hg, hsharp, head, hhead, hl⟩ := hb
  exact refuses_sound ⟨hg, hsharp, hs⟩ hl (List.all_eq_true.1 h head hhead) his

end StatementTrace
end OrderedBnf
