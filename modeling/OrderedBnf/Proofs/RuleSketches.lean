import OrderedBnf.Grammar.Basic

/-! Grammars apart from the places where their rules were written. -/
namespace OrderedBnf

/-- A rule apart from the place where it was written. -/
inductive Sketch where
  | word (word : Text)
  | name
  | token
  | newLine
  | rule (name : String)
  | sequence (parts : List Sketch)
  | choice (alternatives : List Sketch)
  | optional (body : Sketch)
  | repetition (body : Sketch)

namespace Sketch

def parts : Sketch → List Sketch
  | sequence parts | choice parts => parts
  | optional body | repetition body => [body]
  | _ => []

mutual
def mentions : Sketch → List String
  | rule target => [target]
  | sequence parts | choice parts => mentionsOfAll parts
  | optional body | repetition body => mentions body
  | word _ | name | token | newLine => []

def mentionsOfAll : List Sketch → List String
  | [] => []
  | sketch :: rest => mentions sketch ++ mentionsOfAll rest
end

theorem mentionsOfAll_eq (sketches : List Sketch) :
    mentionsOfAll sketches = sketches.flatMap mentions := by
  induction sketches with
  | nil => rfl
  | cons sketch rest ih => rw [mentionsOfAll, ih, List.flatMap_cons]

theorem mentions_of_part {sketch part : Sketch} (h : part ∈ sketch.parts) :
    part.mentions ⊆ sketch.mentions := by
  cases sketch with
  | sequence parts | choice parts =>
    rw [mentions, mentionsOfAll_eq]
    exact fun name hn => List.mem_flatMap.2 ⟨part, h, hn⟩
  | optional body | repetition body =>
    cases List.mem_singleton.1 h
    exact fun _ hn => hn
  | _ => cases h

end Sketch

namespace Rule

mutual
/-- Whether a rule was written as sketched; the title is that of the rule it is the body of. -/
def is (title : Option String) : Sketch → Rule → Bool
  | .word word, .leaf .literal o =>
    (leaf .literal o).name? = title && (leaf .literal o).literal = word
  | .name, .leaf .anyIdentifier o => (leaf .anyIdentifier o).name? = title
  | .token, .leaf .anyToken o => (leaf .anyToken o).name? = title
  | .newLine, .leaf .newLine o => (leaf .newLine o).name? = title
  | .rule name, .leaf .reference o =>
    (leaf .reference o).name? = title && (leaf .reference o).target = name
  | .sequence sketches, .sequence parts o =>
    (sequence parts o).name? = title && areAll sketches parts
  | .choice sketches, .choice rules o => (choice rules o).name? = title && areAll sketches rules
  | .optional sketch, .optional body o => (optional body o).name? = title && is none sketch body
  | .repetition sketch, .repetition body o =>
    (repetition body o).name? = title && is none sketch body
  | _, _ => false

def areAll : List Sketch → List Rule → Bool
  | [], [] => true
  | sketch :: sketches, rule :: rules => is none sketch rule && areAll sketches rules
  | _, _ => false
end

section Inversion
variable {title : Option String} {rule : Rule} {sketch : Sketch} {sketches : List Sketch}

/-- All that being written as sketched says of a rule, form by form. -/
theorem is_cases (h : rule.is title sketch) : rule.name? = title ∧ match sketch with
    | .word word => ∃ o, rule = .leaf .literal o ∧ (leaf .literal o).literal = word
    | .name => ∃ o, rule = .leaf .anyIdentifier o
    | .token => ∃ o, rule = .leaf .anyToken o
    | .newLine => ∃ o, rule = .leaf .newLine o
    | .rule name => ∃ o, rule = .leaf .reference o ∧ (leaf .reference o).target = name
    | .sequence sketches => ∃ parts o, rule = .sequence parts o ∧ areAll sketches parts
    | .choice sketches => ∃ rules o, rule = .choice rules o ∧ areAll sketches rules
    | .optional sketch => ∃ body o, rule = .optional body o ∧ body.is none sketch
    | .repetition sketch => ∃ body o, rule = .repetition body o ∧ body.is none sketch := by
  unfold is at h
  split at h <;> simp_all

theorem name?_of_is (h : rule.is title sketch) : rule.name? = title :=
  (is_cases h).1

theorem is_word {word : Text} (h : rule.is title (.word word)) :
    ∃ o, rule = .leaf .literal o ∧ (leaf .literal o).literal = word :=
  (is_cases h).2

theorem is_name (h : rule.is title .name) : ∃ o, rule = .leaf .anyIdentifier o :=
  (is_cases h).2

theorem is_token (h : rule.is title .token) : ∃ o, rule = .leaf .anyToken o :=
  (is_cases h).2

theorem is_newLine (h : rule.is title .newLine) : ∃ o, rule = .leaf .newLine o :=
  (is_cases h).2

theorem is_rule {name : String} (h : rule.is title (.rule name)) :
    ∃ o, rule = .leaf .reference o ∧ (leaf .reference o).target = name :=
  (is_cases h).2

theorem is_sequence (h : rule.is title (.sequence sketches)) :
    ∃ parts o, rule = .sequence parts o ∧ rule.name? = title ∧ areAll sketches parts := by
  obtain ⟨hname, parts, o, hrule, hparts⟩ := is_cases h
  exact ⟨parts, o, hrule, hname, hparts⟩

theorem is_choice (h : rule.is title (.choice sketches)) :
    ∃ rules o, rule = .choice rules o ∧ rule.name? = title ∧ areAll sketches rules := by
  obtain ⟨hname, rules, o, hrule, hrules⟩ := is_cases h
  exact ⟨rules, o, hrule, hname, hrules⟩

theorem is_optional (h : rule.is title (.optional sketch)) :
    ∃ body o, rule = .optional body o ∧ rule.name? = title ∧ body.is none sketch := by
  obtain ⟨hname, body, o, hrule, hbody⟩ := is_cases h
  exact ⟨body, o, hrule, hname, hbody⟩

theorem is_repetition (h : rule.is title (.repetition sketch)) :
    ∃ body o, rule = .repetition body o ∧ rule.name? = title ∧ body.is none sketch := by
  obtain ⟨hname, body, o, hrule, hbody⟩ := is_cases h
  exact ⟨body, o, hrule, hname, hbody⟩

theorem areAll_nil {rules : List Rule} (h : areAll [] rules) : rules = [] := by
  cases rules with
  | nil => rfl
  | cons => cases h

theorem areAll_cons {rules : List Rule} (h : areAll (sketch :: sketches) rules) :
    ∃ rule rest, rules = rule :: rest ∧ rule.is none sketch ∧ areAll sketches rest := by
  cases rules with
  | nil => cases h
  | cons rule rest =>
    rw [areAll, Bool.and_eq_true] at h
    exact ⟨rule, rest, rfl, h⟩

theorem areAll_append {before : List Sketch} {rules : List Rule}
    (h : areAll (before ++ sketches) rules) :
    ∃ rules₁ rules₂, rules = rules₁ ++ rules₂ ∧ areAll before rules₁ ∧ areAll sketches rules₂ := by
  induction before generalizing rules with
  | nil => exact ⟨[], rules, rfl, rfl, h⟩
  | cons sketch before ih =>
    obtain ⟨rule, rest, rfl, hrule, hrest⟩ := areAll_cons h
    obtain ⟨rules₁, rules₂, rfl, h₁, h₂⟩ := ih hrest
    exact ⟨rule :: rules₁, rules₂, rfl, by rw [areAll, hrule, h₁]; rfl, h₂⟩

theorem mem_of_areAll {rules : List Rule} (h : areAll sketches rules) :
    ∀ rule ∈ rules, ∃ sketch ∈ sketches, rule.is none sketch := by
  induction sketches generalizing rules with
  | nil => simp [areAll_nil h]
  | cons sketch sketches ih =>
    obtain ⟨first, rest, rfl, hfirst, hrest⟩ := areAll_cons h
    intro rule hm
    rcases List.mem_cons.1 hm with rfl | hm
    · exact ⟨sketch, List.mem_cons_self, hfirst⟩
    · obtain ⟨sketch, hs, his⟩ := ih hrest rule hm
      exact ⟨sketch, List.mem_cons_of_mem _ hs, his⟩

/-- The parts of a rule are as the parts of its sketch. -/
theorem is_part (h : rule.is title sketch) {part : Rule} (hp : part ∈ rule.branches) :
    ∃ s ∈ sketch.parts, part.is none s := by
  cases sketch with
  | sequence sketches =>
    obtain ⟨parts, o, rfl, -, hparts⟩ := is_sequence h
    exact mem_of_areAll hparts part hp
  | choice sketches =>
    obtain ⟨rules, o, rfl, -, hrules⟩ := is_choice h
    exact mem_of_areAll hrules part hp
  | optional sketch =>
    obtain ⟨body, o, rfl, -, hbody⟩ := is_optional h
    exact ⟨sketch, List.mem_singleton.2 rfl, List.mem_singleton.1 hp ▸ hbody⟩
  | repetition sketch =>
    obtain ⟨body, o, rfl, -, hbody⟩ := is_repetition h
    exact ⟨sketch, List.mem_singleton.2 rfl, List.mem_singleton.1 hp ▸ hbody⟩
  | word | name | token | newLine | rule =>
    cases rule with
    | leaf => cases hp
    | _ => simp [is] at h

end Inversion
end Rule

namespace Grammar

def agrees (name : String) : Option Rule → Option Sketch → Bool
  | some body, some sketch => body.is (some name) sketch
  | none, none => true
  | _, _ => false

def agreeAll : List Entry → List (String × Option Sketch) → Bool
  | [], [] => true
  | entry :: entries, (name, sketch) :: rest =>
    entry.name = name && agrees name entry.body sketch && agreeAll entries rest
  | _, _ => false

theorem find?_of_agreeAll {entries : List Entry} {rows : List (String × Option Sketch)}
    {name : String} {sketch : Option Sketch} (h : agreeAll entries rows)
    (hs : rows.lookup name = some sketch) :
    ∃ entry, entries.find? (·.name = name) = some entry ∧ agrees name entry.body sketch := by
  induction entries generalizing rows with
  | nil =>
    cases rows with
    | nil => cases hs
    | cons => cases h
  | cons entry entries ih =>
    rcases rows with _ | ⟨⟨first, sketch'⟩, rows⟩
    · cases hs
    · rw [agreeAll, Bool.and_eq_true, Bool.and_eq_true, decide_eq_true_eq] at h
      obtain ⟨⟨hname, hagrees⟩, hrest⟩ := h
      rw [List.lookup_cons] at hs
      by_cases he : name = first
      · subst he
        rw [beq_self_eq_true] at hs
        cases hs
        exact ⟨entry, by rw [List.find?_cons_of_pos (by simpa using hname)], hagrees⟩
      · rw [beq_false_of_ne he] at hs
        rw [List.find?_cons_of_neg (by simpa [hname] using fun hn => he hn.symm)]
        exact ih hrest hs

section Bodies
variable {grammar : Grammar} {rows : List (String × Option Sketch)} {name : String}
  (h : agreeAll grammar.entries rows)
include h

theorem body?_of_agreeAll {sketch : Sketch} (hs : rows.lookup name = some (some sketch)) :
    ∃ body, grammar.body? name = some (some body) ∧ body.is (some name) sketch := by
  obtain ⟨entry, he, ha⟩ := find?_of_agreeAll h hs
  cases hb : entry.body with
  | none =>
    rw [hb] at ha
    cases ha
  | some body =>
    rw [hb] at ha
    exact ⟨body, by rw [Grammar.body?, Grammar.find?, he, Option.map_some, hb], ha⟩

theorem body?_of_agreeAll_none (hs : rows.lookup name = some none) :
    grammar.body? name = some none := by
  obtain ⟨entry, he, ha⟩ := find?_of_agreeAll h hs
  cases hb : entry.body with
  | none => rw [Grammar.body?, Grammar.find?, he, Option.map_some, hb]
  | some body =>
    rw [hb] at ha
    cases ha

end Bodies
end Grammar
end OrderedBnf
