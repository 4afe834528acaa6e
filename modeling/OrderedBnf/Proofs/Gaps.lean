import OrderedBnf.Lexical.Comment
import OrderedBnf.Proofs.Terminals

/-! What is skipped between two words, apart from the text and the offset where it stands. -/
namespace OrderedBnf.Comment

inductive State where
  | nothing
  | line
  | block

def Within.state : Within → State
  | nothing => .nothing
  | line => .line
  | block _ => .block

inductive Gap : State → Text → Prop
  | nil : Gap .nothing []
  | blank {c gap} : isBlank c → Gap .nothing gap → Gap .nothing (c :: gap)
  | openBlock {gap} : Gap .block gap → Gap .nothing ('/' :: '*' :: gap)
  | openLine {gap} : Gap .line gap → Gap .nothing ('/' :: '/' :: gap)
  | feed {gap} : Gap .nothing gap → Gap .line ('\n' :: gap)
  | inLine {c gap} : c ≠ '\n' → Gap .line gap → Gap .line (c :: gap)
  | closeBlock {gap} : Gap .nothing gap → Gap .block ('*' :: '/' :: gap)
  | inBlock {c gap} : (c = '*' → gap.head? ≠ some '/') → Gap .block gap → Gap .block (c :: gap)

def Sharp : Text → Prop
  | [] => False
  | c :: rest => isBlank c = false ∧ (c = '/' → rest.head? ≠ some '*' ∧ rest.head? ≠ some '/')

def Unclosed (text : Text) : Prop := ∃ rest, text = '/' :: '*' :: rest ∧ ¬ ['*', '/'] <:+: rest

theorem gap_blank {c : Char} (h : isBlank c) : Gap .nothing [c] := .blank h .nil

section Steps
variable {stop i opened : Nat} {c : Char} {rest : Text}

theorem skipFrom_openBlock : skipFrom stop i .nothing ('/' :: '*' :: rest) =
    skipFrom stop (i + 2) (.block i) rest := rfl

theorem skipFrom_openLine : skipFrom stop i .nothing ('/' :: '/' :: rest) =
    skipFrom stop (i + 2) .line rest := rfl

theorem skipFrom_feed : skipFrom stop i .line ('\n' :: rest) =
    skipFrom stop (i + 1) .nothing rest := rfl

theorem skipFrom_closeBlock : skipFrom stop i (.block opened) ('*' :: '/' :: rest) =
    skipFrom stop (i + 2) .nothing rest := rfl

theorem skipFrom_blank (h : isBlank c) : skipFrom stop i .nothing (c :: rest) =
    skipFrom stop (i + 1) .nothing rest := by
  have hslash : c ≠ '/' := by
    rintro rfl
    exact absurd h (by decide)
  conv => lhs; unfold skipFrom
  split <;> simp_all

theorem skipFrom_inLine (h : c ≠ '\n') : skipFrom stop i .line (c :: rest) =
    skipFrom stop (i + 1) .line rest := by
  conv => lhs; unfold skipFrom
  split <;> simp_all

theorem skipFrom_inBlock (h : c = '*' → rest.head? ≠ some '/') :
    skipFrom stop i (.block opened) (c :: rest) = skipFrom stop (i + 1) (.block opened) rest := by
  conv => lhs; unfold skipFrom
  split <;> simp_all

end Steps

section Scanning
variable {stop i j : Nat} {within : Within} {text gap : Text}

/-- Nothing is skipped in front of a significant character. -/
theorem skipFrom_sharp (h : Sharp text) : skipFrom stop i .nothing text = .ok i := by
  unfold skipFrom
  split <;> simp_all [Sharp]

theorem Gap.ne_nil {state : State} (hg : Gap state gap) (hs : state ≠ .nothing) :
    gap ≠ [] := by
  cases hg with
  | nil => exact absurd rfl hs
  | _ => exact List.cons_ne_nil _ _

private theorem add_cons (i : Nat) (c : Char) (gap : Text) :
    i + (c :: gap).length = i + 1 + gap.length := by
  rw [List.length_cons]
  omega

private theorem add_cons_cons (i : Nat) (c d : Char) (gap : Text) :
    i + (c :: d :: gap).length = i + 2 + gap.length := by
  rw [List.length_cons, List.length_cons]
  omega

/-- A scan goes on behind a gap, wherever it stands. -/
theorem skipFrom_append {state : State} (hg : Gap state gap) (text : Text) :
    ∀ {within : Within} {i : Nat}, within.state = state →
      skipFrom stop i within (gap ++ text) = skipFrom stop (i + gap.length) .nothing text := by
  induction hg with
  | nil =>
    intro within i hw
    cases within <;> cases hw
    rfl
  | blank hc _ ih =>
    intro within i hw
    cases within <;> cases hw
    rw [List.cons_append, skipFrom_blank hc, ih rfl, add_cons]
  | openBlock _ ih =>
    intro within i hw
    cases within <;> cases hw
    rw [List.cons_append, List.cons_append, skipFrom_openBlock, ih rfl, add_cons_cons]
  | openLine _ ih =>
    intro within i hw
    cases within <;> cases hw
    rw [List.cons_append, List.cons_append, skipFrom_openLine, ih rfl, add_cons_cons]
  | feed _ ih =>
    intro within i hw
    cases within <;> cases hw
    rw [List.cons_append, skipFrom_feed, ih rfl, add_cons]
  | inLine hc _ ih =>
    intro within i hw
    cases within <;> cases hw
    rw [List.cons_append, skipFrom_inLine hc, ih rfl, add_cons]
  | closeBlock _ ih =>
    intro within i hw
    cases within <;> cases hw
    rw [List.cons_append, List.cons_append, skipFrom_closeBlock, ih rfl, add_cons_cons]
  | inBlock hc hg ih =>
    intro within i hw
    cases within <;> cases hw
    obtain ⟨d, gap, rfl⟩ := List.exists_cons_of_ne_nil (hg.ne_nil nofun)
    rw [List.cons_append, skipFrom_inBlock (by exact hc), ih rfl, add_cons i]

/-- A gap is skipped, wherever it stands. -/
theorem skipFrom_gap {state : State} (hg : Gap state gap) (ht : Sharp text)
    (hw : within.state = state) :
    skipFrom stop i within (gap ++ text) = .ok (i + gap.length) := by
  rw [skipFrom_append hg text hw, skipFrom_sharp ht]

private theorem gap_lead (lead : Text) {state state' : State} {p : Text → Prop}
    (h : ∃ gap rest, text = gap ++ rest ∧ Gap state gap ∧ p rest ∧
      j = i + lead.length + gap.length)
    (hlead : ∀ gap rest, text = gap ++ rest → Gap state gap → Gap state' (lead ++ gap)) :
    ∃ gap rest, lead ++ text = gap ++ rest ∧ Gap state' gap ∧ p rest ∧ j = i + gap.length := by
  obtain ⟨gap, rest, rfl, hg, hr, rfl⟩ := h
  refine ⟨lead ++ gap, rest, (List.append_assoc ..).symm, hlead _ _ rfl hg, hr, ?_⟩
  rw [List.length_append, Nat.add_assoc]

/-- A scan that stops before the end of the text has skipped a gap. -/
theorem skipFrom_ok (h : skipFrom stop i within text = .ok j) (hs : i + text.length = stop) :
    j = stop ∨
      ∃ gap rest, text = gap ++ rest ∧ Gap within.state gap ∧ Sharp rest ∧ j = i + gap.length := by
  fun_induction skipFrom stop i within text with
  | case1 i rest ih =>
    exact (ih h (add_cons_cons .. ▸ hs)).imp_right
      fun hg => gap_lead ['/', '*'] hg fun _ _ _ => .openBlock
  | case2 i rest ih =>
    exact (ih h (add_cons_cons .. ▸ hs)).imp_right
      fun hg => gap_lead ['/', '/'] hg fun _ _ _ => .openLine
  | case3 i c rest _ _ hc ih =>
    exact (ih h (add_cons .. ▸ hs)).imp_right
      fun hg => gap_lead [c] hg fun _ _ _ => .blank hc
  | case4 i c rest hstar hslash hc =>
    cases h
    refine .inr ⟨[], c :: rest, rfl, .nil,
      ⟨by simpa using hc, fun he => ⟨fun hd => ?_, fun hd => ?_⟩⟩, rfl⟩
    · obtain ⟨rest, rfl⟩ := List.head?_eq_some_iff.1 hd
      exact hstar _ he rfl
    · obtain ⟨rest, rfl⟩ := List.head?_eq_some_iff.1 hd
      exact hslash _ he rfl
  | case5 i rest ih =>
    exact (ih h (add_cons .. ▸ hs)).imp_right
      fun hg => gap_lead ['\n'] hg fun _ _ _ => .feed
  | case6 i c rest hc ih =>
    exact (ih h (add_cons .. ▸ hs)).imp_right
      fun hg => gap_lead [c] hg fun _ _ _ => .inLine hc
  | case7 i opened rest ih =>
    exact (ih h (add_cons_cons .. ▸ hs)).imp_right
      fun hg => gap_lead ['*', '/'] hg fun _ _ _ => .closeBlock
  | case8 i opened c rest hc ih =>
    refine (ih h (add_cons .. ▸ hs)).imp_right
      fun hg => gap_lead [c] hg fun gap after hr hg => .inBlock (fun hstar hd => ?_) hg
    obtain ⟨gap, rfl⟩ := List.head?_eq_some_iff.1 hd
    exact hc _ hstar hr
  | case9 => cases h
  | case10 =>
    cases h
    exact .inl rfl
  | case11 => cases h
  | case12 =>
    cases h
    exact .inl hs

/-- A comment that is not closed cannot be skipped. -/
theorem skipFrom_unclosed {opened : Nat} (h : ¬ ['*', '/'] <:+: text) :
    skipFrom stop i (.block opened) text = .error (.lexical (unclosed opened)) := by
  induction text generalizing i with
  | nil => rfl
  | cons c rest ih =>
    have hrest : ¬ ['*', '/'] <:+: rest := fun hi => h (hi.trans (List.suffix_cons c rest).isInfix)
    rw [skipFrom_inBlock, ih hrest]
    rintro rfl hd
    obtain ⟨rest, rfl⟩ := List.head?_eq_some_iff.1 hd
    exact h ⟨[], rest, rfl⟩

/-- A scan that ends in an error was in a comment that nothing closes, or has skipped a gap in
front of one. -/
theorem skipFrom_error {error : LexicalError}
    (h : skipFrom stop i within text = .error (.lexical error)) :
    ∃ j, error = unclosed j ∧ ((within = .block j ∧ ¬ ['*', '/'] <:+: text) ∨
      ∃ gap rest, text = gap ++ rest ∧ Gap within.state gap ∧ Unclosed rest ∧
        j = i + gap.length) := by
  fun_induction skipFrom stop i within text with
  | case1 i rest ih =>
    obtain ⟨j, he, ⟨⟨⟩, hrest⟩ | hg⟩ := ih h
    · exact ⟨i, he, .inr ⟨[], _, rfl, .nil, ⟨rest, rfl, hrest⟩, rfl⟩⟩
    · exact ⟨j, he, .inr (gap_lead ['/', '*'] hg fun _ _ _ => .openBlock)⟩
  | case2 i rest ih =>
    obtain ⟨j, he, ⟨⟨⟩, -⟩ | hg⟩ := ih h
    exact ⟨j, he, .inr (gap_lead ['/', '/'] hg fun _ _ _ => .openLine)⟩
  | case3 i c rest _ _ hc ih =>
    obtain ⟨j, he, ⟨⟨⟩, -⟩ | hg⟩ := ih h
    exact ⟨j, he, .inr (gap_lead [c] hg fun _ _ _ => .blank hc)⟩
  | case4 => cases h
  | case5 i rest ih =>
    obtain ⟨j, he, ⟨⟨⟩, -⟩ | hg⟩ := ih h
    exact ⟨j, he, .inr (gap_lead ['\n'] hg fun _ _ _ => .feed)⟩
  | case6 i c rest hc ih =>
    obtain ⟨j, he, ⟨⟨⟩, -⟩ | hg⟩ := ih h
    exact ⟨j, he, .inr (gap_lead [c] hg fun _ _ _ => .inLine hc)⟩
  | case7 i opened rest ih =>
    obtain ⟨j, he, ⟨⟨⟩, -⟩ | hg⟩ := ih h
    exact ⟨j, he, .inr (gap_lead ['*', '/'] hg fun _ _ _ => .closeBlock)⟩
  | case8 i opened c rest hc ih =>
    obtain ⟨j, he, ⟨hw, hrest⟩ | hg⟩ := ih h
    · refine ⟨j, he, .inl ⟨hw, fun hi => ?_⟩⟩
      rcases List.infix_cons_iff.1 hi with ⟨after, ha⟩ | hi
      · obtain ⟨rfl, rfl⟩ := List.cons.inj ha
        exact hc after rfl rfl
      · exact hrest hi
    · refine ⟨j, he, .inr (gap_lead [c] hg fun gap after hr hg => .inBlock (fun hstar hd => ?_) hg)⟩
      obtain ⟨gap, rfl⟩ := List.head?_eq_some_iff.1 hd
      exact hc _ hstar hr
  | case9 =>
    cases h
    exact ⟨_, rfl, .inl ⟨rfl, fun hi => by simpa using hi.length_le⟩⟩
  | case10 => cases h
  | case11 => cases h
  | case12 => cases h

/-- A text that is skipped to its end is skipped so wherever it stands. -/
theorem skipFrom_end (h : skipFrom stop i within text = .ok stop) (hs : i + text.length = stop) :
    ∀ {within' : Within} {i' : Nat}, within'.state = within.state →
      skipFrom (i' + text.length) i' within' text = .ok (i' + text.length) := by
  fun_induction skipFrom stop i within text with
  | case1 i rest ih =>
    intro within' i' hw
    cases within' <;> cases hw
    rw [skipFrom_openBlock, add_cons_cons]
    exact ih h (add_cons_cons .. ▸ hs) rfl
  | case2 i rest ih =>
    intro within' i' hw
    cases within' <;> cases hw
    rw [skipFrom_openLine, add_cons_cons, ih h (add_cons_cons .. ▸ hs) rfl]
  | case3 i c rest _ _ hc ih =>
    intro within' i' hw
    cases within' <;> cases hw
    rw [skipFrom_blank hc, add_cons, ih h (add_cons .. ▸ hs) rfl]
  | case4 i c rest =>
    cases h
    simp at hs
  | case5 i rest ih =>
    intro within' i' hw
    cases within' <;> cases hw
    rw [skipFrom_feed, add_cons, ih h (add_cons .. ▸ hs) rfl]
  | case6 i c rest hc ih =>
    intro within' i' hw
    cases within' <;> cases hw
    rw [skipFrom_inLine hc, add_cons, ih h (add_cons .. ▸ hs) rfl]
  | case7 i opened rest ih =>
    intro within' i' hw
    cases within' <;> cases hw
    rw [skipFrom_closeBlock, add_cons_cons, ih h (add_cons_cons .. ▸ hs) rfl]
  | case8 i opened c rest hc ih =>
    intro within' i' hw
    cases within' <;> cases hw
    have hstar : c = '*' → rest.head? ≠ some '/' := by
      intro he hd
      obtain ⟨rest, rfl⟩ := List.head?_eq_some_iff.1 hd
      exact hc _ he rfl
    rw [skipFrom_inBlock hstar, add_cons]
    exact ih h (add_cons .. ▸ hs) rfl
  | case9 => cases h
  | case10 =>
    intro within' i' hw
    cases within' <;> cases hw
    rfl
  | case11 => cases h
  | case12 =>
    intro within' i' hw
    cases within' <;> cases hw
    exact if_neg (Nat.lt_irrefl _)

/-- A text in place of another after a word: it starts alike, or with what ends any word. -/
def Joins (text text' : Text) : Prop :=
  text'.head? = text.head? ∨ text'.head? = some ' ' ∨ text'.head? = some '{'

theorem Joins.refl (text : Text) : Joins text text := .inl rfl

theorem joins_append {word : Text} (hne : word ≠ []) (text text' : Text) :
    Joins (word ++ text) (word ++ text') := by
  obtain ⟨c, word, rfl⟩ := List.exists_cons_of_ne_nil hne
  exact .inl rfl

/-- What the text does not start with, the text in its place does not start with either, unless it
is what ends any word. -/
theorem Joins.any {text' : Text} (h : Joins text text') {p : Char → Bool}
    (hp : text.head?.any p = false) (hspace : p ' ' = false) (hbrace : p '{' = false) :
    text'.head?.any p = false := by
  rcases h with h | h | h <;> rw [h]
  · exact hp
  · exact hspace
  · exact hbrace

/-- A text that starts with a significant character does so with any other text joined behind its
first word. -/
theorem Sharp.join {word text' : Text} (h : Sharp (word ++ text)) (hne : word ≠ [])
    (hj : Joins text text') : Sharp (word ++ text') := by
  obtain ⟨c, word, rfl⟩ := List.exists_cons_of_ne_nil hne
  refine ⟨h.1, fun hc => ?_⟩
  cases word with
  | cons d word => exact h.2 hc
  | nil =>
    obtain ⟨hstar, hslash⟩ := h.2 hc
    rcases hj with hj | hj | hj <;> simp_all

end Scanning
end OrderedBnf.Comment
