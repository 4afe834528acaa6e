import OrderedBnf.Proofs.Fitting
import OrderedBnf.Proofs.Literals
import OrderedBnf.Proofs.Remainders

/-! Terminals at a remainder of the text: a gap and a word. -/
namespace OrderedBnf

structure Lexis.IsName (lexis : Lexis) (word : Text) : Prop where
  start : ∃ c rest, word = c :: rest ∧ isIdentifierStart c ∧ ∀ d ∈ rest, isIdentifierChar d
  free : lexis.isKeyword word = false

/-- A mark ends what may stand before it. -/
theorem Text.unescaped_eq {p : Char → Bool} {i : Nat} {mark : Char} {body rest : Text}
    (h : Escaped mark body)
    (hp : ∀ c ∈ body, p c → c = mark) (hmark : p mark) (hslash : mark ≠ '\\') :
    (body ++ mark :: rest).unescaped p i = .ok (i + body.length, mark) := by
  induction h generalizing i with
  | nil =>
    rw [List.nil_append, Text.unescaped_cons hslash, if_pos hmark]
    rfl
  | @plain c body hm hs _ ih =>
    have hc : ¬ p c := fun hc => hm (hp c List.mem_cons_self hc)
    rw [List.cons_append, Text.unescaped_cons hs, if_neg hc,
      ih fun c hc => hp c (List.mem_cons_of_mem _ hc), List.length_cons, Nat.add_assoc,
      Nat.add_comm 1]
  | @escape c body _ ih =>
    rw [List.cons_append, List.cons_append, Text.unescaped_escape,
      ih fun c hc => hp c (List.mem_cons_of_mem _ (List.mem_cons_of_mem _ hc)), List.length_cons,
      List.length_cons, Nat.add_assoc, Nat.add_comm 2]

namespace Reader
open Attempt Comment

/-- A reader that reads its text to the end and skips comments like blanks. -/
structure SkipsComments (r : Reader) : Prop where
  stop : r.stop = r.text.length
  skip : r.lexis.skip = Comment.skip

structure Stands (r : Reader) (gap word : Text) : Prop where
  skipped : Gap .nothing gap
  sharp : Sharp word
  suffix : gap ++ word <:+ r.text

structure Meets (r : Reader) (gap word : Text) : Prop where
  skip : r.lexis.skip r.text (r.offset (gap ++ word)) r.stop = .ok (r.offset word)
  stop : r.stop = r.text.length
  ne_nil : word ≠ []
  suffix : gap ++ word <:+ r.text

variable {r : Reader} {answer answer' : Answers} {gap word left : Text} {o : Origin}

theorem Stands.word_suffix (h : r.Stands gap word) : word <:+ r.text :=
  (List.suffix_append gap word).trans h.suffix

theorem Stands.meets (hr : r.SkipsComments) (h : r.Stands gap word) : r.Meets gap word where
  skip := by
    rw [hr.skip, hr.stop, Comment.skip, Text.window_length, drop_offset h.suffix,
      skipFrom_gap h.skipped h.sharp rfl, ← offset_append h.suffix]
  stop := hr.stop
  ne_nil := by
    rintro rfl
    exact h.sharp.elim
  suffix := h.suffix

section Meeting
variable (h : r.Meets gap word)
include h

theorem Meets.word_suffix : word <:+ r.text := (List.suffix_append gap word).trans h.suffix

theorem Meets.offset_lt : r.offset word < r.stop := by
  have hle := h.word_suffix.length_le
  have hpos := List.length_pos_iff.2 h.ne_nil
  rw [h.stop, offset]
  omega

theorem Meets.rest : r.rest (r.offset word) = word := by
  rw [Reader.rest, h.stop, Text.window_length, drop_offset h.word_suffix]

theorem Meets.significant (f : Nat → Attempt ParseTree) :
    (r.significant (r.offset (gap ++ word)) >>= f).result = (f (r.offset word)).result := by
  rw [result_bind_of_reached (significant_reached _ _), significant_result, h.skip]
  dsimp only
  rw [if_neg (Nat.not_le.2 h.offset_lt)]
  rfl

end Meeting

section Finding
variable {start i : Nat} (hr : r.SkipsComments) (hs : start ≤ r.stop)
include hr hs

/-- What is skipped before the end of the text is a gap. -/
theorem skip_parted (hi : r.lexis.skip r.text start r.stop = .ok i) (hlt : i < r.stop) :
    ∃ gap rest, r.text.drop start = gap ++ rest ∧ Gap .nothing gap ∧ Sharp rest ∧
      i = start + gap.length := by
  rw [hr.stop] at hs hlt
  rw [hr.skip, hr.stop, Comment.skip, Text.window_length] at hi
  have hlength : start + (r.text.drop start).length = r.text.length := by
    rw [List.length_drop]
    omega
  rcases skipFrom_ok hi hlength with rfl | h
  · exact absurd hlt (Nat.lt_irrefl _)
  · exact h

/-- A word that was read stands after a gap and before the rest of the text. -/
theorem Reads.parted (h : r.Reads start i word) (hne : word ≠ []) :
    ∃ left, r.text.drop i = word ++ left ∧ r.text.drop (i + word.length) = left ∧
      Sharp (word ++ left) := by
  have hlt := Nat.lt_of_lt_of_le (Nat.lt_add_of_pos_right (List.length_pos_iff.2 hne)) h.within
  obtain ⟨gap, rest, hdrop, -, hsharp, rfl⟩ := skip_parted hr hs h.skip hlt
  have hrest : r.text.drop (start + gap.length) = rest := by
    rw [← List.drop_drop, hdrop, List.drop_left]
  have hword : rest.take word.length = word := by
    have := h.covered
    rwa [Text.window, Nat.add_sub_cancel_left, hrest] at this
  have hsplit : rest = word ++ rest.drop word.length := by
    conv => lhs; rw [← List.take_append_drop word.length rest, hword]
  refine ⟨rest.drop word.length, hrest.trans hsplit, ?_, hsplit ▸ hsharp⟩
  rw [← List.drop_drop, hrest]

end Finding

/-- What lies between the offset where a match is tried and its tree is a gap. -/
theorem Fits.gap_before (hr : r.SkipsComments) {rule : Rule} {start : Nat} {tree : ParseTree}
    (hf : r.Fits rule start tree) (hs : start ≤ r.stop) :
    Gap .nothing (r.text.window start tree.start) := by
  refine hf.skipped .nil (fun hs hi hlt => ?_) hs
  obtain ⟨gap, rest, hdrop, hg, -, rfl⟩ := skip_parted hr hs hi hlt
  rwa [Text.window, hdrop, Nat.add_sub_cancel_left, List.take_left]

section Taking
variable (close : r.Closes answer answer') (h : r.Meets gap (word ++ left))
include close h

omit close in
theorem Meets.offset_word : r.offset (word ++ left) + word.length = r.offset left :=
  (offset_append h.word_suffix).symm

/-- A terminal that accepts the word takes it. -/
theorem Meets.takes {rule : Rule} {kind : Kind}
    (hy : Yields answer r rule (r.offset (gap ++ (word ++ left)))
      (accept kind rule (r.offset (word ++ left)) (r.offset (word ++ left) + word.length)).result) :
    r.TakesBy answer' rule (gap ++ (word ++ left)) left
      (.leaf ⟨kind, r.offset (word ++ left), r.offset left, rule⟩) := by
  rw [h.offset_word] at hy
  exact ⟨close hy, rfl, (List.suffix_append word left).trans (List.suffix_append gap _)⟩

/-- A literal takes its word behind a gap, where no letter goes on with it. -/
theorem takes_literal (hw : (Rule.leaf .literal o).literal = word) (hne : word ≠ [])
    (hletter : 1 < word.length → word.getLast?.any isLetter → left.head?.any isLetter = false)
    (hkey : r.lexis.isKeyword word → left.head?.any isIdentifierChar = false) :
    r.TakesBy answer' (.leaf .literal o) (gap ++ (word ++ left)) left
      (.leaf ⟨.token, r.offset (word ++ left), r.offset left, .leaf .literal o⟩) := by
  refine h.takes close ?_
  have hmatch : (r.matchLiteral (.leaf .literal o) (r.offset (gap ++ (word ++ left)))).result =
      (accept .token (.leaf .literal o) (r.offset (word ++ left))
        (r.offset (word ++ left) + word.length)).result := by
    have hrest : r.rest (r.offset (word ++ left) + word.length) = left := by
      rw [rest_add, h.rest, List.drop_left]
    have hdrop : r.text.drop (r.offset (word ++ left) + word.length) = left := by
      rw [← List.drop_drop, drop_offset h.word_suffix, List.drop_left]
    rw [matchLiteral, matchWord]
    dsimp only
    rw [hw, if_neg hne, h.significant, h.rest, if_neg (by simp), hdrop, hrest,
      Text.lacks_eq_false (Nat.le_of_eq h.stop), Bool.and_false, if_neg, if_neg Bool.false_ne_true,
      if_neg]
    · rw [Bool.and_eq_true]
      rintro ⟨hk, hnext⟩
      rw [hkey hk] at hnext
      exact Bool.false_ne_true hnext
    · rw [Bool.and_eq_true, Bool.and_eq_true, decide_eq_true_eq]
      rintro ⟨⟨hlong, hlast⟩, hnext⟩
      rw [hletter hlong hlast] at hnext
      exact Bool.false_ne_true hnext
  exact hmatch ▸ .literal

/-- An identifier takes a name behind a gap, up to where no character of a name follows. -/
theorem takes_identifier (hw : r.lexis.IsName word)
    (hnext : left.head?.any isIdentifierChar = false) :
    r.TakesBy answer' (.leaf .anyIdentifier o) (gap ++ (word ++ left)) left
      (.leaf ⟨.identifier, r.offset (word ++ left), r.offset left, .leaf .anyIdentifier o⟩) := by
  refine h.takes close ?_
  have hmatch : (r.matchIdentifier (.leaf .anyIdentifier o)
      (r.offset (gap ++ (word ++ left)))).result =
        (accept .identifier (.leaf .anyIdentifier o) (r.offset (word ++ left))
          (r.offset (word ++ left) + word.length)).result := by
    obtain ⟨c, rest, rfl, hc, hrest⟩ := hw.start
    have htake : (rest ++ left).takeWhile isIdentifierChar = rest := by
      rw [List.takeWhile_append_of_pos hrest]
      cases left with
      | nil => exact List.append_nil _
      | cons d left => rw [List.takeWhile_cons_of_neg (by simpa using hnext), List.append_nil]
    rw [matchIdentifier, h.significant, h.rest, List.cons_append]
    dsimp only
    rw [if_neg (by simp [hc]), htake, Text.lacks_eq_false (Nat.le_of_eq h.stop),
      if_neg Bool.false_ne_true, if_neg (by rw [hw.free]; exact Bool.false_ne_true)]
  exact hmatch ▸ .anyIdentifier

theorem takes_token {body : Text} (hw : word = '\'' :: (body ++ ['\'']))
    (hbody : Escaped '\'' body) :
    r.TakesBy answer' (.leaf .anyToken o) (gap ++ (word ++ left)) left
      (.leaf ⟨.token, r.offset (word ++ left), r.offset left, .leaf .anyToken o⟩) := by
  refine h.takes close ?_
  have hmatch : (r.matchToken (.leaf .anyToken o) (r.offset (gap ++ (word ++ left)))).result =
      (accept .token (.leaf .anyToken o) (r.offset (word ++ left))
        (r.offset (word ++ left) + word.length)).result := by
    have hlength : word.length = body.length + 2 := by simp [hw]
    have hword : word ++ left = '\'' :: (body ++ '\'' :: left) := by simp [hw]
    rw [matchToken, h.significant, h.rest, hlength]
    simp only [hword]
    rw [Text.unescaped_eq hbody (by simp) (by simp) (by decide)]
    dsimp only
    congr 2
    omega
  exact hmatch ▸ .anyToken

/-- An extension takes what it finds behind a gap. -/
theorem takes_extension {kind : Kind}
    (hb : r.grammar.body? (Rule.leaf .reference o).target = some none)
    (hf : r.lexis.extend (.leaf .reference o) r.text (r.offset (word ++ left)) r.stop =
      .ok (some ⟨kind, r.offset (word ++ left), (r.offset (word ++ left) + word.length : Nat)⟩)) :
    r.TakesBy answer' (.leaf .reference o) (gap ++ (word ++ left)) left
      (.leaf ⟨kind, r.offset (word ++ left), r.offset left, .leaf .reference o⟩) := by
  refine h.takes close ?_
  have hmatch : (r.matchExtension (.leaf .reference o)
      (r.offset (gap ++ (word ++ left)))).result =
        (accept kind (.leaf .reference o) (r.offset (word ++ left))
          (r.offset (word ++ left) + word.length)).result := by
    have hle := h.word_suffix.length_le
    have hword := h.offset_word
    rw [matchExtension, h.significant, hf]
    dsimp only
    rw [if_pos]
    · rfl
    · simp only [Bool.and_eq_true, decide_eq_true_eq]
      unfold offset at hword ⊢
      omega
  exact hmatch ▸ .extension hb

end Taking

/-- A failure is how an attempt ends. -/
private theorem ends_failure (close : r.Closes answer answer') {rule : Rule} {start : Nat}
    {out : Except Halt ParseTree} (hy : Yields answer r rule start out)
    (h : ∃ failure, out = .error (.failure failure)) :
    ∃ failure, answer' rule start (.error (.failure failure)) := by
  obtain ⟨failure, rfl⟩ := h
  exact ⟨failure, close hy⟩

section Refusing
variable (close : r.Closes answer answer') (h : r.Meets gap word)
include close h

/-- A literal refuses a text that does not begin with its word. -/
theorem refuses_literal (hne : (Rule.leaf .literal o).literal ≠ [])
    (hp : ¬ (Rule.leaf .literal o).literal <+: word) :
    r.RefusesBy answer' (.leaf .literal o) (gap ++ word) := by
  have hmatch : (r.matchLiteral (.leaf .literal o) (r.offset (gap ++ word))).result =
      .error (.failure (.because (.token (Rule.leaf .literal o).literal) (r.offset word) [])) := by
    rw [matchLiteral, matchWord]
    dsimp only
    rw [if_neg hne, h.significant, h.rest,
      if_pos (by rwa [Bool.not_eq_true', ← Bool.not_eq_true, List.isPrefixOf_iff_prefix])]
    rfl
  exact ends_failure close .literal ⟨_, hmatch⟩

/-- A reserved word is no part of a longer one. -/
theorem refuses_keyword {more : Text} (hk : r.lexis.isKeyword (Rule.leaf .literal o).literal)
    (hne : (Rule.leaf .literal o).literal ≠ [])
    (hword : word = (Rule.leaf .literal o).literal ++ more)
    (hnext : more.head?.any isIdentifierChar) : r.RefusesBy answer' (.leaf .literal o) (gap ++ word) := by
  have hrest : r.rest (r.offset word + (Rule.leaf .literal o).literal.length) = more := by
    rw [rest_add, h.rest, hword, List.drop_left]
  have hmatch : ∃ failure, (r.matchLiteral (.leaf .literal o) (r.offset (gap ++ word))).result =
      .error (.failure failure) := by
    rw [matchLiteral, matchWord]
    dsimp only
    rw [if_neg hne, h.significant, h.rest, if_neg (by simp [hword]), hrest,
      Text.lacks_eq_false (Nat.le_of_eq h.stop), Bool.and_false, if_neg Bool.false_ne_true]
    split
    · exact ⟨_, rfl⟩
    · rw [if_pos (by rw [hk, hnext]; rfl)]
      exact ⟨_, rfl⟩
  exact ends_failure close .literal hmatch

/-- An identifier refuses a text that no name begins. -/
theorem refuses_identifier (hc : word.head?.any isIdentifierStart = false) :
    r.RefusesBy answer' (.leaf .anyIdentifier o) (gap ++ word) := by
  have hmatch : (r.matchIdentifier (.leaf .anyIdentifier o) (r.offset (gap ++ word))).result =
      .error (.failure (.because .identifier (r.offset word) [])) := by
    rw [matchIdentifier, h.significant, h.rest]
    cases word with
    | nil => exact absurd rfl h.ne_nil
    | cons c word =>
      dsimp only
      rw [if_pos (by simpa using hc)]
      rfl
  exact ends_failure close .anyIdentifier ⟨_, hmatch⟩

theorem refuses_token (hc : word.head? ≠ some '\'') :
    r.RefusesBy answer' (.leaf .anyToken o) (gap ++ word) := by
  have hmatch : (r.matchToken (.leaf .anyToken o) (r.offset (gap ++ word))).result =
      .error (.failure (.because .singleQuote (r.offset word) [])) := by
    rw [matchToken, h.significant, h.rest]
    split
    · exact absurd rfl h.ne_nil
    · exact absurd rfl hc
    · rfl
  exact ends_failure close .anyToken ⟨_, hmatch⟩

theorem refuses_extension (hb : r.grammar.body? (Rule.leaf .reference o).target = some none)
    (hf : r.lexis.extend (.leaf .reference o) r.text (r.offset word) r.stop =
      .ok none) : r.RefusesBy answer' (.leaf .reference o) (gap ++ word) := by
  have hmatch : (r.matchExtension (.leaf .reference o) (r.offset (gap ++ word))).result =
      .error (.failure (.because (.extension (Rule.leaf .reference o).target) (r.offset word) [])) := by
    rw [matchExtension, h.significant, hf]
    rfl
  exact ends_failure close (.extension hb) ⟨_, hmatch⟩

end Refusing

/-- No reserved word is found where an identifier stands: it is another word, or the identifier goes
on after it. -/
theorem refuses_reserved (close : r.Closes answer answer') {name rest : Text}
    (h : r.Meets gap (name ++ rest)) (hname : r.lexis.IsName name)
    (hnext : rest.head?.any isIdentifierChar = false)
    (hword : (Rule.leaf .literal o).literal = word) (hne : word ≠ [])
    (hkey : r.lexis.isKeyword word) (hchars : ∀ c ∈ word, isIdentifierChar c) :
    r.RefusesBy answer' (.leaf .literal o) (gap ++ (name ++ rest)) := by
  have hother : word ≠ name := by
    rintro rfl
    rw [hname.free] at hkey
    cases hkey
  by_cases hp : word <+: name ++ rest
  · obtain ⟨more, hmore⟩ := hp
    rcases List.append_eq_append_iff.1 hmore with ⟨after, rfl, rfl⟩ | ⟨after, rfl, rfl⟩
    · cases after with
      | nil => exact absurd (List.append_nil word).symm hother
      | cons c after =>
        have hc : isIdentifierChar c := by
          obtain ⟨d, tail, htail, -, hchars⟩ := hname.start
          obtain ⟨e, word, rfl⟩ := List.exists_cons_of_ne_nil hne
          cases htail
          exact hchars c (List.mem_append_right _ List.mem_cons_self)
        refine refuses_keyword close h (hword.symm ▸ hkey) (hword.symm ▸ hne) ?_
          (show (c :: (after ++ rest)).head?.any isIdentifierChar from hc)
        rw [hword, List.append_assoc]
        rfl
    · cases after with
      | nil => exact absurd (List.append_nil name) hother
      | cons c after =>
        have hc := hchars c (List.mem_append_right _ List.mem_cons_self)
        exact absurd (hc.symm.trans hnext) Bool.true_eq_false.mp
  · exact refuses_literal close h (hword.symm ▸ hne) (hword.symm ▸ hp)

section Breaks
variable (close : r.Closes answer answer') (hstop : r.stop = r.text.length)
include close hstop

theorem takes_newLine (hs : '\n' :: left <:+ r.text) :
    r.TakesBy answer' (.leaf .newLine o) ('\n' :: left) left
      (.leaf ⟨.token, r.offset ('\n' :: left), r.offset left, .leaf .newLine o⟩) := by
  have hnext : r.offset left = r.offset ('\n' :: left) + 1 := @offset_append _ _ ['\n'] hs
  have hmatch : (r.matchNewLine (.leaf .newLine o) (r.offset ('\n' :: left))).result =
      (accept .token (.leaf .newLine o) (r.offset ('\n' :: left))
        (r.offset ('\n' :: left) + 1)).result := by
    rw [matchNewLine, Text.lacks_eq_false (Nat.le_of_eq hstop), if_neg Bool.false_ne_true,
      Reader.rest, hstop, Text.window_length, drop_offset hs]
    rfl
  have hy : Yields answer r (.leaf .newLine o) (r.offset ('\n' :: left))
      (accept .token (.leaf .newLine o) (r.offset ('\n' :: left))
        (r.offset ('\n' :: left) + 1)).result := hmatch ▸ .newLine
  rw [← hnext] at hy
  exact ⟨close hy, rfl, List.suffix_cons _ _⟩

theorem refuses_newLine (hs : left <:+ r.text) (hc : left.head? ≠ some '\n') :
    r.RefusesBy answer' (.leaf .newLine o) left := by
  have hmatch : (r.matchNewLine (.leaf .newLine o) (r.offset left)).result =
      .error (.failure (.because .newLine (r.offset left) [])) := by
    rw [matchNewLine, Text.lacks_eq_false (Nat.le_of_eq hstop), if_neg Bool.false_ne_true,
      Reader.rest, hstop, Text.window_length, drop_offset hs]
    split
    · exact absurd rfl hc
    · rfl
  exact ends_failure close .newLine ⟨_, hmatch⟩

end Breaks

/-- A word is looked for in vain where nothing is left but what can be skipped. -/
theorem refuses_literal_at_end (close : r.Closes answer answer') {start i : Nat}
    (hi : r.lexis.skip r.text start r.stop = .ok i)
    (hstop : r.stop ≤ i) (hne : (Rule.leaf .literal o).literal ≠ []) :
    ∃ failure, answer' (.leaf .literal o) start (.error (.failure failure)) := by
  have hmatch : (r.matchLiteral (.leaf .literal o) start).result =
      .error (.failure (.because .endOfText i [])) := by
    rw [matchLiteral, matchWord]
    dsimp only
    rw [if_neg hne, result_bind_of_reached (significant_reached _ _), significant_result, hi]
    dsimp only
    rw [if_pos hstop]
    rfl
  exact ends_failure close .literal ⟨_, hmatch⟩

theorem refuses_identifier_at_end (close : r.Closes answer answer') {start i : Nat}
    (hi : r.lexis.skip r.text start r.stop = .ok i) (hstop : r.stop ≤ i) :
    ∃ failure, answer' (.leaf .anyIdentifier o) start (.error (.failure failure)) := by
  have hmatch : (r.matchIdentifier (.leaf .anyIdentifier o) start).result =
      .error (.failure (.because .endOfText i [])) := by
    rw [matchIdentifier, result_bind_of_reached (significant_reached _ _), significant_result, hi]
    dsimp only
    rw [if_pos hstop]
    rfl
  exact ends_failure close .anyIdentifier ⟨_, hmatch⟩

end Reader
end OrderedBnf
