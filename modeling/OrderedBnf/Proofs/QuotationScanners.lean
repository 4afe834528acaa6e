import OrderedBnf.Proofs.Escapes
import OrderedBnf.Proofs.QuotedTokens
import OrderedBnf.Proofs.Words

/-! Three readers of a quotation in single marks: a terminal, an extension point and the compiling
of an expression. In a range without a line feed they find the same mark to close it. -/
namespace OrderedBnf

namespace Text
variable {text : Text} {start stop : Nat} {c : Char}

/-- What a search looks for matters among the characters of its text only. -/
theorem unescaped_congr {p q : Char → Bool} : ∀ {text : Text} {i : Nat},
    (∀ c ∈ text, p c = q c) → text.unescaped p i = text.unescaped q i
  | [], _, _ => rfl
  | c :: rest, i, h => by
    by_cases hs : c = '\\'
    · subst hs
      cases rest with
      | nil => rfl
      | cons d rest =>
        rw [unescaped_escape, unescaped_escape]
        exact unescaped_congr fun c hc => h c (List.mem_cons_of_mem _ (List.mem_cons_of_mem _ hc))
    · rw [unescaped_cons hs, unescaped_cons hs, h c List.mem_cons_self,
        unescaped_congr fun c hc => h c (List.mem_cons_of_mem _ hc)]

theorem window_at (h : text[start]? = some c) (hlt : start < stop) :
    ∃ rest, text.window start stop = c :: rest := by
  obtain ⟨n, hn⟩ := Nat.exists_eq_add_one.2 (Nat.sub_pos_of_lt hlt)
  obtain ⟨hlength, rfl⟩ := List.getElem?_eq_some_iff.1 h
  rw [window, hn, List.drop_eq_getElem_cons hlength, List.take_succ_cons]
  exact ⟨_, rfl⟩

theorem window_of_le {last : Nat} (h : last ≤ stop) :
    text.window start last = (text.window start stop).take (last - start) := by
  rw [window, window, List.take_take, Nat.min_eq_left (Nat.sub_le_sub_right h start)]

end Text

section Readers
variable {text rest : Text} {start stop : Nat}

theorem Reader.matchToken_window {r : Reader} {rule : Rule}
    (hskip : r.lexis.skip r.text start r.stop = .ok start) (hlt : start < r.stop)
    (h : r.rest start = '\'' :: rest) : (r.matchToken rule start).result =
      match rest.unescaped (· = '\'') (start + 1) with
      | .ok (last, _) => .ok (.leaf ⟨.token, start, last + 1, rule⟩)
      | .error last =>
        if last < r.stop then .error (.abort .beyondText)
        else .error (.failure (.because .closingQuote (r.stop - 1 : Nat) [])) := by
  rw [matchToken, Attempt.result_bind_of_reached (r.significant_reached start), significant_result,
    hskip]
  dsimp only
  rw [if_neg (Nat.not_le.2 hlt), Except.bind, h]
  split
  · contradiction
  · rename_i he
    cases he
    cases rest.unescaped (· = '\'') (start + 1) with
    | ok found => rfl
    | error last =>
      dsimp only
      split <;> rfl
  · rename_i hother
    exact absurd rfl (hother rest)

theorem Quotation.scanner_line (hline : '\n' ∉ rest)
    (h : text.window start stop = '\'' :: rest) : Quotation.scanner '\'' text start stop =
      match rest.unescaped (· = '\'') (start + 1) with
      | .ok (last, _) => .ok (some ⟨.token, start, (last + 1 : Nat)⟩)
      | .error last => if last < stop then .error (.abort .beyondText) else .ok none := by
  have hends : ∀ c ∈ rest, (decide (c = '\n') || decide (c = '\'')) = decide (c = '\'') := by
    intro c hc
    rw [decide_eq_false fun (he : c = '\n') => hline (he ▸ hc), Bool.false_or]
  rw [Quotation.scanner_window h, if_neg (not_not.2 rfl), Text.unescaped_congr hends]
  cases hu : rest.unescaped (· = '\'') (start + 1) with
  | error last => rfl
  | ok found =>
    obtain ⟨body, after, -, hmark, -⟩ := @Reader.unescaped_escaped _ '\'' (decide_eq_true rfl) _ _ _ _ hu
    dsimp only
    rw [of_decide_eq_true hmark]
    rfl

/-- What a search closes compiles. -/
theorem Rule.compile_closed {last : Nat} {c : Char} (h : text.window start stop = '\'' :: rest)
    (hu : rest.unescaped (· = '\'') (start + 1) = .ok (last, c)) :
    Rule.compile (text.window start (last + 1)) =
      .ok (.leaf .literal ⟨0, last + 1 - start, false, none, text.window start (last + 1)⟩) := by
  obtain ⟨body, after, rfl, hmark, hbody, rfl⟩ := Reader.unescaped_escaped (decide_eq_true rfl) hu
  obtain rfl : c = '\'' := of_decide_eq_true hmark
  have hlength := congrArg List.length h
  simp only [Text.length_window, List.length_cons, List.length_append] at hlength
  have hword : text.window start (start + 1 + body.length + 1) = '\'' :: (body ++ ['\'']) := by
    have hn : start + 1 + body.length + 1 - start = ('\'' :: (body ++ ['\''])).length := by
      simp only [List.length_cons, List.length_append, List.length_nil]
      omega
    have hwhole : '\'' :: (body ++ '\'' :: after) = '\'' :: (body ++ ['\'']) ++ after := by simp
    rw [Text.window_of_le (by omega : start + 1 + body.length + 1 ≤ stop), h, hn, hwhole,
      List.take_left]
  have hterminal : Terminal .literal ('\'' :: (body ++ ['\''])) := .literal rfl hbody
  have hsize : ('\'' :: (body ++ ['\''])).length = start + 1 + body.length + 1 - start := by
    simp only [List.length_cons, List.length_append, List.length_nil]
    omega
  rw [hword, hterminal.compile, hsize]

theorem Rule.compile_unclosed (h : text = '\'' :: rest) {i last : Nat}
    (hu : rest.unescaped (· = '\'') i = .error last) : ∃ error, Rule.compile text = .error error := by
  cases hc : Rule.compile text with
  | error error => exact ⟨error, rfl⟩
  | ok rule =>
    have hclosed := Rule.closed_of_compile hc
    rw [h, Place.after_cons, Place.step_quote rfl] at hclosed
    obtain ⟨body, after, hbody, rfl, -⟩ := Place.closing_mark hclosed
    rw [Text.unescaped_eq hbody (fun c _ => of_decide_eq_true) (decide_eq_true rfl) (by decide)] at hu
    cases hu

/-- Neither blanks nor comments are skipped before a quotation. -/
theorem skip_quotation (h : text[start]? = some '\'') :
    skipBlanks text start stop = .ok start ∧ Comment.skip text start stop = .ok start := by
  have hdrop : (text.drop start).isEmpty = false := by
    rw [List.isEmpty_eq_false_iff, ne_eq, List.drop_eq_nil_iff, Nat.not_le]
    exact (List.getElem?_eq_some_iff.1 h).1
  have hlacks : text.lacks start stop = false := by rw [Text.lacks, hdrop, Bool.and_false]
  rw [skipBlanks, skipWhile, Comment.skip]
  rcases Nat.lt_or_ge start stop with hlt | hle
  · obtain ⟨rest, hrest⟩ := Text.window_at h hlt
    have hsharp : Comment.Sharp ('\'' :: rest) := ⟨rfl, fun h => absurd h (by decide)⟩
    have htake : ('\'' :: rest).takeWhile isBlank = [] := rfl
    rw [hrest, htake, Comment.skipFrom_sharp hsharp]
    exact ⟨if_neg (by simp [hlacks]), rfl⟩
  · have hempty : text.window start stop = [] := by
      rw [Text.window, Nat.sub_eq_zero_of_le hle, List.take_zero]
    rw [hempty]
    exact ⟨if_neg (by simp [hlacks]), if_neg (Nat.not_lt.2 hle)⟩

/-- What the three readers come to: a leaf, no closing mark in the range, or a range beyond the
text. -/
inductive Quotation.Outcome (text : Text) (start stop : Nat) (rule : Rule)
    (terminal : Except Halt ParseTree) (extension : Except Halt (Option Found)) : Prop
  | closed {x : Nat} : terminal = .ok (.leaf ⟨.token, start, x, rule⟩) →
      extension = .ok (some ⟨.token, start, x⟩) →
      Rule.compile (text.window start x) =
        .ok (.leaf .literal ⟨0, x - start, false, none, text.window start x⟩) →
      Outcome text start stop rule terminal extension
  | unclosed {failure error} : terminal = .error (.failure failure) → extension = .ok none →
      Rule.compile (text.window start stop) = .error error →
      Outcome text start stop rule terminal extension
  | beyond {error} : text.length < stop → terminal = .error (.abort .beyondText) →
      extension = .error (.abort .beyondText) →
      Rule.compile (text.window start stop) = .error error →
      Outcome text start stop rule terminal extension

theorem Reader.quotation_outcome (r : Reader) (rule : Rule) (hmark : r.text[start]? = some '\'')
    (hline : '\n' ∉ r.text.window start r.stop)
    (hskip : r.lexis.skip r.text start r.stop = .ok start) :
    Quotation.Outcome r.text start r.stop rule (r.matchToken rule start).result
      (Quotation.scanner '\'' r.text start r.stop) := by
  rcases Nat.lt_or_ge start r.stop with hlt | hle
  · obtain ⟨rest, hrest⟩ := Text.window_at hmark hlt
    rw [hrest, List.mem_cons, not_or] at hline
    rw [Reader.matchToken_window hskip hlt hrest, Quotation.scanner_line hline.2 hrest]
    have hoffset := Text.unescaped_offset (· = '\'') (start + 1) rest
    have hlength := congrArg List.length hrest
    rw [Text.length_window, List.length_cons] at hlength
    cases hu : Text.unescaped (· = '\'') (start + 1) rest with
    | ok found => exact .closed rfl rfl (Rule.compile_closed hrest hu)
    | error last =>
      obtain ⟨error, herror⟩ := Rule.compile_unclosed hrest hu
      rw [hu] at hoffset
      dsimp only at hoffset ⊢
      split
      · exact .beyond (by omega) rfl rfl herror
      · exact .unclosed rfl rfl herror
  · have hterminal : (r.matchToken rule start).result =
        .error (.failure (.because .endOfText start [])) := by
      rw [matchToken, Attempt.result_bind_of_reached (r.significant_reached start),
        significant_result, hskip]
      dsimp only
      rw [if_pos hle]
      rfl
    have hempty (i : Nat) (hi : r.stop ≤ i) : r.text.window i r.stop = [] := by
      rw [Text.window, Nat.sub_eq_zero_of_le hi, List.take_zero]
    obtain ⟨hlength, hchar⟩ := List.getElem?_eq_some_iff.1 hmark
    have hextension : Quotation.scanner '\'' r.text start r.stop = .ok none := by
      rw [Quotation.scanner, List.drop_eq_getElem_cons hlength, hchar,
        hempty _ (Nat.le_succ_of_le hle)]
      dsimp only
      rw [if_neg (not_not.2 rfl), Text.unescaped]
      exact if_neg (Nat.not_lt.2 (Nat.le_succ_of_le hle))
    have hcompile : Rule.compile (r.text.window start r.stop) =
        .error (Fault.emptyExpression.atOffset 0) := by
      rw [hempty start hle]
      rfl
    exact .unclosed hterminal hextension hcompile

/-- From a single quotation mark on, in a range without a line feed, the terminal for quotations and
the scanner of the extension point find the same leaf, which compiles to one token; and if one of
them finds none, so does the other, and the range does not compile. -/
theorem Quotation.readers_agree (hmark : text[start]? = some '\'')
    (hline : '\n' ∉ text.window start stop) :
    (skipBlanks text start stop = .ok start ∧ Comment.skip text start stop = .ok start) ∧
    ∀ (r : Reader) (rule : Rule), r.text = text → r.stop = stop →
      r.lexis.skip text start stop = .ok start →
      (∀ x : Nat, (r.matchToken rule start).result = .ok (.leaf ⟨.token, start, x, rule⟩) ↔
        Quotation.scanner '\'' text start stop = .ok (some ⟨.token, start, x⟩)) ∧
      (∀ tree, (r.matchToken rule start).result = .ok tree → ∃ x,
        tree = .leaf ⟨.token, start, x, rule⟩ ∧ Rule.compile (text.window start x) =
          .ok (.leaf .literal ⟨0, x - start, false, none, text.window start x⟩)) ∧
      ((∀ tree, (r.matchToken rule start).result ≠ .ok tree) ↔
        ∀ found, Quotation.scanner '\'' text start stop ≠ .ok (some found)) ∧
      ((∀ tree, (r.matchToken rule start).result ≠ .ok tree) →
        ∃ error, Rule.compile (text.window start stop) = .error error) ∧
      (stop ≤ text.length →
        ((∃ failure, (r.matchToken rule start).result = .error (.failure failure)) ↔
          Quotation.scanner '\'' text start stop = .ok none)) := by
  refine ⟨skip_quotation hmark, ?_⟩
  rintro r rule rfl rfl hskip
  cases r.quotation_outcome rule hmark hline hskip with
  | @closed x hterminal hextension hcompile =>
    rw [hterminal, hextension]
    refine ⟨fun y => ?_, ?_, ?_, ?_, ?_⟩
    · constructor
      · intro he
        cases he
        rfl
      · intro he
        have hx : (x : Int) = y := by simpa using he
        rw [Int.ofNat_inj.1 hx]
    · rintro tree ⟨⟩
      exact ⟨x, rfl, hcompile⟩
    · simp
    · simp
    · simp
  | unclosed hterminal hextension hcompile =>
    rw [hterminal, hextension]
    simp [hcompile]
  | beyond hstop hterminal hextension hcompile =>
    rw [hterminal, hextension]
    simp [hcompile]

/-- An escaped mark within a quotation, and one that nothing closes since its last mark is escaped. -/
theorem Quotation.escaped_marks_read :
    let text : Text := "f('it\\'s') 'x\\'".toList
    let r : Reader := ⟨Grammar.empty, .plain, text, 15⟩
    let rule : Rule := .leaf .anyToken ⟨0, 5, false, none, "TOKEN".toList⟩
    ((r.matchToken rule 2).result = .ok (.leaf ⟨.token, 2, 9, rule⟩) ∧
      Rule.compile (text.window 2 9) = .ok (.leaf .literal ⟨0, 7, false, none, text.window 2 9⟩)) ∧
    Quotation.scanner '\'' text 11 15 = .ok none ∧
      (∃ failure, (r.matchToken rule 11).result = .error (.failure failure)) ∧
      ∃ error, Rule.compile (text.window 11 15) = .error error := by
  intro text r rule
  refine ⟨?_, rfl, ?_⟩
  · have hmark : text[2]? = some '\'' := rfl
    have hline : '\n' ∉ text.window 2 15 := by decide
    obtain ⟨⟨hskip, -⟩, hread⟩ := Quotation.readers_agree hmark hline
    obtain ⟨hiff, hcompile, -⟩ := hread r rule rfl rfl hskip
    have hterminal := (hiff 9).2 rfl
    obtain ⟨x, hx, hleaf⟩ := hcompile _ hterminal
    cases hx
    exact ⟨hterminal, hleaf⟩
  · have hmark : text[11]? = some '\'' := rfl
    have hline : '\n' ∉ text.window 11 15 := by decide
    obtain ⟨⟨hskip, -⟩, hread⟩ := Quotation.readers_agree hmark hline
    obtain ⟨-, -, hnone, hrange, hfails⟩ := hread r rule rfl rfl hskip
    have hscanner : Quotation.scanner '\'' text 11 15 = .ok none := rfl
    have hfound (found : Found) : Quotation.scanner '\'' text 11 15 ≠ .ok (some found) :=
      fun h => by cases hscanner.symm.trans h
    exact ⟨(hfails (by decide)).2 rfl, hrange (hnone.2 hfound)⟩

end Readers

end OrderedBnf
