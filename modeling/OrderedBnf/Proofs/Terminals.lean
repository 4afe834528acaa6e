import OrderedBnf.Parse.Terminal
import OrderedBnf.Proofs.Attempt

/-! Leaves of a rule tree: where the match of each of them lies. -/
namespace OrderedBnf

/-- On the way to an offset of the text every character is found. -/
theorem Text.lacks_eq_false {text : Text} {stop : Nat} (h : stop ≤ text.length) (i : Nat) :
    text.lacks i stop = false := by
  simp only [lacks, Bool.and_eq_false_iff, decide_eq_false_iff_not, List.isEmpty_eq_false_iff,
    ne_eq, List.drop_eq_nil_iff]
  omega

/-- A character is found within the text, and one that is not found is given up at its end. -/
theorem Text.unescaped_offset (p : Char → Bool) (i : Nat) (text : Text) :
    match text.unescaped p i with
    | .ok (j, _) => i ≤ j ∧ j < i + text.length
    | .error j => i + text.length ≤ j := by
  fun_induction unescaped p i text with
  | case1 => simp
  | case2 => simp
  | case3 i c rest ih =>
    revert ih
    cases unescaped p (i + 2) rest with
    | error j => simp only [List.length_cons]; omega
    | ok found => simp only [List.length_cons]; omega
  | case4 i c rest _ _ hp => simp
  | case5 i c rest _ _ hp ih =>
    revert ih
    cases unescaped p (i + 1) rest with
    | error j => simp only [List.length_cons]; omega
    | ok found => simp only [List.length_cons]; omega

/-- Hooks that come back with an answer for a range: skipping finds an offset, and an extension
matches nothing, fails, or matches a range of the text, wherever that lies. -/
structure Lexis.Returns (lexis : Lexis) (text : Text) (stop : Nat) : Prop where
  skip (start : Nat) : ∃ i, lexis.skip text start stop = .ok i
  extend (rule : Rule) (start : Nat) : match lexis.extend rule text start stop with
    | .ok (some found) => 0 ≤ found.start ∧ found.start ≤ found.stop ∧ found.stop ≤ text.length
    | .error (.abort _) => False
    | _ => True

theorem Lexis.plain_returns {text : Text} {stop : Nat} (h : stop ≤ text.length) :
    Lexis.plain.Returns text stop where
  skip start := ⟨_, if_neg (by rw [Text.lacks_eq_false h]; exact Bool.false_ne_true)⟩
  extend _ _ := trivial

namespace Reader
open Attempt
variable (r : Reader) (rule : Rule) (start : Nat)

theorem skip_steady : (r.skip start).Steady := by
  unfold skip
  split
  · exact steady_pure _
  · exact steady_abort _

theorem significant_steady : (r.significant start).Steady := by
  refine (r.skip_steady start).bind fun i => ?_
  split
  · exact steady_fail _ _ _
  · exact steady_pure _

theorem accept_steady (kind : Kind) (stop : Nat) : (accept kind rule start stop).Steady :=
  (steady_reach stop).bind fun _ => steady_pure _

theorem matchToken_steady : (r.matchToken rule start).Steady := by
  refine (r.significant_steady start).bind fun i => ?_
  split
  · exact steady_abort _
  · split
    · exact accept_steady _ _ _ _
    · split
      · exact steady_abort _
      · exact steady_fail _ _ _
  · exact steady_fail _ _ _

theorem matchIdentifier_steady : (r.matchIdentifier rule start).Steady := by
  refine (r.significant_steady start).bind fun i => ?_
  split
  · exact steady_abort _
  · split
    · exact steady_fail _ _ _
    · dsimp only
      split
      · exact steady_abort _
      · split
        · exact steady_fail _ _ _
        · exact accept_steady _ _ _ _

theorem matchNewLine_steady : (r.matchNewLine rule start).Steady := by
  unfold matchNewLine
  split
  · exact steady_abort _
  · split
    · exact accept_steady _ _ _ _
    · exact steady_fail _ _ _

theorem matchLiteral_steady : (r.matchLiteral rule start).Steady := by
  unfold matchLiteral matchWord
  dsimp only
  split
  · split
    · exact steady_abort _
    · exact steady_pure _
  · refine (r.significant_steady start).bind fun i => ?_
    split
    · exact steady_fail _ _ _
    · split
      · exact steady_fail _ _ _
      · split
        · exact steady_abort _
        · split
          · exact steady_fail _ _ _
          · exact accept_steady _ _ _ _

theorem matchExtension_steady : (r.matchExtension rule start).Steady := by
  refine (r.significant_steady start).bind fun i => ?_
  split
  · exact steady_throw _
  · exact steady_fail _ _ _
  · split
    · exact accept_steady _ _ _ _
    · exact steady_abort _

/-- Skipping leads to what is significant, unless nothing is left. -/
theorem significant_result : (r.significant start).result =
    match r.lexis.skip r.text start r.stop with
    | .error cause => .error (.abort cause)
    | .ok i => if r.stop ≤ i then .error (.failure (.because .endOfText i [])) else .ok i := by
  unfold significant skip
  cases r.lexis.skip r.text start r.stop with
  | error cause => rfl
  | ok i =>
    simp only [pure_bind]
    split <;> rfl

theorem significant_reached : (r.significant start).reached = 0 := by
  unfold significant skip
  cases r.lexis.skip r.text start r.stop with
  | error cause => rfl
  | ok i =>
    simp only [pure_bind]
    split <;> rfl

variable {r rule start} {tree : ParseTree}

theorem significant_lt {i : Nat} (h : (r.significant start).result = .ok i) : i < r.stop := by
  rw [significant_result] at h
  split at h
  · cases h
  · split at h
    · cases h
    · cases h
      exact Nat.lt_of_not_le ‹_›

/-- What comes after the skipping starts on a character before the end of the range. -/
theorem significant_bind_ok {f : Nat → Attempt ParseTree}
    (h : (r.significant start >>= f).result = .ok tree) :
    ∃ i, r.lexis.skip r.text start r.stop = .ok i ∧ i < r.stop ∧ (f i).result = .ok tree := by
  rw [result_bind_of_reached (r.significant_reached start), significant_result] at h
  split at h
  · cases h
  · rename_i i hi
    split at h
    · cases h
    · rename_i hs
      exact ⟨i, hi, Nat.lt_of_not_le hs, h⟩

/-- What fails is the skipping, where nothing is left, or what comes after it. -/
theorem significant_bind_failed {f : Nat → Attempt ParseTree} {failure : Failure}
    (h : (r.significant start >>= f).result = .error (.failure failure)) :
    ∃ i, r.lexis.skip r.text start r.stop = .ok i ∧
      (failure = .because .endOfText i [] ∨
        i < r.stop ∧ (f i).result = .error (.failure failure)) := by
  rw [result_bind_of_reached (r.significant_reached start), significant_result] at h
  split at h
  · cases h
  · rename_i i hi
    split at h
    · cases h
      exact ⟨i, hi, .inl rfl⟩
    · rename_i hs
      exact ⟨i, hi, .inr ⟨Nat.lt_of_not_le hs, h⟩⟩

/-- A word that is found where the reader stands ends within the range and within the text. -/
theorem rest_prefix_bound {word : Text} {i : Nat} (h : word <+: r.rest i) (hw : word ≠ []) :
    i + word.length ≤ r.stop ∧ i + word.length ≤ r.text.length := by
  have hl := h.length_le
  have hp := List.length_pos_iff.2 hw
  rw [rest, Text.length_window] at hl
  omega

theorem accept_ok {kind : Kind} {stop : Nat}
    (h : (accept kind rule start stop).result = .ok tree) :
    tree = .leaf ⟨kind, start, stop, rule⟩ := by
  cases h
  rfl

/-- A token that is matched stands between quotes within the range. -/
theorem matchToken_ok (h : (r.matchToken rule start).result = .ok tree) :
    ∃ i last, r.lexis.skip r.text start r.stop = .ok i ∧ i < last ∧ last < r.stop ∧
      last < r.text.length ∧ tree = .leaf ⟨.token, i, last + 1, rule⟩ := by
  obtain ⟨i, hi, _, h⟩ := significant_bind_ok h
  split at h
  · cases h
  · rename_i rest hrest
    have hl := r.text.length_window i r.stop
    have hu := Text.unescaped_offset (· = '\'') (i + 1) rest
    rw [show r.text.window i r.stop = '\'' :: rest from hrest, List.length_cons] at hl
    split at h
    · rename_i last c hc
      rw [hc] at hu
      refine ⟨i, last, hi, ?_, ?_, ?_, accept_ok h⟩ <;> dsimp only at hu <;> omega
    · split at h <;> cases h
  · cases h

/-- An identifier that is matched is no keyword, and no character of a name follows it. -/
theorem matchIdentifier_ok (h : (r.matchIdentifier rule start).result = .ok tree) :
    ∃ i c rest, r.lexis.skip r.text start r.stop = .ok i ∧ r.rest i = c :: rest ∧
      isIdentifierStart c ∧ r.lexis.isKeyword (c :: rest.takeWhile isIdentifierChar) = false ∧
      tree = .leaf ⟨.identifier, i, i + (c :: rest.takeWhile isIdentifierChar).length, rule⟩ := by
  obtain ⟨i, hi, _, h⟩ := significant_bind_ok h
  split at h
  · cases h
  · rename_i c rest hrest
    split at h
    · cases h
    · rename_i hc
      dsimp only at h
      split at h
      · cases h
      · split at h
        · cases h
        · rename_i hk
          exact ⟨i, c, rest, hi, hrest, by simpa using hc, by simpa using hk, accept_ok h⟩

theorem matchNewLine_ok (h : (r.matchNewLine rule start).result = .ok tree) :
    ∃ rest, r.rest start = '\n' :: rest ∧ tree = .leaf ⟨.token, start, start + 1, rule⟩ := by
  unfold matchNewLine at h
  split at h
  · cases h
  · split at h
    · rename_i rest hrest
      exact ⟨rest, hrest, accept_ok h⟩
    · cases h

/-- An empty literal matches at once; any other after skipping, as a prefix of what is there. -/
theorem matchLiteral_ok (h : (r.matchLiteral rule start).result = .ok tree) :
    rule.literal = [] ∧ start ≤ r.text.length ∧ tree = .leaf ⟨.token, start, start, rule⟩ ∨
      ∃ i, rule.literal ≠ [] ∧ r.lexis.skip r.text start r.stop = .ok i ∧
        rule.literal <+: r.rest i ∧
        tree = .leaf ⟨.token, i, i + rule.literal.length, rule⟩ := by
  unfold matchLiteral matchWord at h
  dsimp only at h
  split at h
  · rename_i hw
    split at h
    · cases h
    · rename_i hs
      cases h
      exact .inl ⟨hw, Nat.le_of_not_lt hs, rfl⟩
  · rename_i hw
    obtain ⟨i, hi, _, h⟩ := significant_bind_ok h
    split at h
    · cases h
    · rename_i hp
      split at h
      · cases h
      · split at h
        · cases h
        · split at h
          · cases h
          · exact .inr ⟨i, hw, hi, by simpa using hp, accept_ok h⟩

/-- An extension that is matched has been found where skipping leads. -/
theorem matchExtension_ok (h : (r.matchExtension rule start).result = .ok tree) :
    ∃ i found, r.lexis.skip r.text start r.stop = .ok i ∧ i < r.stop ∧
      r.lexis.extend rule r.text i r.stop = .ok (some found) ∧
      0 ≤ found.start ∧ found.start ≤ found.stop ∧ found.stop ≤ r.text.length ∧
      tree = .leaf ⟨found.kind, found.start.toNat, found.stop.toNat, rule⟩ := by
  obtain ⟨i, hi, hs, h⟩ := significant_bind_ok h
  split at h
  · cases h
  · cases h
  · rename_i found hf
    split at h
    · rename_i hb
      simp only [Bool.and_eq_true, decide_eq_true_eq] at hb
      exact ⟨i, found, hi, hs, hf, hb.1.1, hb.1.2, hb.2, accept_ok h⟩
    · cases h

theorem rest_ne_nil (ht : r.stop ≤ r.text.length) {i : Nat} (hi : i < r.stop) :
    r.rest i ≠ [] := by
  rw [← List.length_pos_iff, rest, Text.length_window]
  omega

section Returning
variable (hooks : r.lexis.Returns r.text r.stop) {cause : Abort}
include hooks

private theorem significant_bind_not_aborted {f : Nat → Attempt ParseTree}
    (hf : ∀ i, i < r.stop → (f i).result ≠ .error (.abort cause)) :
    (r.significant start >>= f).result ≠ .error (.abort cause) := by
  obtain ⟨i, hi⟩ := hooks.skip start
  rw [result_bind_of_reached (r.significant_reached start), significant_result, hi]
  dsimp only
  split
  · exact fun h => by cases h
  · rename_i hs
    exact hf i (Nat.lt_of_not_le hs)

theorem matchExtension_not_aborted :
    (r.matchExtension rule start).result ≠ .error (.abort cause) := by
  refine significant_bind_not_aborted hooks fun i _ => ?_
  have he := hooks.extend rule i
  split
  · rename_i halt hh
    rw [hh] at he
    cases halt with
    | failure => exact fun h => by cases h
    | abort => exact he.elim
  · exact fun h => by cases h
  · rename_i found hf
    rw [hf] at he
    rw [if_pos (by simpa [and_assoc] using he)]
    exact fun h => by cases h

variable (ht : r.stop ≤ r.text.length)
include ht

theorem matchToken_not_aborted : (r.matchToken rule start).result ≠ .error (.abort cause) := by
  refine significant_bind_not_aborted hooks fun i hi => ?_
  split
  · rename_i hr
    exact absurd hr (rest_ne_nil ht hi)
  · rename_i rest hr
    have hl := r.text.length_window i r.stop
    have hu := Text.unescaped_offset (· = '\'') (i + 1) rest
    rw [show r.text.window i r.stop = '\'' :: rest from hr, List.length_cons] at hl
    split
    · exact fun h => by cases h
    · rename_i last hc
      rw [hc] at hu
      rw [if_neg (by dsimp only at hu; omega)]
      exact fun h => by cases h
  · exact fun h => by cases h

theorem matchIdentifier_not_aborted :
    (r.matchIdentifier rule start).result ≠ .error (.abort cause) := by
  refine significant_bind_not_aborted hooks fun i hi => ?_
  split
  · rename_i hr
    exact absurd hr (rest_ne_nil ht hi)
  · dsimp only
    rw [Text.lacks_eq_false ht, if_neg Bool.false_ne_true]
    repeat' split
    all_goals exact fun h => by cases h

omit hooks in
theorem matchNewLine_not_aborted : (r.matchNewLine rule start).result ≠ .error (.abort cause) := by
  rw [matchNewLine, Text.lacks_eq_false ht, if_neg Bool.false_ne_true]
  split <;> exact fun h => by cases h

theorem matchLiteral_not_aborted (hs : start ≤ r.text.length) :
    (r.matchLiteral rule start).result ≠ .error (.abort cause) := by
  unfold matchLiteral matchWord
  dsimp only
  rw [if_neg (Nat.not_lt.2 hs)]
  split
  · exact fun h => by cases h
  · refine significant_bind_not_aborted hooks fun i _ => ?_
    rw [Text.lacks_eq_false ht, Bool.and_false, if_neg Bool.false_ne_true]
    repeat' split
    all_goals exact fun h => by cases h

end Returning

end Reader
end OrderedBnf
