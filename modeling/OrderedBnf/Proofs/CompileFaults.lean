import Mathlib.Logic.Relation
import OrderedBnf.Proofs.Decompiling

/-! Compiling an expression ends, in a rule or in a fault at an offset of the text. It goes on with
stretches of the text only, each shorter than the one it is part of, trimmed and not empty. -/
namespace OrderedBnf
open Relation

def SyntaxError.Between (error : SyntaxError) (start stop : Nat) : Prop :=
  ∃ fault position, error = Fault.atOffset fault position ∧ start ≤ position ∧ position < stop

/-- A fault at an offset of a range is an error between the ends of the range. -/
theorem Fault.between {fault : Fault} {position start stop : Nat} (hs : start ≤ position)
    (ht : position < stop) : (fault.atOffset position).Between start stop :=
  ⟨fault, position, rfl, hs, ht⟩

theorem SyntaxError.Between.mono {error : SyntaxError} {start stop start' stop' : Nat}
    (h : error.Between start' stop') (hs : start ≤ start') (ht : stop' ≤ stop) :
    error.Between start stop := by
  obtain ⟨fault, position, rfl, hle, hlt⟩ := h
  exact Fault.between (Nat.le_trans hs hle) (Nat.lt_of_lt_of_le hlt ht)

/-- The search finds a fault at one of the characters that it has seen. -/
theorem cutFrom_error {first i depth : Nat} {quote : Option Char} {blank : Option Nat}
    {chars : Text} {error : SyntaxError} (hpos : 0 < i + chars.length)
    (h : cutFrom first i depth quote blank chars = .error error) :
    error.Between first (first + (i + chars.length)) := by
  fun_induction cutFrom first i depth quote blank chars with
  | case1 | case2 | case3 | case4 | case9 | case11 =>
    cases h
    all_goals
      simp only [List.length_nil, List.length_cons] at hpos ⊢
      exact Fault.between (by omega) (by omega)
  | case12 => cases h
  | case5 | case6 | case7 | case8 | case10 | case13 | case14 | case15 =>
    rename_i ih
    refine (ih (by simp only [List.length_cons] at hpos ⊢; omega) h).mono (Nat.le_refl _) ?_
    simp only [List.length_cons]
    omega

/-- The character that a backslash at the end would go with is not looked for. -/
example : (Stretch.mk 3 "'a\\".toList).cut? =
    .error (Fault.unterminatedLiteral.atOffset 5) := rfl

namespace Stretch

/-- What compiling a stretch goes on with: the left side of its cut; the right side, once the left
one is compiled; or what stands between its brackets, unless that is blank. -/
inductive Contains (text : Text) : Stretch → Stretch → Prop
  | before {s cut} : s.cut? = .ok (some cut) → Contains text s (s.before cut).trim
  | after {s cut left} : s.cut? = .ok (some cut) →
      Rule.compileStretch text (s.before cut).trim = .ok left → Contains text s (s.after cut).trim
  | inner {s opening inner closing} : s.cut? = .ok none →
      s.chars = opening :: (inner ++ [closing]) → closingOf? opening = some closing →
      s.inner.trim.chars ≠ [] → Contains text s s.inner.trim

structure Proper (text : Text) (s : Stretch) : Prop where
  within : s.Within text
  tight : Tight s.chars
  ne_nil : s.chars ≠ []

variable {s s' : Stretch} {cut : Cut} {text : Text}

theorem trim_chars_ne_nil {c : Char} (hc : c ∈ s.chars) (hb : isBlank c = false) :
    s.trim.chars ≠ [] := by
  intro hn
  obtain ⟨before, after, hbefore, hafter, hs, -⟩ := s.trim_parts
  rw [hs, hn, List.append_nil] at hc
  have hblank : isBlank c := (List.mem_append.1 hc).elim (hbefore c) (hafter c)
  rw [hb] at hblank
  cases hblank

/-- There is something on either side of a cut. -/
theorem operands_ne_nil (ht : Tight s.chars) (hc : s.cut? = .ok (some cut)) : 0 < cut.offset ∧
    (s.before cut).trim.chars ≠ [] ∧ (s.after cut).trim.chars ≠ [] := by
  have hlength := s.before_length hc
  obtain ⟨c, hs, hpos, d, hd, hdb⟩ : ∃ c,
      s.chars = (s.before cut).chars ++ c :: (s.after cut).chars ∧
      (s.before cut).chars ≠ [] ∧ ∃ d ∈ (s.after cut).chars, isBlank d = false := by
    cases cut with
    | choice k =>
      obtain ⟨c, ⟨-, hk, hafter⟩, hs⟩ := parts (.choice k) (cutFrom_choice hc)
      refine ⟨c, hs, fun hn => hk ?_, hafter⟩
      rw [hn] at hlength
      exact hlength.symm
    | sequence k =>
      obtain ⟨c, ⟨hcb, hsep, -⟩, hs⟩ := parts (.sequence k) (cutFrom_sequence hc)
      refine ⟨c, hs, fun hn => ?_, exists_of_separates hsep⟩
      have hhead := ht.head c _ (by rw [hs, hn, List.nil_append])
      rw [hcb] at hhead
      cases hhead
  refine ⟨?_, ?_, trim_chars_ne_nil hd hdb⟩
  · rw [← hlength]
    exact List.length_pos_iff.2 hpos
  · obtain ⟨first, rest, hfirst⟩ := List.exists_cons_of_ne_nil hpos
    have hhead := ht.head first (rest ++ c :: (s.after cut).chars) (by rw [hs, hfirst]; rfl)
    exact trim_chars_ne_nil (hfirst ▸ List.mem_cons_self) hhead

theorem Within.stop_le (h : s.Within text) : s.stop ≤ text.length := by
  obtain ⟨pre, post, rfl, hs⟩ := h
  simp only [stop, List.length_append]
  omega

theorem Proper.start_lt (h : s.Proper text) : s.start < s.stop :=
  Nat.lt_add_of_pos_right (List.length_pos_iff.2 h.ne_nil)

theorem before_within (s : Stretch) (cut : Cut) : (s.before cut).stop ≤ s.stop := by
  simp only [stop, before, List.length_take]
  omega

/-- What compiling goes on with is a proper stretch of the text again, and a shorter part. -/
theorem Proper.contains (h : s.Proper text) (hs : Contains text s s') : s'.Proper text ∧
    s'.chars.length < s.chars.length ∧ s.start ≤ s'.start ∧ s'.stop ≤ s.stop := by
  cases hs with
  | @before cut hc =>
    obtain ⟨-, hleft, -⟩ := operands_ne_nil h.tight hc
    obtain ⟨hstart, hstop⟩ := (s.before cut).trim_within
    exact ⟨⟨(h.within.before cut).trim, trim_tight _, hleft⟩, length_before_lt hc, hstart,
      Nat.le_trans hstop (s.before_within cut)⟩
  | @after cut _ hc =>
    obtain ⟨-, -, hright⟩ := operands_ne_nil h.tight hc
    obtain ⟨hstart, hstop⟩ := (s.after cut).trim_within
    rw [s.after_stop hc] at hstop
    refine ⟨⟨(h.within.after (cut?_offset_lt hc)).trim, trim_tight _, hright⟩, length_after_lt hc,
      Nat.le_trans ?_ hstart, hstop⟩
    simp only [after]
    omega
  | inner _ hchars _ hne =>
    obtain ⟨hstart, hstop⟩ := s.inner.trim_within
    refine ⟨⟨(h.within.inner hchars).trim, trim_tight _, hne⟩, length_inner_lt h.ne_nil,
      Nat.le_trans (Nat.le_succ _) hstart, Nat.le_trans hstop ?_⟩
    rw [stop, inner_chars hchars, stop, hchars, inner, List.length_cons, List.length_append]
    dsimp only
    omega

theorem Contains.of_ends {closing : Char} (hc : s.cut? = .ok none) (hne : s.chars ≠ [])
    (ho : closingOf? (s.chars.head hne) = some closing) (hlast : s.chars.getLast hne = closing)
    (hinner : s.inner.trim.chars ≠ []) : Contains text s s.inner.trim := by
  obtain ⟨inner, hchars⟩ := Rule.exists_enclosed hne hinner
  rw [hlast] at hchars
  exact .inner hc hchars ho hinner

theorem Contains.wellFounded (text : Text) : WellFounded fun s' s => Contains text s s' := by
  refine Subrelation.wf (fun {s' s} (h : Contains text s s') => ?_)
    (measure fun s : Stretch => s.chars.length).wf
  cases h with
  | before hc => exact length_before_lt hc
  | after hc => exact length_after_lt hc
  | inner _ hchars => exact length_inner_lt (by rw [hchars]; exact List.cons_ne_nil _ _)

end Stretch

namespace Rule
variable {text : Text} {s : Stretch} {error : SyntaxError}

theorem compileLeaf_error {first last : Char} (hs : s.start < s.stop)
    (h : compileLeaf text s first last = .error error) : error.Between s.start s.stop := by
  rw [compileLeaf] at h
  split at h
  · split at h <;> cases h
    exact Fault.between (Nat.le_refl _) hs
  · split at h
    · cases h
    · split at h <;> cases h
      exact Fault.between (Nat.le_refl _) hs

/-- A proper stretch that does not compile has a fault within it. -/
theorem compileStretch_error (h : s.Proper text) (he : compileStretch text s = .error error) :
    error.Between s.start s.stop := by
  have hlt := h.start_lt
  fun_induction compileStretch text s generalizing error with
  | case1 s error' hc =>
    cases he
    have hpos : 0 < 0 + s.chars.length := by
      rw [Nat.zero_add]
      exact List.length_pos_iff.2 h.ne_nil
    have hb := cutFrom_error hpos hc
    rwa [Nat.zero_add] at hb
  | case2 s cut hc ihl ihr =>
    cases hl : compileStretch text (s.before cut).trim with
    | error error' =>
      simp only [hl, bind, Except.bind] at he
      cases he
      obtain ⟨hproper, -, hstart, hstop⟩ := h.contains (.before hc)
      exact (ihl hproper hl hproper.start_lt).mono hstart hstop
    | ok left =>
      cases hr : compileStretch text (s.after cut).trim with
      | error error' =>
        simp only [hl, hr, bind, Except.bind] at he
        cases he
        obtain ⟨hproper, -, hstart, hstop⟩ := h.contains (.after hc hl)
        exact (ihr hproper hr hproper.start_lt).mono hstart hstop
      | ok right =>
        simp only [hl, hr, bind, Except.bind] at he
        cases he
  | case3 s hc hnil => exact absurd hnil h.ne_nil
  | case4 => exact compileLeaf_error hlt he
  | case5 | case6 =>
    cases he
    exact Fault.between (Nat.le_refl _) hlt
  | case7 s hc hne _ _ closing ho hlast hinner =>
    rename_i ih
    cases hb : compileStretch text s.inner.trim with
    | ok body =>
      simp only [hb, bind, Except.bind] at he
      cases he
    | error error' =>
      simp only [hb, bind, Except.bind] at he
      cases he
      obtain ⟨hproper, -, hstart, hstop⟩ :=
        h.contains (.of_ends hc hne ho (Decidable.not_not.1 hlast) hinner)
      exact (ih hproper hb hproper.start_lt).mono hstart hstop

def compileBy (part : Stretch → Except SyntaxError Rule) (text : Text) (s : Stretch) :
    Except SyntaxError Rule :=
  match s.cut? with
  | .error error => .error error
  | .ok (some cut) => do
    let left ← part (s.before cut).trim
    let right ← part (s.after cut).trim
    return join text cut left right
  | .ok none =>
    if h : s.chars = [] then .error (Fault.emptyExpression.atOffset s.start)
    else match closingOf? (s.chars.head h) with
      | none => compileLeaf text s (s.chars.head h) (s.chars.getLast h)
      | some closing =>
        if s.chars.getLast h ≠ closing then
          .error ((Fault.wrongClosing s.chars (s.chars.head h) closing).atOffset s.start)
        else if s.inner.trim.chars = [] then .error (Fault.emptyBrackets.atOffset s.start)
        else do
          let body ← part s.inner.trim
          return bracket text s (s.chars.head h) body

/-- Compiling a stretch goes on with no others than those that it contains. -/
theorem compileBy_eq {part : Stretch → Except SyntaxError Rule}
    (h : ∀ s', Stretch.Contains text s s' → part s' = compileStretch text s') :
    compileBy part text s = compileStretch text s := by
  fun_cases compileStretch text s with
  | case1 _ hc => rw [compileBy, hc]
  | case2 cut hc =>
    rw [compileBy, hc]
    dsimp only
    rw [h _ (.before hc)]
    cases hl : compileStretch text (s.before cut).trim with
    | error => rfl
    | ok left =>
      simp only [bind, Except.bind]
      rw [h _ (.after hc hl)]
  | case3 hc hnil => simp only [compileBy, hc, hnil, dif_pos]
  | case4 hc hne _ _ ho =>
    replace ho : closingOf? (s.chars.head hne) = none := ho
    simp only [compileBy, hc, dif_neg hne, ho]
    rfl
  | case5 hc hne _ _ closing ho hlast =>
    replace ho : closingOf? (s.chars.head hne) = some closing := ho
    simp only [compileBy, hc, dif_neg hne, ho]
    exact if_pos hlast
  | case6 hc hne _ _ closing ho hlast hinner =>
    replace ho : closingOf? (s.chars.head hne) = some closing := ho
    simp only [compileBy, hc, dif_neg hne, ho]
    rw [if_neg hlast, if_pos hinner]
  | case7 hc hne _ _ closing ho hlast hinner =>
    replace ho : closingOf? (s.chars.head hne) = some closing := ho
    simp only [compileBy, hc, dif_neg hne, ho]
    rw [if_neg hlast, if_neg hinner, h _ (.of_ends hc hne ho (Decidable.not_not.1 hlast) hinner)]

def Visits (text : Text) (s : Stretch) : Prop :=
  (Stretch.mk 0 text).trim.chars ≠ [] ∧
    ReflTransGen (Stretch.Contains text) (Stretch.mk 0 text).trim s

/-- Every stretch that is visited is a trimmed part of the text, and not empty. -/
theorem Visits.proper (h : Visits text s) : s.Proper text := by
  obtain ⟨hne, h⟩ := h
  induction h with
  | refl => exact ⟨Stretch.Within.trim ⟨[], [], by simp, rfl⟩, Stretch.trim_tight _, hne⟩
  | tail _ hs ih => exact (ih.contains hs).1

theorem compile_error (h : compile text = .error error) :
    error.Between 0 (max 1 text.length) := by
  rw [compile] at h
  split at h
  · cases h
    exact Fault.between (Nat.le_refl _) (by omega)
  · rename_i hne
    have hproper := Visits.proper ⟨hne, .refl⟩
    have hstop := hproper.within.stop_le
    exact (compileStretch_error hproper h).mono (Nat.zero_le _) (by omega)

/-- Compiling any text ends, with a rule or with a fault at an offset of the text, or at 0 if that
is empty. Every stretch that comes to be compiled lies in the text, is trimmed and not empty, and
has its cut inside; it goes on with no stretches but those that it contains, and these are shorter
parts of it. -/
theorem compile_total (text : Text) :
    ((∃ rule, compile text = .ok rule) ∨
      ∃ fault position, compile text = .error (Fault.atOffset fault position) ∧
        (text = [] → position = 0) ∧ (text ≠ [] → position < text.length)) ∧
    (WellFounded fun s' s => Stretch.Contains text s s') ∧
    ∀ s, Visits text s →
      s.start < s.stop ∧ s.stop ≤ text.length ∧ text.window s.start s.stop = s.chars ∧
      Tight s.chars ∧
      (∀ cut, s.cut? = .ok (some cut) → 0 < cut.offset ∧ cut.offset < s.chars.length) ∧
      (∀ part, (∀ s', Stretch.Contains text s s' → part s' = compileStretch text s') →
        compileBy part text s = compileStretch text s) ∧
      ∀ s', Stretch.Contains text s s' → Visits text s' ∧ s'.chars.length < s.chars.length ∧
        s.start ≤ s'.start ∧ s'.stop ≤ s.stop := by
  refine ⟨?_, Stretch.Contains.wellFounded text, fun s hs => ?_⟩
  · cases h : compile text with
    | ok rule => exact .inl ⟨rule, rfl⟩
    | error error =>
      obtain ⟨fault, position, rfl, -, hlt⟩ := compile_error h
      refine .inr ⟨fault, position, rfl, fun ht => ?_, fun ht => ?_⟩
      · rw [ht, List.length_nil] at hlt
        omega
      · have := List.length_pos_iff.2 ht
        omega
  · have hproper := hs.proper
    refine ⟨hproper.start_lt, hproper.within.stop_le, hproper.within.window, hproper.tight,
      fun cut hc => ⟨(Stretch.operands_ne_nil hproper.tight hc).1, Stretch.cut?_offset_lt hc⟩,
      fun _ => compileBy_eq, fun s' hs' => ?_⟩
    exact ⟨⟨hs.1, hs.2.tail hs'⟩, (hproper.contains hs').2⟩

end Rule
end OrderedBnf
