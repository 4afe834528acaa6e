import Mathlib.Data.List.TakeWhile
import OrderedBnf.Proofs.Compiling

/-! What compiles is laid out as an expression is, with each literal as one opaque word. The search
counts brackets of all kinds alike, so the layout is read off from where the search stops: the left
side of a cut has no such cut itself, and what is not cut is a leaf or has brackets at its ends. -/
namespace OrderedBnf

theorem separates_append {rest : Text} (h : separates rest) (more : Text) :
    separates (rest ++ more) := by
  rw [separates] at *
  split at h
  · cases h
  · rename_i c tail hd
    rw [List.dropWhile_append, hd]
    simpa using h

theorem exists_of_separates {rest : Text} (h : separates rest) : ∃ c ∈ rest, isBlank c = false := by
  rw [separates] at h
  split at h
  · cases h
  · rename_i c tail hd
    have hc := List.head?_dropWhile_not isBlank rest
    rw [hd] at hc
    exact ⟨c, (List.dropWhile_sublist _).subset (hd ▸ List.mem_cons_self), by simpa using hc⟩

/-- What follows a character of its own does not change whether a blank before it separates. -/
theorem separates_append_of_exists {rest : Text} (h : ∃ c ∈ rest, isBlank c = false) (more : Text) :
    separates (rest ++ more) = separates rest := by
  obtain ⟨c, hc, hb⟩ := h
  have hd : rest.dropWhile isBlank ≠ [] := by
    intro hd
    have := (List.dropWhile_eq_nil_iff.1 hd) c hc
    simp [hb] at this
  obtain ⟨d, tail, hd⟩ := List.exists_cons_of_ne_nil hd
  rw [separates, separates, List.dropWhile_append, hd]
  rfl

/-- A bar is found wherever the search starts, whichever blank it keeps and whatever follows. -/
theorem cutFrom_choice_append {first i depth : Nat} {quote : Option Char} {blank : Option Nat}
    {chars : Text} {k : Nat}
    (h : cutFrom first i depth quote blank chars = .ok (some (.choice k))) (first' n : Nat)
    (blank' : Option Nat) (more : Text) :
    cutFrom first' (n + i) depth quote blank' (chars ++ more) = .ok (some (.choice (n + k))) := by
  fun_induction cutFrom first i depth quote blank chars generalizing blank' with
  | case3 => simp at h
  | _ => (try rw [List.cons_append, cutFrom.eq_def]); grind

/-- The first blank kept is the one cut at. -/
theorem cutFrom_kept {first i depth b k : Nat} {quote : Option Char} {chars : Text}
    (h : cutFrom first i depth quote (some b) chars = .ok (some (.sequence k))) : k = b := by
  generalize hb : some b = blank at h
  fun_induction cutFrom first i depth quote blank chars <;> grind

def CutAt (p : Char → Text → Prop) (k i : Nat) (chars : Text) : Prop :=
  ∃ u c v, chars = u ++ c :: v ∧ k = i + u.length ∧ p c v

theorem CutAt.cons {p : Char → Text → Prop} {k i : Nat} {chars : Text}
    (h : CutAt p k (i + 1) chars) (c : Char) : CutAt p k i (c :: chars) := by
  obtain ⟨u, d, v, rfl, rfl, h⟩ := h
  exact ⟨c :: u, d, v, rfl, by rw [List.length_cons]; omega, h⟩

/-- A bar that the search cuts at does not come first, and has more than blanks after it. -/
theorem cutFrom_choice {first i depth k : Nat} {quote : Option Char} {blank : Option Nat}
    {chars : Text} (h : cutFrom first i depth quote blank chars = .ok (some (.choice k))) :
    CutAt (fun c v => c = '|' ∧ k ≠ 0 ∧ ∃ d ∈ v, isBlank d = false) k i chars := by
  fun_induction cutFrom first i depth quote blank chars with
  | case3 => simp at h
  | case12 i blank rest hends =>
    cases h
    simp only [Bool.or_eq_true, decide_eq_true_eq, not_or, List.all_eq_true, not_forall,
      Bool.not_eq_true, exists_prop] at hends
    exact ⟨[], _, _, rfl, rfl, rfl, hends⟩
  | case5 =>
    -- a backslash goes with the character after it
    rename_i ih
    exact ((ih h).cons _).cons _
  | case6 | case7 | case8 | case10 | case13 | case14 | case15 =>
    rename_i ih
    exact (ih h).cons _
  | _ => cases h

/-- A blank that the search cuts at separates, and no bar is found after it. -/
theorem cutFrom_sequence {first i depth k : Nat} {quote : Option Char} {chars : Text}
    (h : cutFrom first i depth quote none chars = .ok (some (.sequence k))) :
    CutAt (fun c v => isBlank c ∧ separates v ∧
      cutFrom first (k + 1) 0 none (some k) v = .ok (some (.sequence k))) k i chars := by
  generalize hb : none = blank at h
  fun_induction cutFrom first i depth quote blank chars with
  | case3 => simp [← hb] at h
  | case13 i blank c rest _ _ _ _ hc ih =>
    obtain rfl := cutFrom_kept h
    simp only [Bool.and_eq_true] at hc
    exact ⟨[], c, rest, rfl, rfl, hc.1.1, hc.2, h⟩
  | case5 =>
    rename_i ih
    exact ((ih hb h).cons _).cons _
  | case6 | case7 | case8 | case10 | case14 | case15 =>
    rename_i ih
    exact (ih hb h).cons _
  | _ => cases h

/-- Where a text is cut at a blank, a longer one is not cut at another blank. -/
theorem cutFrom_sequence_append {first i depth k : Nat} {quote : Option Char} {chars : Text}
    (h : cutFrom first i depth quote none chars = .ok (some (.sequence k))) {first' k' : Nat}
    {more : Text}
    (h' : cutFrom first' i depth quote none (chars ++ more) = .ok (some (.sequence k'))) :
    k' = k := by
  generalize hb : none = blank at h h'
  fun_induction cutFrom first i depth quote blank chars with
  | case3 => simp [← hb] at h
  | case13 i blank c rest hq ho hc hbar hs ih =>
    simp only [Bool.and_eq_true] at hs
    have hs' := separates_append hs.2 more
    rw [List.cons_append, cutFrom.eq_def] at h'
    simp only [hq, ho, hc, hbar, hs, hs'] at h'
    exact (cutFrom_kept h').trans (cutFrom_kept h).symm
  | case14 i blank c rest hq ho hc hbar hs ih =>
    subst hb
    obtain ⟨u, b, v, rfl, -, -, hv, -⟩ := cutFrom_sequence h
    obtain ⟨d, hd, hdb⟩ := exists_of_separates hv
    have hd' : d ∈ u ++ b :: v := List.mem_append_right _ (List.mem_cons_of_mem _ hd)
    have hsep := separates_append_of_exists ⟨d, hd', hdb⟩ more
    rw [List.cons_append, cutFrom.eq_def] at h'
    simp only [hq, ho, hc, hbar, hsep, hs] at h'
    exact ih rfl h h'
  | case2 | case4 | case9 | case11 | case12 | case1 => cases h
  | _ =>
    rw [List.cons_append, cutFrom.eq_def] at h'
    simp_all

structure Tight (text : Text) : Prop where
  head : ∀ c rest, text = c :: rest → isBlank c = false
  last : ∀ rest c, text = rest ++ [c] → isBlank c = false

theorem Stretch.trim_tight (s : Stretch) : Tight s.trim.chars :=
  ⟨fun _ _ h => Text.trim_head h, fun _ _ h => Text.trim_last h⟩

theorem Tight.before_eq_nil {text before rest : Text} (h : Tight text) (hb : Blanks before)
    (he : text = before ++ rest) : before = [] := by
  cases before with
  | nil => rfl
  | cons c before =>
    have hc : isBlank c := hb c List.mem_cons_self
    rw [h.head c _ he] at hc
    cases hc

theorem Tight.after_eq_nil {text rest after : Text} (h : Tight text) (ha : Blanks after)
    (he : text = rest ++ after) : after = [] := by
  rcases List.eq_nil_or_concat' after with rfl | ⟨after, c, rfl⟩
  · rfl
  · have hc : isBlank c := ha c (by simp)
    rw [h.last _ c (he.trans (List.append_assoc _ _ _).symm)] at hc
    cases hc

/-- A stretch is its trimmed part between blanks. -/
theorem Stretch.trim_parts (s : Stretch) : ∃ before after, Blanks before ∧ Blanks after ∧
    s.chars = before ++ s.trim.chars ++ after ∧ s.trim.start = s.start + before.length := by
  obtain ⟨after, ha, he⟩ := Text.trim_parts isBlank s.chars
  exact ⟨_, after, fun c hc => List.mem_takeWhile_imp hc, ha, he, rfl⟩

namespace Stretch
variable {s : Stretch} {cut : Cut} {p : Char → Text → Prop}

theorem inner_chars {opening closing : Char} {inner : Text}
    (h : s.chars = opening :: (inner ++ [closing])) : s.inner.chars = inner := by
  rw [Stretch.inner, h, List.tail_cons, List.dropLast_concat]

theorem trim_within (s : Stretch) : s.start ≤ s.trim.start ∧ s.trim.stop ≤ s.stop := by
  obtain ⟨before, after, -, -, hs, hstart⟩ := s.trim_parts
  have hl := congrArg List.length hs
  simp only [List.length_append] at hl
  simp only [stop]
  omega

theorem before_length (s : Stretch) {cut : Cut} (hc : s.cut? = .ok (some cut)) :
    (s.before cut).chars.length = cut.offset :=
  List.length_take_of_le (Nat.le_of_lt (cut?_offset_lt hc))

theorem after_stop (s : Stretch) {cut : Cut} (hc : s.cut? = .ok (some cut)) :
    (s.after cut).stop = s.stop := by
  have := cut?_offset_lt hc
  simp only [stop, after, List.length_drop]
  omega

/-- A cut divides a stretch into what is before it, a sign, and what is after it. -/
theorem parts (cut : Cut) (h : CutAt p cut.offset 0 s.chars) : ∃ c, p c (s.after cut).chars ∧
    s.chars = (s.before cut).chars ++ c :: (s.after cut).chars := by
  obtain ⟨u, c, v, hs, hk, hp⟩ := h
  rw [Nat.zero_add] at hk
  have hbefore : (s.before cut).chars = u := by rw [before, hs, hk, List.take_left]
  have hafter : (s.after cut).chars = v := by
    rw [after, hs, hk, List.drop_append, List.drop_eq_nil_of_le (Nat.le_succ _),
      Nat.add_sub_cancel_left]
    rfl
  exact ⟨c, hafter ▸ hp, by rw [hbefore, hafter, hs]⟩

/-- The two sides of a cut, each trimmed, and what stands between them. -/
theorem sides (cut : Cut) (ht : Tight s.chars) (h : CutAt p cut.offset 0 s.chars) :
    ∃ c before after, Blanks before ∧ Blanks after ∧ p c (s.after cut).chars ∧
      (s.after cut).chars = after ++ (s.after cut).trim.chars ∧
      s.chars =
        (s.before cut).trim.chars ++ (before ++ c :: after) ++ (s.after cut).trim.chars := by
  obtain ⟨c, hp, hs⟩ := parts cut h
  obtain ⟨b₁, a₁, hb₁, ha₁, he₁, -⟩ := (s.before cut).trim_parts
  obtain ⟨b₂, a₂, hb₂, ha₂, he₂, -⟩ := (s.after cut).trim_parts
  have hs' : s.chars = b₁ ++ (s.before cut).trim.chars ++ a₁ ++
      c :: (b₂ ++ (s.after cut).trim.chars ++ a₂) := by rw [← he₁, ← he₂, ← hs]
  obtain rfl : b₁ = [] := ht.before_eq_nil hb₁ (by rw [hs', List.append_assoc, List.append_assoc])
  obtain rfl : a₂ = [] := ht.after_eq_nil ha₂ (by
    rw [hs', ← List.cons_append, ← List.append_assoc])
  refine ⟨c, a₁, b₂, ha₁, hb₂, hp, ?_, ?_⟩
  · rw [he₂, List.append_nil]
  · rw [hs']
    simp

/-- A bar that the left side of a cut is cut at, the whole would be cut at. -/
theorem before_not_choice {j : Nat} {more : Text} (hc : s.cut? = .ok (some cut))
    (hs : s.chars = (s.before cut).trim.chars ++ more) :
    (s.before cut).trim.cut? ≠ .ok (some (.choice j)) := by
  intro h
  have hlt := cut?_offset_lt h
  have hle := length_trim_le (s.before cut)
  have hj := cutFrom_choice_append h s.start 0 none more
  rw [← hs, Nat.zero_add, Nat.zero_add, ← cut?, hc] at hj
  cases hj
  simp only [before, Cut.offset, List.length_take] at *
  omega

theorem before_not_sequence {j k : Nat} {more : Text} (hc : s.cut? = .ok (some (.sequence k)))
    (hs : s.chars = (s.before (.sequence k)).trim.chars ++ more) :
    (s.before (.sequence k)).trim.cut? ≠ .ok (some (.sequence j)) := by
  intro h
  have hlt := cut?_offset_lt h
  have hle := length_trim_le (s.before (.sequence k))
  rw [cut?, hs] at hc
  cases cutFrom_sequence_append h hc
  simp only [before, Cut.offset, List.length_take] at *
  omega

theorem after_not_choice {j k : Nat} {after : Text} (ha : Blanks after)
    (hc : cutFrom s.start (k + 1) 0 none (some k) (s.after (.sequence k)).chars =
      .ok (some (.sequence k)))
    (hs : (s.after (.sequence k)).chars = after ++ (s.after (.sequence k)).trim.chars) :
    (s.after (.sequence k)).trim.cut? ≠ .ok (some (.choice j)) := by
  intro h
  obtain ⟨blank, hb, hscan⟩ := ha.scans 0 s.start (k + 1) (some k)
    (s.after (.sequence k)).trim.chars
  have hj := cutFrom_choice_append h s.start (k + 1 + after.length) blank []
  rw [List.append_nil, Nat.add_zero, ← hscan, ← hs, hc] at hj
  cases hj

end Stretch

def Cut.level : Option Cut → Level
  | none => .operand
  | some (.sequence _) => .sequence
  | some (.choice _) => .choice

def Level.rank : Level → Nat
  | operand => 0
  | sequence => 1
  | choice => 2

theorem Level.rank_le_choice (level : Level) : level.rank ≤ Level.choice.rank := by
  cases level <;> decide

theorem Operator.level_cut (operator : Operator) (offset : Nat) :
    Cut.level (some (operator.cut offset)) = operator.level := by
  cases operator <;> rfl

/-- What stands on either side of a cut binds tightly enough for an operand there. -/
theorem Stretch.operands {s : Stretch} {cut : Cut} (ht : Tight s.chars)
    (hc : s.cut? = .ok (some cut)) : ∃ (operator : Operator) (offset : Nat) (gap : Text),
      cut = operator.cut offset ∧ operator.Between gap ∧
      s.chars = (s.before cut).trim.chars ++ gap ++ (s.after cut).trim.chars ∧
      (∀ c, (s.before cut).trim.cut? = .ok c → (Cut.level c).rank ≤ operator.tighter.rank) ∧
      ∀ c, (s.after cut).trim.cut? = .ok c → (Cut.level c).rank ≤ operator.level.rank := by
  cases cut with
  | choice k =>
    obtain ⟨_, before, after, hb, ha, ⟨rfl, -⟩, -, hs⟩ := sides (.choice k) ht (cutFrom_choice hc)
    refine ⟨.choice, k, _, rfl, .bar hb ha, hs, fun c hcl => ?_, fun c _ => Level.rank_le_choice _⟩
    rcases c with _ | j | j
    · exact Nat.zero_le _
    · exact absurd hcl (before_not_choice hc (hs.trans (List.append_assoc ..)))
    · exact Nat.le_refl 1
  | sequence k =>
    obtain ⟨c, before, after, hb, ha, ⟨hc', -, hkept⟩, he, hs⟩ := sides (.sequence k) ht
      (cutFrom_sequence hc)
    have hblanks : Blanks (before ++ c :: after) :=
      List.forall_mem_append.2 ⟨hb, List.forall_mem_cons.2 ⟨hc', ha⟩⟩
    refine ⟨.sequence, k, _, rfl, .blanks (by simp) hblanks, hs, fun c hcl => ?_, fun c hcr => ?_⟩
    · rcases c with _ | j | j
      · exact Nat.le_refl 0
      · exact absurd hcl (before_not_choice hc (hs.trans (List.append_assoc ..)))
      · exact absurd hcl (before_not_sequence hc (hs.trans (List.append_assoc ..)))
    · rcases c with _ | j | j
      · exact Nat.zero_le _
      · exact absurd hcr (after_not_choice ha hkept he)
      · exact Nat.le_refl 1

section Levels
variable {terminal : Leaf → Text → Prop} {e : Expression} {text : Text}

/-- What binds tightly may stand where something may bind more loosely. -/
theorem Laid.loosen {level level' : Level} (h : Laid terminal level [e] text)
    (hle : level.rank ≤ level'.rank) : Laid terminal level' [e] text := by
  have hsequence (h : Laid terminal .operand [e] text) : Laid terminal .sequence [e] text :=
    @Laid.alone _ .sequence _ _ h
  have hchoice (h : Laid terminal .sequence [e] text) : Laid terminal .choice [e] text :=
    @Laid.alone _ .choice _ _ h
  cases level <;> cases level' <;> first | exact h | exact absurd hle (by decide) | skip
  · exact hsequence h
  · exact hchoice (hsequence h)
  · exact hchoice h

theorem Laid.as_choice {level : Level} (h : Laid terminal level [e] text) :
    Laid terminal .choice [e] text := h.loosen level.rank_le_choice

/-- Two operands on either side of what may stand between them. -/
theorem Laid.joined {operator : Operator} {l r : Expression} {u between v : Text}
    (hl : Laid terminal operator.tighter [l] u) (hb : operator.Between between)
    (hr : Laid terminal operator.level [r] v) :
    Laid terminal operator.level [.several operator [l, r]] (u ++ between ++ v) :=
  .several (Nat.le_refl 2) (.cons hl hb hr)

end Levels

theorem exists_encloses {opening closing : Char} (h : closingOf? opening = some closing)
    (e : Expression) : ∃ e', Encloses opening closing e e' := by
  rw [closingOf?] at h
  split at h
  · cases h
    subst opening
    exact ⟨e, .group⟩
  · split at h
    · cases h
      subst opening
      exact ⟨_, .optional⟩
    · split at h
      · cases h
        subst opening
        exact ⟨_, .repetition⟩
      · cases h

theorem Rule.join_spliced (text : Text) (operator : Operator) (offset : Nat) {left right : Rule}
    {l r : Expression} (hl : left.expression = l.spliced) (hr : right.expression = r.spliced) :
    (Rule.join text (operator.cut offset) left right).expression =
      (Expression.several operator [l, r]).spliced := by
  rw [join_expression, hl, hr]
  rfl

/-- A stretch that compiles is laid out, with opaque tokens at its leaves. -/
theorem Rule.Compiled.laid {text : Text} {s : Stretch} {rule : Rule}
    (h : Rule.Compiled text s rule) : Tight s.chars → s.Within text →
    ∃ cut, s.cut? = .ok cut ∧
      ∃ e, Laid Opaque (Cut.level cut) [e] s.chars ∧ rule.expression = e.spliced := by
  induction h with
  | @leaf s form hc hword =>
    intro _ hw
    refine ⟨none, hc, .leaf form s.chars, .leaf hword, ?_⟩
    exact congrArg _ hw.window
  | @bracket s opening closing inner body hc hs ho _ _ ih =>
    intro _ hw
    obtain ⟨cut, -, e, hlaid, he⟩ := ih s.inner.trim_tight (hw.inner hs).trim
    obtain ⟨before, after, hb, ha, hinner, -⟩ := s.inner.trim_parts
    obtain ⟨e', henc⟩ := exists_encloses ho e
    refine ⟨none, hc, e', ?_, bracket_expression henc s he⟩
    rw [hs, show inner = s.inner.chars by rw [Stretch.inner, hs]; simp, hinner]
    exact .enclosed henc hb hlaid.as_choice ha
  | @cut s cut left right hc hl hr ihl ihr =>
    intro ht hw
    obtain ⟨cutl, hcl, l, hlaidl, hel⟩ := ihl (s.before cut).trim_tight (hw.before cut).trim
    obtain ⟨cutr, hcr, r, hlaidr, her⟩ := ihr (s.after cut).trim_tight
      (hw.after (Stretch.cut?_offset_lt hc)).trim
    obtain ⟨operator, offset, gap, rfl, hb, hs, hleft, hright⟩ := Stretch.operands ht hc
    refine ⟨_, hc, .several operator [l, r], ?_, Rule.join_spliced text operator offset hel her⟩
    rw [operator.level_cut, hs]
    exact (hlaidl.loosen (hleft _ hcl)).joined hb (hlaidr.loosen (hright _ hcr))

/-- What compiles is a layout of an expression, with blanks at both ends. -/
theorem Rule.laid_of_compile {text : Text} {rule : Rule} (h : Rule.compile text = .ok rule) :
    ∃ before laid after e, text = before ++ laid ++ after ∧ Blanks before ∧ Blanks after ∧
      Laid Opaque .choice [e] laid ∧ rule.expression = e.spliced := by
  obtain ⟨-, hcompiled⟩ := compile_ok h
  have hwithin : (Stretch.mk 0 text).Within text := ⟨[], [], by simp, rfl⟩
  obtain ⟨before, after, hb, ha, htext, -⟩ := (Stretch.mk 0 text).trim_parts
  obtain ⟨cut, -, e, hlaid, he⟩ := hcompiled.laid (Stretch.trim_tight _) hwithin.trim
  exact ⟨before, _, after, e, htext, hb, ha, hlaid.as_choice, he⟩

end OrderedBnf
