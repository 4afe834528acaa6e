import OrderedBnf.Proofs.Gaps

/-! Blanks and comments one after the other are what the scan for the next significant character
skips, and it skips all of them. -/
namespace OrderedBnf.Comment

/-- A blank, a block comment with the first `*/` behind its opening, or a line comment with its
feed. -/
inductive Filler : Text → Prop
  | blank {c} : isBlank c → Filler [c]
  | block {body} : ¬ ['*', '/'] <:+: body ++ ['*'] → Filler ('/' :: '*' :: (body ++ ['*', '/']))
  | line {body} : '\n' ∉ body → Filler ('/' :: '/' :: (body ++ ['\n']))

def Filled (text : Text) : Prop :=
  ∃ fillers : List Text, (∀ filler ∈ fillers, Filler filler) ∧ text = fillers.flatten

def Endless (text : Text) : Prop := ∃ body, '\n' ∉ body ∧ text = '/' :: '/' :: body

structure Bare (text : Text) : Prop where
  blank : text.head?.any isBlank = false
  block : ¬ ['/', '*'] <+: text
  line : ¬ ['/', '/'] <+: text

section Texts
variable {text filler rest body : Text}

theorem filled_nil : Filled [] := ⟨[], fun _ h => absurd h List.not_mem_nil, rfl⟩

theorem Filled.cons (hf : Filler filler) (h : Filled rest) : Filled (filler ++ rest) := by
  obtain ⟨fillers, hfillers, rfl⟩ := h
  exact ⟨filler :: fillers, List.forall_mem_cons.2 ⟨hf, hfillers⟩, rfl⟩

theorem bare_nil : Bare [] := ⟨rfl, by simp, by simp⟩

theorem Bare.sharp (h : Bare text) (hne : text ≠ []) : Sharp text := by
  obtain ⟨c, rest, rfl⟩ := List.exists_cons_of_ne_nil hne
  refine ⟨h.blank, ?_⟩
  rintro rfl
  have opens {d : Char} (hd : rest.head? = some d) : ['/', d] <+: '/' :: rest := by
    obtain ⟨rest, rfl⟩ := List.head?_eq_some_iff.1 hd
    exact List.prefix_append ['/', d] rest
  exact ⟨fun hd => h.block (opens hd), fun hd => h.line (opens hd)⟩

/-- What closes a comment closes it where it first occurs. -/
theorem exists_first_close (h : ['*', '/'] <:+: text) :
    ∃ body rest, text = body ++ '*' :: '/' :: rest ∧ ¬ ['*', '/'] <:+: body ++ ['*'] := by
  induction text with
  | nil => simp at h
  | cons c text ih =>
    by_cases hc : ['*', '/'] <+: c :: text
    · obtain ⟨rest, hrest⟩ := hc
      exact ⟨[], rest, hrest.symm, fun hi => absurd hi.length_le (by decide)⟩
    · obtain ⟨body, rest, rfl, hbody⟩ := ih ((List.infix_cons_iff.1 h).resolve_left hc)
      refine ⟨c :: body, rest, rfl, fun hi => ?_⟩
      rcases List.infix_cons_iff.1 hi with hp | hi
      · refine hc (hp.trans ⟨'/' :: rest, ?_⟩)
        rw [List.cons_append]
        exact congrArg (c :: ·) (List.append_assoc body ['*'] _)
      · exact hbody hi

/-- A text starts with a filler, or with nothing to skip, or with a comment that goes on to its
end. -/
theorem filler_or_rest (text : Text) : (∃ filler rest, Filler filler ∧ text = filler ++ rest) ∨
    Bare text ∨ Endless text ∨ Unclosed text := by
  by_cases hblank : text.head?.any isBlank
  · left
    cases text with
    | nil => cases hblank
    | cons c rest => exact ⟨[c], rest, .blank hblank, rfl⟩
  · by_cases hblock : ['/', '*'] <+: text
    · obtain ⟨after, rfl⟩ := hblock
      by_cases hclose : ['*', '/'] <:+: after
      · obtain ⟨body, rest, rfl, hbody⟩ := exists_first_close hclose
        exact .inl ⟨_, rest, .block hbody, by simp⟩
      · exact .inr (.inr (.inr ⟨after, rfl, hclose⟩))
    · by_cases hline : ['/', '/'] <+: text
      · obtain ⟨after, rfl⟩ := hline
        by_cases hfeed : '\n' ∈ after
        · obtain ⟨body, rest, rfl, hbody⟩ := List.eq_append_cons_of_mem hfeed
          exact .inl ⟨_, rest, .line hbody, by simp⟩
        · exact .inr (.inr (.inl ⟨after, hfeed, rfl⟩))
      · exact .inr (.inl ⟨Bool.eq_false_iff.2 hblank, hblock, hline⟩)

theorem Filler.ne_nil (h : Filler filler) : filler ≠ [] := by
  cases h <;> exact List.cons_ne_nil _ _

/-- All fillers in front of a text, and what comes behind them. -/
theorem exists_fillers (text : Text) : ∃ front rest, Filled front ∧ text = front ++ rest ∧
    (Bare rest ∨ Endless rest ∨ Unclosed rest) := by
  rcases filler_or_rest text with ⟨filler, rest, hf, rfl⟩ | hrest
  · have hlt : rest.length < (filler ++ rest).length := by
      have := List.length_pos_iff.2 hf.ne_nil
      rw [List.length_append]
      omega
    obtain ⟨front, rest', hfront, rfl, hrest⟩ := exists_fillers rest
    exact ⟨filler ++ front, rest', hfront.cons hf, (List.append_assoc ..).symm, hrest⟩
  · exact ⟨[], text, filled_nil, rfl, hrest⟩
termination_by text.length

theorem gap_block (h : ¬ ['*', '/'] <:+: body ++ ['*']) (hrest : Gap .nothing rest) :
    Gap .block (body ++ '*' :: '/' :: rest) := by
  induction body with
  | nil => exact .closeBlock hrest
  | cons c body ih =>
    refine .inBlock ?_ (ih fun hi => h (List.infix_cons hi))
    rintro rfl hslash
    cases body with
    | nil => cases hslash
    | cons d body =>
      cases hslash
      exact h ⟨[], body ++ ['*'], rfl⟩

theorem gap_line (h : '\n' ∉ body) (hrest : Gap .nothing rest) :
    Gap .line (body ++ '\n' :: rest) := by
  induction body with
  | nil => exact .feed hrest
  | cons c body ih =>
    obtain ⟨hc, hbody⟩ := List.ne_and_not_mem_of_not_mem_cons h
    exact .inLine hc.symm (ih hbody)

/-- A filler in front of a gap makes up a gap. -/
theorem Filler.gap (h : Filler filler) (hrest : Gap .nothing rest) :
    Gap .nothing (filler ++ rest) := by
  cases h with
  | blank hc => exact .blank hc hrest
  | block hbody => simpa using Gap.openBlock (gap_block hbody hrest)
  | line hbody => simpa using Gap.openLine (gap_line hbody hrest)

/-- Fillers alone are a gap. -/
theorem Filled.gap (h : Filled text) : Gap .nothing text := by
  obtain ⟨fillers, hfillers, rfl⟩ := h
  induction fillers with
  | nil => exact .nil
  | cons filler fillers ih =>
    obtain ⟨hf, hfillers⟩ := List.forall_mem_cons.1 hfillers
    exact hf.gap (ih hfillers)

end Texts

section Scans
variable {text front rest : Text} {start stop i : Nat}

theorem skipFrom_bare (h : Bare text) (hi : i + text.length = stop) :
    skipFrom stop i .nothing text = .ok i := by
  by_cases hne : text = []
  · subst hne
    exact if_neg (Nat.not_lt.2 (Nat.le_of_eq hi.symm))
  · exact skipFrom_sharp (h.sharp hne)

theorem skipFrom_endless (h : Endless text) : skipFrom stop i .nothing text = .ok stop := by
  obtain ⟨body, hbody, rfl⟩ := h
  rw [skipFrom_openLine]
  generalize i + 2 = j
  induction body generalizing j with
  | nil => rfl
  | cons c body ih =>
    obtain ⟨hc, hbody⟩ := List.ne_and_not_mem_of_not_mem_cons hbody
    rw [skipFrom_inLine hc.symm, ih hbody]

theorem skip_filled (hw : text.window start stop = front ++ rest) (hf : Filled front) :
    skip text start stop = skipFrom stop (start + front.length) .nothing rest := by
  rw [skip, hw, skipFrom_append hf.gap rest rfl]

end Scans

/-- The skipping passes over blanks and comments, one after the other, and stops where neither comes
next: at a significant character or at the end of the range, which may also end a line comment. What
it cannot pass over is a block comment that nothing in the range closes. It looks at nothing but the
range, and from where it stops it goes no further. -/
theorem skip_fillers {text : Text} {start stop : Nat} (hs : start ≤ stop)
    (ht : stop ≤ text.length) :
    ((∃ p, skip text start stop = .ok p ∧ start ≤ p ∧ p ≤ stop ∧
        (Filled (text.window start p) ∨ p = stop ∧ ∃ front comment, Filled front ∧ Endless comment ∧
          text.window start p = front ++ comment) ∧
        Bare (text.window p stop) ∧ skip text p stop = .ok p) ∨
      ∃ q, skip text start stop = .error (.lexical (unclosed q)) ∧ start ≤ q ∧ q + 2 ≤ stop ∧
        Filled (text.window start q) ∧ text.window q (q + 2) = ['/', '*'] ∧
        ¬ ['*', '/'] <:+: text.window (q + 2) stop) ∧
    ∀ text' : Text, text'.window start stop = text.window start stop →
      skip text' start stop = skip text start stop := by
  refine ⟨?_, fun text' hw => congrArg (skipFrom stop start .nothing) hw⟩
  obtain ⟨front, rest, hfront, hw, hrest⟩ := exists_fillers (text.window start stop)
  obtain ⟨p, hp, hstop, hbefore, hafter⟩ := text.window_parts hs ht hw
  have hskip := skip_filled hw hfront
  rw [hp] at hskip
  rcases hrest with hbare | hendless | ⟨inside, rfl, hopen⟩
  · have hstay := skipFrom_bare hbare hstop
    refine .inl ⟨p, hskip.trans hstay, by omega, by omega, .inl (hbefore ▸ hfront),
      hafter ▸ hbare, ?_⟩
    rw [skip, hafter, hstay]
  · have hnothing := text.window_self stop
    refine .inl ⟨stop, hskip.trans (skipFrom_endless hendless), hs, Nat.le_refl _,
      .inr ⟨rfl, front, rest, hfront, hendless, hw⟩, hnothing ▸ bare_nil, ?_⟩
    rw [skip, hnothing]
    exact skipFrom_bare bare_nil rfl
  · rw [List.length_cons, List.length_cons] at hstop
    obtain ⟨_, rfl, -, hopening, hinside⟩ :=
      @Text.window_parts text p stop ['/', '*'] inside (by omega) ht hafter
    refine .inr ⟨p, ?_, by omega, by omega, hbefore ▸ hfront, hopening, hinside ▸ hopen⟩
    rw [hskip, skipFrom_openBlock, skipFrom_unclosed hopen]

def noted : Text := "x /*/ */ // y\nz /*/".toList

/-- What is skipped before the word, and the opening that is not passed over behind it. -/
theorem noted_fillers : 1 ≤ 19 ∧ 15 ≤ 19 ∧ 19 ≤ noted.length ∧
    skip noted 1 19 = .ok 14 ∧ Filled (noted.window 1 14) ∧ Bare (noted.window 14 19) ∧
    skip noted 15 19 = .error (.lexical (unclosed 16)) ∧ Filled (noted.window 15 16) := by
  have hword : skip noted 1 19 = .ok 14 := rfl
  have hopen : skip noted 15 19 = .error (.lexical (unclosed 16)) := rfl
  obtain ⟨hfilled, hbare⟩ : Filled (noted.window 1 14) ∧ Bare (noted.window 14 19) := by
    obtain ⟨p, hp, -, -, hfilled | ⟨rfl, -⟩, hbare, -⟩ | ⟨q, hq, -⟩ :=
      (@skip_fillers noted 1 19 (by decide) (by decide)).1
    · cases hword.symm.trans hp
      exact ⟨hfilled, hbare⟩
    · cases hword.symm.trans hp
    · cases hword.symm.trans hq
  have hbehind : Filled (noted.window 15 16) := by
    obtain ⟨p, hp, -⟩ | ⟨q, hq, -, -, hfilled, -⟩ :=
      (@skip_fillers noted 15 19 (by decide) (by decide)).1
    · cases hopen.symm.trans hp
    · cases hopen.symm.trans hq
      exact hfilled
  exact ⟨by decide, by decide, by decide, hword, hfilled, hbare, hopen, hbehind⟩

end OrderedBnf.Comment
