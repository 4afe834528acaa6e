import OrderedBnf.MetaGrammar
import OrderedBnf.Proofs.Compiling
import OrderedBnf.Proofs.Quoting
import OrderedBnf.Source.Basic

/-! A document line by line: the same blocks before and after it is normalized, and the number of
the line that an offset lies in. -/
namespace OrderedBnf

namespace Text
variable {p : Char → Bool} {line text before after : Text}

theorem trimRight_trimRight (p : Char → Bool) (text : Text) :
    trimRight p (trimRight p text) = trimRight p text := by
  fun_induction trimRight p text with
  | case1 => rfl
  | case2 => rfl
  | case3 c rest hr hp _ => simp [trimRight, hp]
  | case4 c rest _ ih =>
    rw [trimRight, ih]
    split
    · exact absurd ‹_› ‹_›
    · rfl

theorem trimLeft_trimRight (p : Char → Bool) (text : Text) :
    trimLeft p (trimRight p text) = trimRight p (trimLeft p text) := by
  fun_induction trimRight p text with
  | case1 => rfl
  | case2 c rest hr hp ih =>
    rw [trimLeft, trimLeft, List.dropWhile_cons_of_pos hp]
    exact hr ▸ ih
  | case3 c rest hr hp _ =>
    rw [trimLeft, trimLeft, List.dropWhile_cons_of_neg hp, List.dropWhile_cons_of_neg hp, trimRight, hr]
    exact (if_neg hp).symm
  | case4 c rest hne ih =>
    by_cases hp : p c
    · rw [trimLeft, trimLeft, List.dropWhile_cons_of_pos hp, List.dropWhile_cons_of_pos hp]
      exact ih
    · rw [trimLeft, trimLeft, List.dropWhile_cons_of_neg hp, List.dropWhile_cons_of_neg hp, trimRight]
      split
      · exact absurd ‹_› hne
      · rfl

theorem trim_trimRight (p : Char → Bool) (text : Text) : trim p (trimRight p text) = trim p text := by
  rw [trim, trimLeft_trimRight, trimRight_trimRight, trim]

theorem trim_eq_nil (h : ∀ c ∈ text, p c) : trim p text = [] := by
  rw [trim, trimLeft, List.dropWhile_eq_nil_iff.2 h]
  rfl

theorem trim_ne_nil {c : Char} {rest : Text} (h : trimLeft p text = c :: rest) :
    ∃ rest, trim p text = c :: rest := by
  have hc : ¬ p c := by
    have := List.head?_dropWhile_not p text
    rw [← trimLeft, h] at this
    simpa using this
  rw [trim, h, trimRight]
  split
  · exact ⟨[], if_neg hc⟩
  · exact ⟨_, rfl⟩

theorem trimRight_append_blanks (ha : Blanks after) (text : Text) :
    trimRight isBlank (text ++ after) = trimRight isBlank text := by
  induction text with
  | nil => exact trimRight_blanks ha
  | cons c text ih => rw [List.cons_append, trimRight, ih, trimRight]

/-- Blanks around a text are trimmed away. -/
theorem trim_padded (hb : Blanks before) (ha : Blanks after) (word : Text) :
    trim isBlank (before ++ word ++ after) = trim isBlank word := by
  calc trim isBlank (before ++ word ++ after)
      = trim isBlank (word ++ after) := by
        rw [trim, trimLeft, List.append_assoc, List.dropWhile_append_of_pos hb, trim, trimLeft]
    _ = trimLeft isBlank (trimRight isBlank (word ++ after)) := (trimLeft_trimRight ..).symm
    _ = trimLeft isBlank (trimRight isBlank word) := by rw [trimRight_append_blanks ha]
    _ = trim isBlank word := trimLeft_trimRight ..

def unlines (lines : List Text) : Text := lines.flatMap (· ++ ['\n'])

theorem unlines_cons (line : Text) (lines : List Text) :
    unlines (line :: lines) = line ++ '\n' :: unlines lines := by
  rw [unlines, List.flatMap_cons, List.append_assoc]
  rfl

/-- Lines that are put together are read back, unless one of them holds a line break. -/
theorem lines_unlines {lines : List Text} (h : ∀ line ∈ lines, ∀ c ∈ line, isLineBreak c = false) :
    (unlines lines).lines = lines := by
  induction lines with
  | nil => rfl
  | cons line lines ih =>
    rw [unlines_cons, lines_append_feed (h line List.mem_cons_self),
      ih fun line hl => h line (List.mem_cons_of_mem _ hl)]

theorem join_feed {lines : List Text} (h : lines ≠ []) :
    join ['\n'] lines ++ ['\n'] = unlines lines := by
  induction lines with
  | nil => exact absurd rfl h
  | cons line lines ih =>
    cases lines with
    | nil => simp [join, unlines]
    | cons next lines =>
      rw [join, List.append_assoc, ih (List.cons_ne_nil _ _), unlines_cons line]
      · simp
      · rintro ⟨⟩

/-- Joining two runs of lines joins each of them, and what is between. -/
theorem join_append {lines lines' : List Text} (h : lines ≠ []) (h' : lines' ≠ []) (between : Text) :
    join between (lines ++ lines') = join between lines ++ between ++ join between lines' := by
  induction lines with
  | nil => exact absurd rfl h
  | cons first lines ih =>
    cases lines with
    | nil =>
      obtain ⟨next, rest, rfl⟩ := List.exists_cons_of_ne_nil h'
      rfl
    | cons next lines =>
      have ih := ih (List.cons_ne_nil _ _)
      simp only [List.cons_append, join] at ih ⊢
      simp [ih]

theorem join_cons (between line : Text) (lines : List Text) :
    ∃ rest, join between (line :: lines) = line ++ rest := by
  cases lines with
  | nil => exact ⟨[], (List.append_nil line).symm⟩
  | cons next lines => exact ⟨_, List.append_assoc ..⟩

/-- A text that ends at a line break of another one holds whole lines of it. -/
theorem unlines_split {lines : List Text} {u v : Text} (h : unlines lines = u ++ '\n' :: v)
    (hl : ∀ line ∈ lines, '\n' ∉ line) : ∃ before after, lines = before ++ after ∧
      unlines before = u ++ ['\n'] ∧ unlines after = v := by
  induction lines generalizing u with
  | nil => simp [unlines] at h
  | cons line lines ih =>
    rw [unlines_cons] at h
    rcases append_eq_append_cons h with ⟨w, rfl, -⟩ | ⟨_ | ⟨c, w⟩, rfl, hrest⟩
    · exact absurd (by simp) (hl _ List.mem_cons_self)
    · exact ⟨[line], lines, rfl, by simp [unlines], (List.cons.inj hrest).2⟩
    · obtain ⟨rfl, hlines⟩ := List.cons.inj hrest
      obtain ⟨before, after, rfl, hb, ha⟩ := ih hlines fun l hm => hl l (List.mem_cons_of_mem _ hm)
      exact ⟨line :: before, after, rfl, by simp [unlines_cons, hb], ha⟩

/-- Line breaks at the start of a text are empty lines of it. -/
theorem unlines_breaks {lines : List Text} {n : Nat} {v : Text}
    (h : unlines lines = List.replicate n '\n' ++ v) (hl : ∀ line ∈ lines, '\n' ∉ line) :
    ∃ after, lines = List.replicate n [] ++ after ∧ unlines after = v := by
  induction n generalizing lines with
  | zero => exact ⟨lines, rfl, h⟩
  | succ n ih =>
    cases lines with
    | nil => simp [unlines, List.replicate_succ] at h
    | cons line lines =>
      rw [unlines_cons, List.replicate_succ] at h
      cases line with
      | nil =>
        obtain ⟨after, rfl, ha⟩ := ih (List.cons.inj h).2 fun l hm => hl l (List.mem_cons_of_mem _ hm)
        exact ⟨after, rfl, ha⟩
      | cons c line =>
        obtain ⟨rfl, -⟩ := List.cons.inj h
        exact absurd List.mem_cons_self (hl _ List.mem_cons_self)

/-- The first line goes on after what has no line break. -/
theorem unlines_first {lines : List Text} {line u v : Text} (h : unlines (line :: lines) = u ++ v)
    (hu : '\n' ∉ u) : ∃ rest, line = u ++ rest ∧ v = rest ++ '\n' :: unlines lines := by
  rw [unlines_cons] at h
  rcases append_eq_append_cons h.symm with ⟨w, rfl, -⟩ | ⟨w, rfl, hv⟩
  · exact absurd (by simp) hu
  · exact ⟨w, rfl, hv⟩

theorem count_unlines {lines : List Text} (h : ∀ line ∈ lines, '\n' ∉ line) :
    (unlines lines).count '\n' = lines.length := by
  induction lines with
  | nil => rfl
  | cons line lines ih =>
    rw [unlines_cons, List.count_append, List.count_eq_zero.2 (h line List.mem_cons_self),
      List.count_cons_self, ih fun l hl => h l (List.mem_cons_of_mem _ hl), List.length_cons,
      Nat.zero_add]

end Text

/-- A line as a normalized document has it: with no break in it, and blank if it says nothing. -/
structure Clean (line : Text) : Prop where
  unbroken : ∀ c ∈ line, isLineBreak c = false
  blank : significant? line = none → Blanks line

theorem Clean.no_feed {line : Text} (h : Clean line) : '\n' ∉ line :=
  fun hc => absurd (h.unbroken _ hc) (by decide)

theorem significant?_trim {line words : Text} (h : significant? line = some words) :
    line.trim isBlank = words := by
  rw [significant?] at h
  split at h
  · cases h
  · split at h
    · cases h
    · rw [‹line.trim isBlank = _›]
      exact Option.some.inj h

/-- The words of a line lie between the blanks at its ends. -/
theorem significant?_parts {line words : Text} (h : significant? line = some words) :
    ∃ before after, Blanks before ∧ Blanks after ∧ line = before ++ words ++ after := by
  obtain ⟨after, ha, hline⟩ := line.trim_parts isBlank
  exact ⟨_, after, fun c hc => List.mem_takeWhile_imp hc, ha, significant?_trim h ▸ hline⟩

/-- A comment says nothing. -/
theorem significant?_comment {line : Text} (h : (line.trimLeft isBlank).head? = some '#') :
    significant? line = none := by
  obtain ⟨rest, hleft⟩ := List.head?_eq_some_iff.1 h
  obtain ⟨rest, htrim⟩ := Text.trim_ne_nil hleft
  rw [significant?, htrim]
  rfl

namespace MetaGrammar

def cleanLine (line : Text) : Text :=
  if (line.trimLeft isBlank).head? = some '#' then [] else line.trimRight isBlank

def cleanLines (text : Text) : List Text :=
  if text.lines = [] then [[]] else text.lines.map cleanLine

/-- A normalized text is made up of its clean lines. -/
theorem normalize_eq (text : Text) : normalize text = Text.unlines (cleanLines text) := by
  change Text.join ['\n'] (text.lines.map cleanLine) ++ ['\n'] = _
  rw [cleanLines]
  split
  · rename_i h
    rw [h]
    rfl
  · rename_i h
    exact Text.join_feed (by simpa using h)

/-- Cleaning a line keeps what is significant in it. -/
theorem significant?_cleanLine (line : Text) :
    significant? (cleanLine line) = significant? line := by
  rw [cleanLine]
  split
  · exact (significant?_comment ‹_›).symm
  · rw [significant?, significant?, Text.trim_trimRight]

theorem clean_cleanLine {line : Text} (h : ∀ c ∈ line, isLineBreak c = false) :
    Clean (cleanLine line) := by
  constructor
  · rw [cleanLine]
    split
    · exact fun c hc => absurd hc List.not_mem_nil
    · obtain ⟨after, -, hline⟩ := Text.trimRight_append_rest isBlank line
      rw [hline] at h
      exact fun c hc => h c (List.mem_append_left _ hc)
  · intro hs
    rw [significant?_cleanLine] at hs
    rw [cleanLine]
    split
    · exact Blanks.nil
    · rename_i hhead
      obtain ⟨after, -, hline⟩ := Text.trimRight_append_rest isBlank line
      cases hleft : line.trimLeft isBlank with
      | nil =>
        have hall := List.dropWhile_eq_nil_iff.1 hleft
        rw [hline] at hall
        exact fun c hc => hall c (List.mem_append_left _ hc)
      | cons c rest =>
        obtain ⟨rest', htrim⟩ := Text.trim_ne_nil hleft
        rw [hleft] at hhead
        rw [significant?, htrim] at hs
        split at hs
        · cases ‹c :: rest' = []›
        · split at hs
          · obtain ⟨rfl, -⟩ := List.cons.inj ‹c :: rest' = _›
            exact absurd (congrArg some ‹c = '#'›) hhead
          · cases hs

/-- The lines that have been cleaned are clean. -/
theorem clean_cleanLines (text : Text) : ∀ line ∈ cleanLines text, Clean line := by
  rw [cleanLines]
  split
  · intro line hl
    rw [List.mem_singleton.1 hl]
    exact ⟨fun _ hc => absurd hc List.not_mem_nil, fun _ => Blanks.nil⟩
  · intro line hl
    obtain ⟨line, hm, rfl⟩ := List.mem_map.1 hl
    exact clean_cleanLine (text.lines_unbroken line hm)

end MetaGrammar

namespace Block

theorem collect_congr {lines lines' : List Text} (h : lines.map significant? = lines'.map significant?)
    {number line : Nat} {name : String} {body : List Text} :
    collect number name line body lines = collect number name line body lines' := by
  induction lines generalizing lines' number name line body with
  | nil =>
    rw [List.map_nil] at h
    rw [List.map_eq_nil_iff.1 h.symm]
  | cons next lines ih =>
    cases lines' with
    | nil => cases h
    | cons next' lines' =>
      rw [List.map_cons, List.map_cons, List.cons.injEq] at h
      simp only [collect, h.1, ih h.2]

theorem collectFrom_congr {lines lines' : List Text}
    (h : lines.map significant? = lines'.map significant?) {number : Nat} :
    collectFrom number lines = collectFrom number lines' := by
  induction lines generalizing lines' number with
  | nil =>
    rw [List.map_nil] at h
    rw [List.map_eq_nil_iff.1 h.symm]
  | cons next lines ih =>
    cases lines' with
    | nil => cases h
    | cons next' lines' =>
      rw [List.map_cons, List.map_cons, List.cons.injEq] at h
      simp only [collectFrom, h.1, ih h.2, collect_congr h.2]

/-- A document has the blocks of its normalized lines. -/
theorem ofDocument_cleanLines (text : Text) :
    ofDocument (MetaGrammar.cleanLines text) = ofDocument text.lines := by
  rw [MetaGrammar.cleanLines]
  split
  · rename_i h
    rw [h]
    rfl
  · refine collectFrom_congr ?_
    rw [List.map_map]
    exact List.map_congr_left fun line _ => MetaGrammar.significant?_cleanLine line

end Block

section Rows

/-- Without returns, the offsets just behind line breaks are as many as the feeds. -/
theorem BreakStyle.countP_ends {text : Text} (h : '\r' ∉ text) (i j : Nat) :
    (BreakStyle.any.ends i text).countP (· ≤ j) = (text.take (j - i)).count '\n' := by
  induction text generalizing i with
  | nil => simp [ends]
  | cons c rest ih =>
    have hc : c ≠ '\r' := fun hc => h (hc ▸ List.mem_cons_self)
    have ih := ih (fun hr => h (List.mem_cons_of_mem _ hr)) (i + 1)
    rw [ends]
    · by_cases hij : i < j
      · have hd : j - i = (j - (i + 1)) + 1 := by omega
        rw [hd, List.take_succ_cons, List.count_cons, ← ih]
        by_cases hfeed : c = '\n'
        · simp [breaksAt, hfeed, Nat.succ_le_of_lt hij]
        · simp [breaksAt, hfeed, hc]
      · rw [Nat.sub_eq_zero_of_le (Nat.le_of_not_lt hij), List.take_zero, List.count_nil]
        rw [Nat.sub_eq_zero_of_le (by omega), List.take_zero, List.count_nil] at ih
        split
        · rw [List.countP_cons, ih, if_neg (by rw [decide_eq_true_eq]; omega)]
        · exact ih
    · exact fun _ he => absurd he hc

/-- Without returns, the line of an offset is one more than the feeds before it. -/
theorem Source.position_line {text : Text} (h : '\r' ∉ text) (i : Nat) :
    (Source.position { content := text } i).line = ((text.take i).count '\n' + 1 : Nat) := by
  have hends := BreakStyle.countP_ends h 0 i
  simp only [position, rowOf, lineStarts, Int.ofNat_le, List.countP_cons, hends, Nat.sub_zero]
  simp

end Rows
end OrderedBnf
