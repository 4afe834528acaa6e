import Mathlib.Data.List.Basic
import OrderedBnf.Proofs.Positions

/-! The lines of a source are its text, cut behind each line break. Looking an offset up leads to
the line that holds its character, and to the place of the character in that line. -/
namespace OrderedBnf

namespace BreakStyle

def breaks : BreakStyle → List Text
  | any => [['\r', '\n'], ['\r'], ['\n']]
  | feed => [['\n']]
  | carriageReturn => [['\r']]
  | returnFeed => [['\r', '\n']]

def Unbroken (style : BreakStyle) (text : Text) : Prop := ∀ b ∈ style.breaks, ¬ b <:+: text

def Ended (style : BreakStyle) (line : Text) : Prop :=
  ∃ words, ∃ b ∈ style.breaks, line = words ++ b ∧ style.Unbroken words

/-- A return at the end of a line and a feed at the start of the next, where the two together are
one break. -/
def Splits (style : BreakStyle) (line next : Text) : Prop :=
  ['\r', '\n'] ∈ style.breaks ∧ line.getLast? = some '\r' ∧ next.head? = some '\n'

/-- Lines that a text is cut into: all but the last end with a break, and no pair is split. -/
inductive Cut (style : BreakStyle) : List Text → Prop
  | last {line} : style.Unbroken line → Cut style [line]
  | next {line next rest} : style.Ended line → ¬ style.Splits line next →
      Cut style (next :: rest) → Cut style (line :: next :: rest)

variable {style : BreakStyle} {c : Char} {line : Text} {lines : List Text}

theorem ne_nil_of_mem_breaks {b : Text} (h : b ∈ style.breaks) : b ≠ [] := by
  rintro rfl
  cases style <;> simp [breaks] at h

theorem Ended.ne_nil (h : style.Ended line) : line ≠ [] := by
  obtain ⟨words, b, hb, rfl, -⟩ := h
  exact List.append_ne_nil_of_right_ne_nil _ (ne_nil_of_mem_breaks hb)

theorem unbroken_nil : style.Unbroken [] :=
  fun _ hb h => ne_nil_of_mem_breaks hb (List.infix_nil.1 h)

theorem Unbroken.cons {text : Text} (h : style.Unbroken text)
    (hc : ∀ b ∈ style.breaks, ¬ b <+: c :: text) : style.Unbroken (c :: text) :=
  fun b hb hi => (List.infix_cons_iff.1 hi).elim (hc b hb) (h b hb)

theorem ended_break {b : Text} (hb : b ∈ style.breaks) : style.Ended b :=
  ⟨[], b, hb, rfl, unbroken_nil⟩

/-- Nothing but an empty last line leaves nothing of a text. -/
theorem Cut.head? {rest : List Text} (h : style.Cut (line :: rest)) :
    (line :: rest).flatten.head? = line.head? := by
  cases h with
  | last _ => rw [List.flatten_singleton]
  | next hline _ _ =>
    rw [List.flatten_cons, List.head?_append, Option.or_of_isSome (by simpa using hline.ne_nil)]

/-- A character that starts no break goes to the line before which it stands. -/
theorem Cut.cons {rest : List Text} (h : style.Cut (line :: rest))
    (hc : ∀ b ∈ style.breaks, ¬ b <+: c :: (line :: rest).flatten) :
    style.Cut ((c :: line) :: rest) := by
  cases h with
  | last hline =>
    rw [List.flatten_singleton] at hc
    exact .last (hline.cons hc)
  | next hline hs hrest =>
    refine .next ?_ (fun hsplits => hs ⟨hsplits.1, ?_, hsplits.2.2⟩) hrest
    · obtain ⟨words, b, hb, rfl, hwords⟩ := hline
      refine ⟨c :: words, b, hb, rfl, hwords.cons fun b' hb' hp => hc b' hb' (hp.trans ?_)⟩
      rw [List.flatten_cons, List.append_assoc]
      exact List.prefix_append (c :: words) _
    · rw [← hsplits.2.1, List.getLast?_cons_of_ne_nil hline.ne_nil]

/-- A text that is cut into nothing but an empty line. -/
theorem Cut.eq_nil_of_flatten {rest : List Text} (h : style.Cut (line :: rest))
    (he : (line :: rest).flatten = []) : line = [] ∧ rest = [] := by
  cases h with
  | last _ => exact ⟨by rwa [List.flatten_singleton] at he, rfl⟩
  | next hline _ _ => exact absurd (List.append_eq_nil_iff.1 he).1 hline.ne_nil

/-- A break in two parts is a return and a feed. -/
theorem eq_of_append_mem_breaks {c d : Char} {front back : Text}
    (h : (front ++ [c]) ++ d :: back ∈ style.breaks) :
    front = [] ∧ c = '\r' ∧ d = '\n' ∧ back = [] ∧ ['\r', '\n'] ∈ style.breaks := by
  rcases front with _ | ⟨e, _ | ⟨e', front⟩⟩ <;> cases style <;> simp_all [breaks]

/-- Behind a break at the end of the text there is an empty line. -/
theorem Cut.getLast? (h : style.Cut lines) {b : Text} (hb : b ∈ style.breaks)
    (hs : b <:+ lines.flatten) : lines.getLast? = some [] := by
  induction h with
  | last hline =>
    rw [List.flatten_singleton] at hs
    exact absurd hs.isInfix (hline b hb)
  | @next line next rest hline hsplits hrest ih =>
    rw [List.getLast?_cons_cons]
    rw [List.flatten_cons] at hs
    rcases List.suffix_or_suffix_of_suffix hs (List.suffix_append _ _) with hle | ⟨front, rfl⟩
    · exact ih hle
    · -- the break begins in this line: it is all that follows, or a pair that was split
      cases hleft : (next :: rest).flatten with
      | nil =>
        obtain ⟨rfl, rfl⟩ := hrest.eq_nil_of_flatten hleft
        rfl
      | cons d back =>
        rcases List.eq_nil_or_concat' front with rfl | ⟨front, c, rfl⟩
        · exact ih (List.suffix_refl _)
        · rw [hleft] at hb hs
          obtain ⟨rfl, rfl, rfl, rfl, hpair⟩ := eq_of_append_mem_breaks hb
          have hlast : ['\r'] <:+ line := by
            obtain ⟨before, hbefore⟩ := hs
            exact ⟨before, List.append_cancel_right (by simpa using hbefore)⟩
          refine absurd ⟨hpair, ?_, ?_⟩ hsplits
          · obtain ⟨before, rfl⟩ := hlast
            exact List.getLast?_concat
          · rw [← hrest.head?, hleft]
            rfl

theorem mem_breaks_of_breaksAt (h : style.breaksAt c) : [c] ∈ style.breaks := by
  cases style <;> simp_all [breaksAt, breaks, or_comm]

theorem ended_pair (h : style ≠ .carriageReturn) : style.Ended ['\r', '\n'] := by
  by_cases hb : ['\r', '\n'] ∈ style.breaks
  · exact ended_break hb
  · refine ⟨['\r'], ['\n'], ?_, rfl, unbroken_nil.cons ?_⟩ <;> cases style <;> simp_all [breaks]

/-- A break starts with a character that is one by itself, or is a pair and nothing less is one. -/
theorem exists_of_mem_breaks {b : Text} (hb : b ∈ style.breaks) :
    ∃ d rest, b = d :: rest ∧
      (style.breaksAt d ∨ style ≠ .carriageReturn ∧ d = '\r' ∧ rest = ['\n']) := by
  cases style <;> simp only [breaks, List.mem_cons, List.not_mem_nil, or_false] at hb
  · rcases hb with rfl | rfl | rfl <;> exact ⟨_, _, rfl, .inl rfl⟩
  · exact ⟨_, _, hb, .inl rfl⟩
  · exact ⟨_, _, hb, .inl rfl⟩
  · exact ⟨_, _, hb, .inr ⟨by decide, rfl, rfl⟩⟩

theorem not_prefix_of_breaks {text : Text} (hc : ¬ style.breaksAt c)
    (hpair : ∀ rest, c = '\r' → text = '\n' :: rest → style = .carriageReturn) :
    ∀ b ∈ style.breaks, ¬ b <+: c :: text := by
  rintro b hb ⟨after, hp⟩
  obtain ⟨d, rest, rfl, hd | ⟨hstyle, rfl, rfl⟩⟩ := exists_of_mem_breaks hb
  · obtain ⟨rfl, -⟩ := List.cons.inj hp
    exact hc hd
  · obtain ⟨rfl, htext⟩ := List.cons.inj hp
    exact hstyle (hpair after rfl htext.symm)

/-- A text is cut into lines, and its line table has an entry where each of them ends. -/
theorem exists_cut (style : BreakStyle) (i : Nat) (text : Text) : ∃ line rest,
    style.Cut (line :: rest) ∧ (line :: rest).flatten = text ∧
      style.ends i text ++ [i + text.length] =
        (rest.map List.length).scanl (· + ·) (i + line.length) := by
  have hlength (i : Nat) (c : Char) (text : Text) :
      i + (c :: text).length = i + 1 + text.length := by
    rw [List.length_cons]
    omega
  fun_induction ends style i text with
  | case1 i => exact ⟨[], [], .last unbroken_nil, rfl, rfl⟩
  | case2 i text ih =>
    obtain ⟨line, rest, hcut, rfl, hends⟩ := ih
    by_cases hstyle : style = .carriageReturn
    · -- the break is the return alone, and the feed goes to the line below
      subst hstyle
      have hreturn : Ended .carriageReturn ['\r'] := ended_break List.mem_cons_self
      refine ⟨['\r'], ('\n' :: line) :: rest, .next hreturn ?_ (hcut.cons ?_), rfl, ?_⟩
      · simp [Splits, breaks]
      · simp [breaks]
      · rw [if_pos rfl, hlength, hlength, List.length_singleton, List.map_cons, List.scanl_cons,
          hlength]
        exact congrArg (_ :: ·) hends
    · refine ⟨['\r', '\n'], line :: rest, .next (ended_pair hstyle) ?_ hcut, rfl, ?_⟩
      · simp [Splits]
      · rw [if_neg hstyle, hlength, hlength, List.map_cons, List.scanl_cons]
        exact congrArg (_ :: ·) hends
  | case3 i c text hpair hc ih =>
    obtain ⟨line, rest, hcut, rfl, hends⟩ := ih
    refine ⟨[c], line :: rest, .next (ended_break (mem_breaks_of_breaksAt hc)) ?_ hcut, rfl, ?_⟩
    · rintro ⟨-, hr, hn⟩
      rw [← hcut.head?] at hn
      obtain ⟨text, htext⟩ := List.head?_eq_some_iff.1 hn
      exact hpair text (by simpa using hr) htext
    · rw [hlength, List.map_cons, List.scanl_cons]
      exact congrArg (_ :: ·) hends
  | case4 i c text hpair hc ih =>
    obtain ⟨line, rest, hcut, rfl, hends⟩ := ih
    refine ⟨c :: line, rest, hcut.cons ?_, rfl, ?_⟩
    · exact not_prefix_of_breaks hc fun text hr ht => (hpair text hr ht).elim
    · rw [hlength, hlength]
      exact hends

end BreakStyle

namespace Source
variable {source : Source} {lines : List Text} {row col : Nat} {line : Text}

/-- The lines of a source: its text in the cuts of its style, as its line table has them. -/
structure Lined (source : Source) (lines : List Text) : Prop where
  whole : lines.flatten = source.content
  cut : source.style.Cut lines
  bounds : source.bounds = (lines.map List.length).scanl (· + ·) 0

/-- Every source falls into lines. -/
theorem exists_lined (source : Source) : ∃ lines, source.Lined lines := by
  obtain ⟨line, rest, hcut, hwhole, hends⟩ := source.style.exists_cut 0 source.content
  refine ⟨line :: rest, hwhole, hcut, ?_⟩
  rw [bounds, lineStarts, List.cons_append, List.map_cons, List.scanl_cons]
  rw [Nat.zero_add] at hends
  exact congrArg (0 :: ·) hends

theorem flatten_take_succ (hrow : lines[row]? = some line) :
    (lines.take (row + 1)).flatten = (lines.take row).flatten ++ line := by
  rw [List.take_add_one, hrow, List.flatten_append]
  simp

namespace Lined
variable (h : source.Lined lines)
include h

theorem length_lineStarts : source.lineStarts.length = lines.length := by
  have hlength := congrArg List.length h.bounds
  rw [Source.bounds, List.length_append, List.length_scanl, List.length_map] at hlength
  exact Nat.succ.inj hlength

/-- The bound of a row is the length of the lines before it. -/
theorem bound (hrow : row ≤ lines.length) :
    source.bounds[row]? = some (lines.take row).flatten.length := by
  rw [h.bounds, List.getElem?_scanl, if_pos (by rwa [List.length_map]), ← List.sum_eq_foldl,
    List.length_flatten, List.map_take]

/-- The text before a line, the line, and the text after it. -/
theorem parts (hrow : lines[row]? = some line) :
    source.content = (lines.take row).flatten ++ line ++ (lines.drop (row + 1)).flatten := by
  obtain ⟨hlt, rfl⟩ := List.getElem?_eq_some_iff.1 hrow
  rw [← h.whole]
  conv_lhs => rw [← List.take_append_drop row lines, List.drop_eq_getElem_cons hlt]
  rw [List.flatten_append, List.flatten_cons, List.append_assoc]

/-- A line of the text by its number. -/
theorem line?_eq (row : Nat) : source.line? (source.firstLine + row) = lines[row]? := by
  have hnumber : (source.firstLine + row - source.firstLine).toNat = row := by omega
  rw [line?, hnumber]
  cases hrow : lines[row]? with
  | none =>
    have hnone : source.bounds[row + 1]? = none := by
      rw [h.bounds, List.getElem?_eq_none_iff, List.length_scanl, List.length_map]
      exact Nat.succ_le_succ (List.getElem?_eq_none_iff.1 hrow)
    rw [hnone]
    split <;> simp_all
  | some line =>
    have hlt := (List.getElem?_eq_some_iff.1 hrow).1
    rw [h.bound (Nat.le_of_lt hlt), h.bound hlt, flatten_take_succ hrow, List.length_append]
    dsimp only
    rw [h.parts hrow, Text.window_append_left]

/-- The line of an offset starts no later than the offset, and only the last line ends there. -/
theorem find_eq {i : Nat} (hi : i ≤ source.content.length) : ∃ row col : Nat, ∃ line,
    source.find i = (source.firstLine + row, (col : Int)) ∧ lines[row]? = some line ∧
      (lines.take row).flatten.length + col = i ∧
      (i < source.content.length → col < line.length) ∧
      (i = source.content.length → row + 1 = lines.length) := by
  obtain ⟨row, start, hin⟩ := source.exists_inRow i
  have hrow : row < lines.length :=
    h.length_lineStarts ▸ (List.getElem?_eq_some_iff.1 hin.starts).1
  obtain rfl : start = (lines.take row).flatten.length := by
    have hbound := h.bound (Nat.le_of_lt hrow)
    rw [Source.bounds, List.getElem?_append_left (h.length_lineStarts ▸ hrow), hin.starts] at hbound
    exact Option.some.inj hbound
  have hline : lines[row]? = some lines[row] := List.getElem?_eq_getElem hrow
  have hle := hin.le
  have hlength := congrArg List.length (h.parts hline)
  rw [List.length_append, List.length_append] at hlength
  refine ⟨row, i - (lines.take row).flatten.length, lines[row], ?_, hline,
    Nat.add_sub_cancel' hle, fun hlt => ?_, ?_⟩
  · rw [find, hin.rowOf, hin.rowStart, Int.add_comm, Int.natCast_sub hle]
  · rcases Nat.lt_or_eq_of_le (Nat.succ_le_of_lt hrow) with hnext | hlast
    · have hbound := h.bound (Nat.le_of_lt hnext)
      rw [Source.bounds, List.getElem?_append_left (h.length_lineStarts ▸ hnext)] at hbound
      have hlt := hin.lt_next hbound
      rw [flatten_take_succ hline, List.length_append] at hlt
      omega
    · rw [List.drop_eq_nil_of_le (Nat.le_of_eq hlast.symm), List.flatten_nil, List.length_nil]
        at hlength
      omega
  · rintro rfl
    have hall : source.lineStarts.countP (· ≤ source.content.length) = source.lineStarts.length :=
      List.countP_eq_length.2 fun start hs => decide_eq_true (source.lineStarts_le hs)
    rw [hin.count, hall, h.length_lineStarts]

end Lined

/-- The lines of a source by their numbers are its text, cut behind each line break. An offset is
found in the line that holds its character, as far from the start of that line as the character; the
end of the text is found in the last line, which is empty behind a break. -/
theorem line_table (source : Source) : ∃ lines,
    (∀ row : Nat, source.line? (source.firstLine + row) = lines[row]?) ∧
      lines.flatten = source.content ∧ source.style.Cut lines ∧
      ∀ i ≤ source.content.length, ∃ row col : Nat, ∃ found,
        source.find i = (source.firstLine + row, (col : Int)) ∧ lines[row]? = some found ∧
          source.bounds[row]? = some (lines.take row).flatten.length ∧
          (lines.take row).flatten.length + col = i ∧
          (∀ h : i < source.content.length, found[col]? = some source.content[i]) ∧
          (i = source.content.length → row + 1 = lines.length ∧
            ∀ b ∈ source.style.breaks, b <:+ source.content → found = []) := by
  obtain ⟨lines, h⟩ := source.exists_lined
  refine ⟨lines, h.line?_eq, h.whole, h.cut, fun i hi => ?_⟩
  obtain ⟨row, col, found, hfind, hline, hcol, hinner, hlast⟩ := h.find_eq hi
  have hrow := (List.getElem?_eq_some_iff.1 hline).1
  refine ⟨row, col, found, hfind, hline, h.bound (Nat.le_of_lt hrow), hcol, fun hlt => ?_, ?_⟩
  · rw [← List.getElem?_eq_getElem hlt, h.parts hline, ← hcol, List.append_assoc,
      List.getElem?_append_right (Nat.le_add_right _ _), Nat.add_sub_cancel_left,
      List.getElem?_append_left (hinner hlt)]
  · intro he
    refine ⟨hlast he, fun b hb hs => ?_⟩
    have hempty := h.cut.getLast? hb (h.whole ▸ hs)
    rw [List.getLast?_eq_getElem?, ← hlast he, Nat.add_sub_cancel, hline] at hempty
    exact Option.some.inj hempty

example : Source.find { content := "ab\r\n\r".toList, firstLine := 10 } 5 = (12, 0) := by decide

end Source
end OrderedBnf
