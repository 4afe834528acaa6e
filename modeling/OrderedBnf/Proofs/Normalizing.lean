import Mathlib.Data.List.Forall2
import OrderedBnf.Proofs.DocumentLines
import OrderedBnf.Proofs.LineTable
import OrderedBnf.Proofs.Refusals

/-! A document before and after it is normalized: its lines are as many and in the same places, and
the loader finds the same in them. -/
namespace OrderedBnf

section Feeds
variable {line : Text} {lines : List Text}

theorem unbroken_of_lineBreak (h : ∀ c ∈ line, isLineBreak c = false) :
    BreakStyle.any.Unbroken line := by
  intro b hb hi
  simp only [BreakStyle.breaks, List.mem_cons, List.not_mem_nil, or_false] at hb
  rcases hb with rfl | rfl | rfl <;>
    exact absurd (h _ (hi.subset List.mem_cons_self)) (by decide)

theorem ends_line (h : ∀ c ∈ line, isLineBreak c = false) (i : Nat) (rest : Text) :
    BreakStyle.any.ends i (line ++ '\n' :: rest) =
      (i + (line.length + 1)) :: BreakStyle.any.ends (i + (line.length + 1)) rest := by
  induction line generalizing i with
  | nil => simp [BreakStyle.ends, BreakStyle.breaksAt]
  | cons c line ih =>
    obtain ⟨hc, hline⟩ := List.forall_mem_cons.1 h
    have hreturn : c ≠ '\r' := fun he => absurd (he ▸ hc) (by decide)
    have hfeed : c ≠ '\n' := fun he => absurd (he ▸ hc) (by decide)
    have hbreak : ¬ BreakStyle.any.breaksAt c := by simp [BreakStyle.breaksAt, hreturn, hfeed]
    have hlength : i + ((c :: line).length + 1) = i + 1 + (line.length + 1) := by
      rw [List.length_cons]
      omega
    rw [List.cons_append, BreakStyle.ends, if_neg hbreak, ih hline, hlength]
    exact fun _ he => absurd he hreturn

theorem ends_unlines (h : ∀ line ∈ lines, ∀ c ∈ line, isLineBreak c = false) (i : Nat) :
    i :: (BreakStyle.any.ends i (Text.unlines lines) ++ [i + (Text.unlines lines).length]) =
      ((lines.map (· ++ ['\n']) ++ [[]]).map List.length).scanl (· + ·) i := by
  induction lines generalizing i with
  | nil => rfl
  | cons line lines ih =>
    obtain ⟨hline, hlines⟩ := List.forall_mem_cons.1 h
    have hlength : i + (line ++ '\n' :: Text.unlines lines).length =
        i + (line.length + 1) + (Text.unlines lines).length := by
      rw [List.length_append, List.length_cons]
      omega
    rw [Text.unlines_cons, ends_line hline, hlength, List.cons_append, ih hlines, List.map_cons,
      List.cons_append, List.map_cons, List.scanl_cons, List.length_append, List.length_singleton]

theorem cut_unlines (h : ∀ line ∈ lines, ∀ c ∈ line, isLineBreak c = false) :
    BreakStyle.any.Cut (lines.map (· ++ ['\n']) ++ [[]]) := by
  induction lines with
  | nil => exact .last BreakStyle.unbroken_nil
  | cons line lines ih =>
    obtain ⟨hline, hlines⟩ := List.forall_mem_cons.1 h
    have hended : BreakStyle.any.Ended (line ++ ['\n']) :=
      ⟨line, ['\n'], by simp [BreakStyle.breaks], rfl, unbroken_of_lineBreak hline⟩
    have hcut := ih hlines
    obtain ⟨next, rest, hrest⟩ := List.exists_cons_of_ne_nil
      (List.append_ne_nil_of_right_ne_nil (lines.map (· ++ ['\n'])) (List.cons_ne_nil [] []))
    rw [List.map_cons, List.cons_append, hrest]
    rw [hrest] at hcut
    exact .next hended (by simp [BreakStyle.Splits]) hcut

/-- Lines with a feed after each, and an empty one, are those of their text. -/
theorem Source.lined_unlines {source : Source} (hs : source.style = .any)
    (hc : source.content = Text.unlines lines)
    (h : ∀ line ∈ lines, ∀ c ∈ line, isLineBreak c = false) :
    source.Lined (lines.map (· ++ ['\n']) ++ [[]]) where
  whole := by
    rw [hc, Text.unlines, List.flatten_append, ← List.flatMap_def]
    exact List.append_nil _
  cut := hs ▸ cut_unlines h
  bounds := by
    have hends := ends_unlines h 0
    rw [Nat.zero_add] at hends
    rw [Source.bounds, Source.lineStarts, hs, hc, List.cons_append, hends]

end Feeds

namespace MetaGrammar
variable {line : Text}

theorem cleanLine_cleanLine (line : Text) : cleanLine (cleanLine line) = cleanLine line := by
  rw [cleanLine.eq_1 line]
  split
  · rfl
  · rename_i hhash
    obtain ⟨after, -, hleft⟩ := (line.trimLeft isBlank).trimRight_append_rest isBlank
    have hhead : ¬ ((line.trimRight isBlank).trimLeft isBlank).head? = some '#' := by
      rw [Text.trimLeft_trimRight]
      intro h
      rw [hleft, List.head?_append, h] at hhash
      exact hhash rfl
    rw [cleanLine, if_neg hhead, Text.trimRight_trimRight]

theorem lines_normalize (text : Text) : (normalize text).lines = cleanLines text := by
  rw [normalize_eq]
  exact Text.lines_unlines fun line hl => (clean_cleanLines text line hl).unbroken

theorem normalize_normalize (text : Text) : normalize (normalize text) = normalize text := by
  have hne : cleanLines text ≠ [] := by
    rw [cleanLines]
    split
    · exact List.cons_ne_nil _ _
    · simpa using ‹text.lines ≠ []›
  have hfixed : (cleanLines text).map cleanLine = cleanLines text := by
    rw [cleanLines]
    split
    · rfl
    · rw [List.map_map]
      exact List.map_congr_left fun line _ => cleanLine_cleanLine line
  rw [normalize_eq (normalize text), cleanLines, lines_normalize, if_neg hne, hfixed, normalize_eq]

/-- What becomes of a line: nothing, if it is blank or a comment, or the line without the blanks at
its end. -/
def Leaves (line line' : Text) : Prop :=
  significant? line = none ∧ line' = [] ∨ line' = line.trimRight isBlank

theorem leaves_cleanLine (line : Text) : Leaves line (cleanLine line) := by
  rw [cleanLine]
  split
  · exact .inl ⟨significant?_comment ‹_›, rfl⟩
  · exact .inr rfl

theorem forall₂_leaves (lines : List Text) : List.Forall₂ Leaves lines (lines.map cleanLine) :=
  List.forall₂_map_right_iff.2 (List.forall₂_same.2 fun line _ => leaves_cleanLine line)

/-- The line that an offset of a normalized text is reported in has the number that it has among the
lines of the document; the end of the text is reported behind the last of them. -/
theorem row_normalize {text : Text} (hne : text.lines ≠ []) (filename : Option String) {i : Nat}
    (hi : i ≤ (normalize text).length) :
    ∃ row : Nat, (Source.position { content := normalize text, filename } i).line = row + 1 ∧
      (i < (normalize text).length → ∃ line line', text.lines[row]? = some line ∧
        (normalize text).lines[row]? = some line' ∧
        Source.line? { content := normalize text, filename } (row + 1) = some (line' ++ ['\n'])) ∧
      (i = (normalize text).length → row = text.lines.length) := by
  have hlines := lines_normalize text
  have hlined := @Source.lined_unlines _ { content := normalize text, filename } rfl
    (normalize_eq text) fun line hl => (clean_cleanLines text line hl).unbroken
  rw [← hlines] at hlined
  rw [cleanLines, if_neg hne] at hlines
  have hlength : (normalize text).lines.length = text.lines.length := by
    rw [hlines, List.length_map]
  obtain ⟨row, col, line, hfind, hline, -, hinner, hlast⟩ := hlined.find_eq hi
  have hnumber := congrArg Prod.fst hfind
  rw [Int.add_comm] at hnumber
  refine ⟨row, hnumber, fun hlt => ?_, fun he => ?_⟩
  · have hrow : row < (normalize text).lines.length := by
      refine Nat.lt_of_not_le fun hle => ?_
      rw [List.getElem?_append_right (by rwa [List.length_map])] at hline
      have hnil : line = [] := List.mem_singleton.1 (List.mem_of_getElem? hline)
      have hcol := hinner hlt
      rw [hnil] at hcol
      exact Nat.not_lt_zero _ hcol
    have hplace := hlined.line?_eq row
    rw [List.getElem?_append_left (by rwa [List.length_map]), List.getElem?_map,
      List.getElem?_eq_getElem hrow, Int.add_comm] at hplace
    exact ⟨_, _, List.getElem?_eq_getElem (hlength ▸ hrow), List.getElem?_eq_getElem hrow, hplace⟩
  · have hrow := hlast he
    rw [List.length_append, List.length_map] at hrow
    exact (Nat.succ.inj hrow).trans hlength

/-- Normalizing a text twice is normalizing it once, and the loader finds the same blocks in what it
becomes, or refuses the same line. Each line becomes one line, so that the number of a line that the
notation complains about is the number that the loader knows that line by. -/
theorem normalize_faithful (text : Text) :
    normalize (normalize text) = normalize text ∧
    Block.ofDocument (normalize text).lines = Block.ofDocument text.lines ∧
    (text.lines ≠ [] → List.Forall₂ Leaves text.lines (normalize text).lines ∧
      ∀ filename, ∀ i ≤ (normalize text).length, ∃ row : Nat,
        (Source.position { content := normalize text, filename } i).line = row + 1 ∧
        (i < (normalize text).length → ∃ line line', text.lines[row]? = some line ∧
          (normalize text).lines[row]? = some line' ∧
          Source.line? { content := normalize text, filename } (row + 1) =
            some (line' ++ ['\n'])) ∧
        (i = (normalize text).length → row = text.lines.length)) ∧
    ∀ filename error, lint text filename = .error error → ∃ d, error = .failed d ∧
      ∃ i ≤ (normalize text).length,
        d.position = Source.position { content := normalize text, filename } i := by
  refine ⟨normalize_normalize text, ?_, fun hne => ⟨?_, fun filename i => row_normalize hne filename⟩,
    fun filename error h => ?_⟩
  · rw [lines_normalize, Block.ofDocument_cleanLines]
  · rw [lines_normalize, cleanLines, if_neg hne]
    exact forall₂_leaves text.lines
  · obtain ⟨d, rfl, hsource, hle, hstop⟩ | ⟨_, _, hnone⟩ :=
      @Language.parse_error _ _ _ _ (fun _ => False) _ MetaGrammar.stays h
    · obtain ⟨i, hi⟩ := Int.eq_ofNat_of_zero_le hle
      rw [hi] at hstop
      exact ⟨d, rfl, i, Int.ofNat_le.1 hstop, by rw [Diagnosis.position, hsource, hi]⟩
    · exact hnone.elim

def oddBreaks : Text := "A: 'a' \u2028 # note\x0b\r\nB: )\x85".toList

theorem oddBreaks_refused : ∃ d line, lint oddBreaks none = .error (.failed d) ∧
    d.position.line = 4 ∧ oddBreaks.lines[3]? = some "B: )".toList ∧
    (normalize oddBreaks).lines[3]? = some line ∧
    Source.line? { content := normalize oddBreaks } 4 = some (line ++ ['\n']) := by
  have hline : (match lint oddBreaks none with
    | .error (.failed d) => some d.position.line
    | _ => none) = some 4 := by decide +kernel
  have hlast : oddBreaks.lines[3]? = some "B: )".toList := by decide +kernel
  obtain ⟨-, -, hlines, hrefused⟩ := normalize_faithful oddBreaks
  cases h : lint oddBreaks none with
  | ok => rw [h] at hline; cases hline
  | error =>
    obtain ⟨d, rfl, i, hi, hposition⟩ := hrefused none _ h
    rw [h] at hline
    have hnumber : d.position.line = 4 := Option.some.inj hline
    have hfour : oddBreaks.lines.length = 4 := by decide +kernel
    obtain ⟨row, hrow, hwithin, hend⟩ :=
      (hlines (List.ne_nil_of_length_pos (by omega))).2 none i hi
    obtain rfl : row = 3 := by
      rw [← hposition, hnumber] at hrow
      omega
    obtain ⟨_, line, -, hnormal, hplace⟩ :=
      hwithin (Nat.lt_of_le_of_ne hi fun he => absurd (hend he) (by omega))
    exact ⟨d, line, rfl, hnumber, hlast, hnormal, hplace⟩

end MetaGrammar
end OrderedBnf
