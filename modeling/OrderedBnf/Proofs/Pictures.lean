import OrderedBnf.Proofs.Compiled
import OrderedBnf.Proofs.LineTable

/-! The picture that comes with a complaint: a line of the text, and below it carets that start
where the character stands that the complaint is about. -/
namespace OrderedBnf

structure Picture where
  excerpt : Text
  indent : Text
  carets : Nat

namespace Picture

def marks (picture : Picture) (caption : Text) : Text :=
  picture.indent ++ List.replicate picture.carets '^' ++ ' ' :: caption

def text (picture : Picture) (caption : Text) : Text :=
  picture.excerpt ++ '\n' :: picture.marks caption

/-- A picture of a line behind a lead, with carets from the character at `col` on. Only blanks at
the end of the line are left out, and tabs are kept in front of the carets. -/
structure PointsAt (picture : Picture) (lead words : Text) (col width : Nat) : Prop where
  excerpt : ∃ kept blanks, picture.excerpt = lead ++ kept ∧ words = kept ++ blanks ∧
    (∀ c ∈ blanks, isBlank c) ∧ ∀ c, kept.getLast? = some c → isBlank c = false
  place : picture.indent.length = lead.length + col
  indent : ∀ i < lead.length + col, ∃ c, (lead ++ words)[i]? = some c ∧
    picture.indent[i]? = some (if c = '\t' then '\t' else ' ')
  carets : picture.carets = max 1 (min width (words.length - col))

variable {picture : Picture} {lead words caption : Text} {col width : Nat}

namespace PointsAt
variable (h : picture.PointsAt lead words col width)
include h

theorem no_caret : '^' ∉ picture.indent := by
  intro hc
  obtain ⟨i, hi⟩ := List.mem_iff_getElem?.1 hc
  have hlt := (List.getElem?_eq_some_iff.1 hi).1
  obtain ⟨c, -, hindent⟩ := h.indent i (h.place ▸ hlt)
  rw [hi] at hindent
  split at hindent <;> cases hindent

/-- The first caret stands below the character. -/
theorem first_caret : (picture.marks caption).idxOf '^' = lead.length + col := by
  obtain ⟨n, hn⟩ := Nat.exists_eq_add_of_le' (h.carets ▸ Nat.le_max_left 1 _ : 1 ≤ picture.carets)
  rw [marks, List.append_assoc, List.idxOf_append_of_notMem h.no_caret, hn, List.replicate_succ,
    List.cons_append, List.idxOf_cons_self, h.place, Nat.add_zero]

/-- There is a caret for each character of the range that lies in the line, and one at the least. -/
theorem count_caret (hcaption : '^' ∉ caption) :
    (picture.marks caption).count '^' = max 1 (min width (words.length - col)) := by
  rw [marks, List.count_append, List.count_append, List.count_eq_zero.2 h.no_caret,
    List.count_replicate_self, List.count_cons_of_ne (by decide), List.count_eq_zero.2 hcaption,
    Nat.zero_add, Nat.add_zero, h.carets]

/-- The character stands in the excerpt, unless it is one of the blanks that are left out. -/
theorem shown : picture.excerpt[lead.length + col]? = words[col]? ∨
    picture.excerpt.length ≤ lead.length + col ∧ ∀ c ∈ words.drop col, isBlank c := by
  obtain ⟨kept, blanks, hexcerpt, rfl, hblanks, -⟩ := h.excerpt
  rw [hexcerpt, List.length_append]
  rcases Nat.lt_or_ge col kept.length with hlt | hge
  · left
    rw [List.getElem?_append_right (Nat.le_add_right _ _), Nat.add_sub_cancel_left,
      List.getElem?_append_left hlt]
  · refine .inr ⟨Nat.add_le_add_left hge _, fun c hc => hblanks c ?_⟩
    rw [List.drop_append, List.drop_eq_nil_of_le hge, List.nil_append] at hc
    exact List.mem_of_mem_drop hc

end PointsAt
end Picture

theorem underlined_points {words : Text} {col : Nat} (hcol : col ≤ words.length) (width : Nat)
    (lead : Text) (caption : String) : ∃ picture : Picture, picture.PointsAt lead words col width ∧
      underlined words col width lead caption = String.ofList (picture.text caption.toList) := by
  have hslice : words.slice 0 col = words.take col := words.slice_natCast 0 col
  have hcarets : (max 1 (min (width : Int) (words.length - col))).toNat =
      max 1 (min width (words.length - col)) := by omega
  refine ⟨⟨lead ++ words.trimRight isBlank,
    (lead ++ words.take col).map fun c => if c = '\t' then c else ' ',
    max 1 (min width (words.length - col))⟩, ⟨?_, ?_, fun i hi => ?_, rfl⟩, ?_⟩
  · obtain ⟨blanks, hblanks, hline⟩ := Text.trimRight_append_rest isBlank words
    refine ⟨_, blanks, rfl, hline, hblanks, fun c hc => ?_⟩
    obtain ⟨kept, hkept⟩ := List.getLast?_eq_some_iff.1 hc
    exact Text.trimRight_last hkept
  · rw [List.length_map, List.length_append, List.length_take_of_le hcol]
  · have hlt : i < (lead ++ words).length := by
      rw [List.length_append]
      omega
    refine ⟨(lead ++ words)[i], List.getElem?_eq_getElem hlt, ?_⟩
    dsimp only
    rw [← List.take_length_add_append, List.getElem?_map, List.getElem?_take_of_lt hi,
      List.getElem?_eq_getElem hlt, Option.map_some]
    split
    · rename_i htab
      rw [htab]
    · rfl
  · rw [underlined, hslice, hcarets, String.append_assoc,
      ← String.ofList_toList (s := " " ++ caption), ← String.ofList_append, String.toList_append]
    dsimp only [Picture.text, Picture.marks]
    simp only [List.append_assoc, List.cons_append]
    rfl

example : underlined "\tabc".toList 2 2 [] "here" = "\tabc\n\t ^^ here" := by decide

namespace Source
variable {source : Source} {p q : Nat}

/-- An offset is found where its character stands in its line, and the end of the text at the end of
the last line. -/
theorem Lined.find_char {lines : List Text} (h : source.Lined lines)
    (hp : p ≤ source.content.length) : ∃ row col : Nat, ∃ found,
      source.find p = (source.firstLine + row, (col : Int)) ∧
      lines[row]? = some found ∧ (lines.take row).flatten.length + col = p ∧ col ≤ found.length ∧
      found[col]? = source.content[p]? := by
  obtain ⟨row, col, found, hfind, hrow, hcol, hinner, hlast⟩ := h.find_eq hp
  have hparts := h.parts hrow
  refine ⟨row, col, found, hfind, hrow, hcol, ?_⟩
  rcases Nat.lt_or_eq_of_le hp with hlt | rfl
  · refine ⟨Nat.le_of_lt (hinner hlt), ?_⟩
    rw [hparts, ← hcol, List.append_assoc, List.getElem?_append_right (Nat.le_add_right _ _),
      Nat.add_sub_cancel_left, List.getElem?_append_left (hinner hlt)]
  · rw [List.drop_eq_nil_of_le (Nat.le_of_eq (hlast rfl).symm), List.flatten_nil,
      List.append_nil] at hparts
    have hlength := congrArg List.length hparts
    rw [List.length_append] at hlength
    have hend : col = found.length := by omega
    exact ⟨Nat.le_of_eq hend, by rw [hend, List.getElem?_length, List.getElem?_length]⟩

/-- There is a complaint about every range of the text, and its picture points at the first
character of the range: in the excerpt of the line that holds the character, or where the character
would stand if the blanks at the end of the line were not left out. Tabs stand before the carets
just where they stand in the line, and there is a caret for each character of the range up to the
end of the line, but at least one. -/
theorem complaint_points (hpq : p ≤ q) (hq : q ≤ source.content.length) (message : String) :
    let lead := " >>> ".toList
    let caption := "near here".toList
    ∃ before found after, ∃ number : Int, ∃ col : Nat, ∃ picture : Picture,
      source.content = before ++ found ++ after ∧ before.length + col = p ∧
      source.find p = (number, (col : Int)) ∧ source.line? number = some found ∧
      source.complaint? p q message = some (source.headline p message ++ "\n" ++
        String.ofList (picture.text caption)) ∧
      picture.PointsAt lead found col (q - p) ∧
      (lead ++ found)[lead.length + col]? = source.content[p]? ∧
      (picture.excerpt[lead.length + col]? = source.content[p]? ∨
        picture.excerpt.length ≤ lead.length + col ∧ ∀ c ∈ found.drop col, isBlank c) ∧
      (picture.marks caption).idxOf '^' = lead.length + col ∧
      (picture.marks caption).count '^' = max 1 (min (q - p) (found.length - col)) := by
  intro lead caption
  obtain ⟨lines, h⟩ := source.exists_lined
  obtain ⟨row, col, found, hfind, hrow, hcol, hend, hchar⟩ := h.find_char (Nat.le_trans hpq hq)
  have hline : source.line? (source.firstLine + row) = some found := (h.line?_eq row).trans hrow
  obtain ⟨picture, hpoints, hpicture⟩ := underlined_points hend (q - p) lead "near here"
  have hshown := hpoints.shown
  rw [hchar] at hshown
  refine ⟨_, found, _, _, col, picture, h.parts hrow, hcol, hfind, hline, ?_, hpoints, ?_, hshown,
    hpoints.first_caret, hpoints.count_caret (by decide)⟩
  · rw [complaint?, hfind]
    dsimp only
    rw [hline, ← Int.natCast_sub hpq, Option.map_some]
    exact congrArg (fun shown => some (_ ++ shown)) hpicture
  · rw [List.getElem?_append_right (Nat.le_add_right _ _), Nat.add_sub_cancel_left, hchar]

def indented : Source where
  content := "\tx = 1  \r\ny".toList

/-- A range that starts in the blanks left out and goes on in the next line. -/
theorem trailing_blanks_points : 7 ≤ 11 ∧ 11 ≤ indented.content.length ∧
    ∃ picture : Picture,
      indented.complaint? 7 11 "Digit expected" =
        some (indented.headline 7 "Digit expected" ++ "\n" ++
          String.ofList (picture.text "near here".toList)) ∧
      (picture.marks "near here".toList).idxOf '^' = 12 ∧
      (picture.marks "near here".toList).count '^' = 3 := by
  obtain ⟨_, found, _, number, col, picture, -, -, hfind, hline, hcomplaint, -, -, -, hfirst,
    hcount⟩ := @complaint_points indented 7 11 (by decide) (by decide) "Digit expected"
  have hplace : indented.find 7 = (1, 7) := by decide
  obtain ⟨rfl, hcol⟩ := Prod.mk.inj (hplace.symm.trans hfind)
  obtain rfl : 7 = col := Int.ofNat_inj.1 hcol
  have hwhole : indented.line? 1 = some "\tx = 1  \r\n".toList := by decide
  obtain rfl := Option.some.inj (hwhole.symm.trans hline)
  exact ⟨by decide, by decide, picture, hcomplaint, hfirst, hcount⟩

end Source
end OrderedBnf
