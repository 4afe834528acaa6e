import Mathlib.Data.List.Basic
import OrderedBnf.Identifier
import OrderedBnf.Text.Blank

/-! Blanks and the characters of identifiers, apart from one another. -/
namespace OrderedBnf
variable {c : Char}

private def blankPoints : List Nat :=
  List.range' 9 5 ++ List.range' 28 5 ++ [0x85, 0xA0, 0x1680] ++ List.range' 0x2000 11 ++
    [0x2028, 0x2029, 0x202F, 0x205F, 0x3000]

theorem not_blank_of_identifierChar (h : isIdentifierChar c) : isBlank c = false := by
  have hall : blankPoints.all fun n => !isIdentifierChar (Char.ofNat n) := by decide +kernel
  by_contra hb
  have hc : c.toNat ∈ blankPoints := by
    simp [isBlank] at hb
    simp [blankPoints, List.mem_range'_1]
    omega
  simpa [h] using List.all_eq_true.1 hall c.toNat hc

theorem identifierChar_of_start (h : isIdentifierStart c) : isIdentifierChar c := by
  have hletter (hl : isLetter c) : isLetterOrNumeric c := by
    unfold isLetter at hl
    unfold isLetterOrNumeric isLetter
    split <;> simp_all [Char.isAlphanum]
  simp only [isIdentifierStart, isIdentifierChar, Bool.or_eq_true] at h ⊢
  exact h.imp_left (Or.imp_left hletter)

end OrderedBnf
