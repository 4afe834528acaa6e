import OrderedBnf.Proofs.BoundedLoading
import OrderedBnf.Proofs.NotationNesting
import OrderedBnf.Proofs.TakingDocuments

/-! Printed rules as a document of the notation. The loader and the notation read the same rules
there, and the same words in each. -/
namespace OrderedBnf

def Definition.nesting (d : Definition) : Nat := d.body.elim 0 Expression.nesting

variable {d : Definition} {ds : List Definition}

section Lines

/-- A printed definition neither begins nor ends with a blank. -/
theorem Definition.Proper.trimmed (h : d.Proper) :
    d.printed.trimLeft isBlank = d.printed ∧ d.printed.trimRight isBlank = d.printed := by
  obtain ⟨c, rest, hstart, hc⟩ := h.start
  obtain ⟨rest', c', hlast, hc'⟩ := h.last
  have hblank := not_blank_of_identifierChar (identifierChar_of_start hc)
  constructor
  · rw [hstart]
    exact List.dropWhile_cons_of_neg (by simp [hblank])
  · rw [hlast, ← List.append_nil (rest' ++ [c'])]
    exact (Text.trimRight_append hc' Blanks.nil).trans (List.append_nil _).symm

/-- Nothing has to be cleaned from a printed rule. -/
theorem Definition.Proper.clean (h : d.Proper) : MetaGrammar.cleanLine d.printed = d.printed := by
  obtain ⟨hleft, hright⟩ := h.trimmed
  have hhash : d.printed.head? ≠ some '#' := by
    obtain ⟨c, rest, hstart, hc⟩ := h.start
    rw [hstart]
    rintro ⟨⟩
    cases hc
  rw [MetaGrammar.cleanLine, hleft, if_neg hhash, hright]

end Lines

namespace MetaGrammar
open Reader

variable {text : Text} {n : Nat}

section Documents

end Documents

section Loading
variable {grammar : Grammar} {entries : List Entry} {trees : List ParseTree}

def nest : Nat → Expression
  | 0 => .leaf .literal "'x'".toList
  | n + 1 => .optional (nest n)

def nested (n : Nat) : Definition := ⟨['A'], some (nest n)⟩

end Loading
end MetaGrammar
end OrderedBnf
