import OrderedBnf.Text.Basic

/-! Splitting a text into lines. -/
namespace OrderedBnf

/-- The characters that end a line: feeds, returns, the information separators U+001C to U+001E,
the next-line control, and the line and paragraph separators. -/
def isLineBreak (c : Char) : Bool :=
  let n := c.toNat
  (10 ≤ n && n ≤ 13) || (0x1C ≤ n && n ≤ 0x1E) || n = 0x85 || n = 0x2028 || n = 0x2029

namespace Text

private def extendFirst (c : Char) : List Text → List Text
  | [] => [[c]]
  | line :: rest => (c :: line) :: rest

/-- The lines without their breaks. A return and a feed together are one break, and nothing
follows the last break. -/
def lines : Text → List Text
  | [] => []
  | '\r' :: '\n' :: rest => [] :: lines rest
  | c :: rest => if isLineBreak c then [] :: lines rest else extendFirst c (lines rest)

private theorem lines_cons {c : Char} (h : isLineBreak c = false) (rest : Text) :
    lines (c :: rest) = extendFirst c (lines rest) := by
  cases rest with
  | nil => simp [lines, h]
  | cons d rest =>
    rw [lines]
    · simp [h]
    · rintro rest rfl
      cases h

/-- No line holds a character that ends a line. -/
theorem lines_unbroken (text : Text) : ∀ line ∈ lines text, ∀ c ∈ line, isLineBreak c = false := by
  fun_induction lines text with
  | case1 => simp
  | case2 rest ih => exact List.forall_mem_cons.2 ⟨fun _ h => absurd h List.not_mem_nil, ih⟩
  | case3 c rest _ _ ih => exact List.forall_mem_cons.2 ⟨fun _ h => absurd h List.not_mem_nil, ih⟩
  | case4 c rest _ hc ih =>
    intro line hl d hd
    cases hrest : lines rest with
    | nil => simp_all [extendFirst]
    | cons first others =>
      rw [hrest] at ih hl
      rcases List.mem_cons.1 hl with rfl | hl
      · rcases List.mem_cons.1 hd with rfl | hd
        · simpa using hc
        · exact ih first List.mem_cons_self d hd
      · exact ih line (List.mem_cons_of_mem _ hl) d hd

/-- The lines hold characters of the text only. -/
theorem lines_subset (text : Text) : ∀ line ∈ lines text, line ⊆ text := by
  fun_induction lines text with
  | case1 => simp
  | case2 rest ih =>
    refine List.forall_mem_cons.2 ⟨List.nil_subset _, fun line hl => ?_⟩
    exact List.subset_cons_of_subset _ (List.subset_cons_of_subset _ (ih line hl))
  | case3 c rest _ _ ih =>
    refine List.forall_mem_cons.2 ⟨List.nil_subset _, fun line hl => ?_⟩
    exact List.subset_cons_of_subset _ (ih line hl)
  | case4 c rest _ _ ih =>
    intro line hl
    cases hrest : lines rest with
    | nil => simp_all [extendFirst]
    | cons first others =>
      rw [hrest] at ih hl
      rcases List.mem_cons.1 hl with rfl | hl
      · exact List.cons_subset_cons _ (ih first List.mem_cons_self)
      · exact List.subset_cons_of_subset _ (ih line (List.mem_cons_of_mem _ hl))

theorem lines_append_feed {line : Text} (h : ∀ c ∈ line, isLineBreak c = false) (rest : Text) :
    lines (line ++ '\n' :: rest) = line :: lines rest := by
  induction line with
  | nil => simp [lines, isLineBreak]
  | cons c line ih =>
    rw [List.cons_append, lines_cons (h c List.mem_cons_self),
      ih fun c hc => h c (List.mem_cons_of_mem _ hc)]
    rfl

def feedBreaks : Text → Text
  | [] => []
  | '\r' :: '\n' :: rest => '\n' :: feedBreaks rest
  | c :: rest => (if c = '\r' then '\n' else c) :: feedBreaks rest

end Text
end OrderedBnf
