import OrderedBnf.Proofs.Gaps
import OrderedBnf.Proofs.Skipping

/-! A block comment that nothing closes is the end of every parse that comes upon it. -/
namespace OrderedBnf

namespace Comment
variable {text : Text} {start opened : Nat}

/-- From `start` on there is nothing but blanks and closed comments up to a block comment that
nothing closes. -/
structure LeftOpen (text : Text) (start opened : Nat) : Prop where
  le : start ≤ opened
  gap : Gap .nothing (text.window start opened)
  opens : text.window opened (opened + 2) = ['/', '*']
  stays : ¬ ['*', '/'] <:+: text.drop (opened + 2)

/-- A comment that is left open is closed nowhere in the rest of the text. -/
theorem LeftOpen.unclosed (h : LeftOpen text start opened) : Unclosed (text.drop opened) := by
  refine ⟨text.drop (opened + 2), ?_, h.stays⟩
  rw [text.drop_window (Nat.le_add_right opened 2), h.opens]
  rfl

/-- A comment is left open where a gap leads to it and the text does not close it. -/
theorem leftOpen_of_drop {gap rest : Text} (hdrop : text.drop start = gap ++ rest)
    (hgap : Gap .nothing gap) (hrest : Unclosed rest) :
    LeftOpen text start (start + gap.length) := by
  obtain ⟨rest, rfl, hrest⟩ := hrest
  have hopened : text.drop (start + gap.length) = '/' :: '*' :: rest := by
    rw [← List.drop_drop, hdrop, List.drop_left]
  refine ⟨Nat.le_add_right _ _, ?_, ?_, ?_⟩
  · rwa [Text.window, hdrop, Nat.add_sub_cancel_left, List.take_left]
  · rw [Text.window, hopened, Nat.add_sub_cancel_left]
    rfl
  · rwa [← List.drop_drop, hopened]

theorem LeftOpen.length_gap (h : LeftOpen text start opened) :
    start + (text.window start opened).length = opened := by
  have hlt : opened < text.length := by
    obtain ⟨rest, hdrop, -⟩ := h.unclosed
    exact Nat.lt_of_not_le fun hle => by rw [List.drop_eq_nil_of_le hle] at hdrop; cases hdrop
  have := h.le
  rw [Text.length_window]
  omega

/-- What the skipping stumbles over is a comment that nothing closes. -/
theorem skip_eq_error_iff {error : LexicalError} :
    skip text start text.length = .error (.lexical error) ↔
      ∃ opened, LeftOpen text start opened ∧ error = Comment.unclosed opened := by
  rw [skip, Text.window_length]
  constructor
  · intro h
    obtain ⟨_, rfl, ⟨⟨⟩, -⟩ | ⟨gap, rest, hdrop, hgap, hrest, rfl⟩⟩ := skipFrom_error h
    exact ⟨_, leftOpen_of_drop hdrop hgap hrest, rfl⟩
  · rintro ⟨opened, h, rfl⟩
    obtain ⟨rest, hopened, hrest⟩ := h.unclosed
    rw [text.drop_window h.le, hopened, skipFrom_append h.gap _ rfl, h.length_gap,
      skipFrom_openBlock, skipFrom_unclosed hrest]

end Comment

namespace CurlyBrace

/-- A lexical error of a parse is about a comment that is left open where the parse skips. -/
theorem leftOpen_of_parse {grammar : Grammar} {start : String} {text : Text}
    {filename : Option String} {error : LexicalError}
    (h : (language grammar).parse start text filename = .error (.aborted (.lexical error))) :
    ∃ i opened, (language grammar).SkipsFrom start text i ∧ Comment.LeftOpen text i opened ∧
      error = Comment.unclosed opened := by
  obtain ⟨i, hs, he⟩ := Language.skip_error_of_parse (stays grammar) (extend_stays grammar) h
  obtain ⟨opened, ho, rfl⟩ := Comment.skip_eq_error_iff.1 he
  exact ⟨i, opened, hs, ho, rfl⟩

/-- Wherever a parse skips, in an attempt that would be given up as well as behind the tree, a block
comment that nothing closes is what the parse ends with; and no other lexical error ends one. -/
theorem parse_unclosed (grammar : Grammar) (start : String) (text : Text)
    (filename : Option String) :
    (∀ i opened, (language grammar).SkipsFrom start text i → Comment.LeftOpen text i opened →
      (language grammar).parse start text filename =
        .error (.aborted (.lexical (Comment.unclosed opened)))) ∧
    ∀ error, (language grammar).parse start text filename = .error (.aborted (.lexical error)) →
      ∃ i opened, (language grammar).SkipsFrom start text i ∧ Comment.LeftOpen text i opened ∧
        error = Comment.unclosed opened := by
  refine ⟨fun i opened hs h => ?_, fun error => leftOpen_of_parse⟩
  exact Language.parse_of_skip_error hs (Comment.skip_eq_error_iff.2 ⟨opened, h, rfl⟩)

/-- A word that may be left out: the comment in front of it is not passed over for that. -/
def optionalWord : Grammar :=
  .ofList [("S", some (.optional (.leaf .literal ⟨2, 5, false, none, "[ 'a' ]".toList⟩)
    ⟨0, 7, false, none, "[ 'a' ]".toList⟩))]

theorem optional_word_unclosed :
    (language optionalWord).parse "S" " /* a".toList none =
        .error (.aborted (.lexical ⟨"Comment not closed", 1⟩)) ∧
      ∃ i opened, (language optionalWord).SkipsFrom "S" " /* a".toList i ∧
        Comment.LeftOpen " /* a".toList i opened ∧
          ⟨"Comment not closed", 1⟩ = Comment.unclosed opened := by
  have hs : (language optionalWord).SkipsFrom "S" " /* a".toList 0 :=
    .within rfl (.intro (.single (.intro List.not_mem_nil .optional)) (by decide)
      (.literal (by decide)))
  have ho : Comment.LeftOpen " /* a".toList 0 1 :=
    @Comment.leftOpen_of_drop _ 0 [' '] _ rfl (Comment.gap_blank (by decide))
      ⟨_, rfl, by decide⟩
  have h := parse_unclosed optionalWord "S" " /* a".toList none
  have hparse := h.1 0 1 hs ho
  exact ⟨hparse, h.2 _ hparse⟩

end CurlyBrace
end OrderedBnf
