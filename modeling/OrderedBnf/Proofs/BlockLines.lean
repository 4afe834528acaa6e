import Mathlib.Data.List.Nodup
import OrderedBnf.Proofs.DocumentBlocks
import OrderedBnf.Proofs.DocumentLines
import OrderedBnf.Proofs.LoadedRules

/-! Which lines of a document belong to which of its blocks, and the documents that blocks are
written as. -/
namespace OrderedBnf
open MetaGrammar (titleOf?_head)

namespace Block

def titleAt (lines : List Text) (i : Nat) : Option (String × Text) := lines[i]?.bind titleOf?

def continued (lines : List Text) : List Text :=
  (lines.takeWhile fun line => (titleOf? line).isNone).filterMap significant?

/-- A block stands at a place: its head is there, and its body is what follows the colon and the
words of the lines up to the next head. -/
def StandsAt (lines : List Text) (i : Nat) (block : Block) : Prop :=
  ∃ first, titleAt lines i = some (block.name, first) ∧
    block.body = Text.trim isBlank (Text.join ['\n'] (first :: continued (lines.drop (i + 1))))

/-- The nearest head of a line: the line itself, or a head above it with no other in between. -/
structure NearestHead (lines : List Text) (i head : Nat) : Prop where
  le : head ≤ i
  isHead : (titleAt lines head).isSome
  others : ∀ j, head < j → j ≤ i → titleAt lines j = none

section Places
variable {lines front within after : List Text} {head line : Text} {i h h' : Nat} {block : Block}

theorem titleAt_append (front lines : List Text) (i : Nat) :
    titleAt (front ++ lines) (front.length + i) = titleAt lines i := by
  rw [titleAt, List.getElem?_append_right (Nat.le_add_right _ _), Nat.add_sub_cancel_left, titleAt]

theorem StandsAt.behind (hs : StandsAt lines i block) (front : List Text) :
    StandsAt (front ++ lines) (front.length + i) block := by
  obtain ⟨first, htitle, hbody⟩ := hs
  refine ⟨first, (titleAt_append front lines i).trans htitle, ?_⟩
  rw [Nat.add_assoc, List.drop_append, List.drop_eq_nil_of_le (Nat.le_add_right _ _),
    List.nil_append, Nat.add_sub_cancel_left]
  exact hbody

theorem NearestHead.behind (hn : NearestHead lines i h) (front : List Text) :
    NearestHead (front ++ lines) (front.length + i) (front.length + h) where
  le := Nat.add_le_add_left hn.le _
  isHead := (titleAt_append front lines h).symm ▸ hn.isHead
  others j hj hle := by
    obtain ⟨k, rfl⟩ := Nat.exists_eq_add_of_le (Nat.le_trans (Nat.le_add_right _ _) (Nat.le_of_lt hj))
    rw [titleAt_append]
    exact hn.others k (Nat.lt_of_add_lt_add_left hj) (Nat.le_of_add_le_add_left hle)

/-- A line has one nearest head at most. -/
theorem NearestHead.unique (hn : NearestHead lines i h) (hn' : NearestHead lines i h') : h = h' := by
  rcases Nat.lt_trichotomy h h' with hlt | heq | hlt
  · have hnone := hn.others h' hlt hn'.le
    simpa [hnone] using hn'.isHead
  · exact heq
  · have hnone := hn'.others h hlt hn.le
    simpa [hnone] using hn.isHead

theorem continued_within (hw : ∀ l ∈ within, titleOf? l = none) (ha : HeadFirst after) :
    continued (within ++ after) = within.filterMap significant? := by
  rw [continued, List.takeWhile_append_of_pos (by simpa using hw)]
  cases after with
  | nil => rw [List.takeWhile_nil, List.append_nil]
  | cons head after =>
    obtain ⟨title, htitle⟩ := Option.isSome_iff_exists.1 (ha head rfl)
    rw [List.takeWhile_cons_of_neg (by simp [htitle]), List.append_nil]

theorem nearestHead_within (hh : (titleOf? head).isSome) (hw : ∀ l ∈ within, titleOf? l = none)
    (hi : i ≤ within.length) : NearestHead (head :: (within ++ after)) i 0 where
  le := Nat.zero_le i
  isHead := hh
  others
    | j + 1, _, hj => by
      have hlt : j < within.length := Nat.lt_of_lt_of_le hj hi
      rw [titleAt, List.getElem?_cons_succ, List.getElem?_append_left hlt,
        List.getElem?_eq_getElem hlt]
      exact hw _ (List.getElem_mem hlt)

end Places

section Grouping
variable {lines : List Text} {number : Nat} {blocks : List Block}

theorem Grouped.standsAt (h : Grouped number lines blocks) :
    ∀ block ∈ blocks, ∃ i, block.line = number + i ∧ StandsAt lines i block := by
  induction h with
  | nil => exact nofun
  | @cons number before head name words within after blocks hb htitle hw ha _ ih =>
    refine List.forall_mem_cons.2 ⟨⟨before.length, rfl, ?_⟩, fun block hm => ?_⟩
    · have hstands : StandsAt (head :: (within ++ after)) 0
          (ofLines name (number + before.length) (words :: within.filterMap significant?)) := by
        refine ⟨words, htitle, ?_⟩
        rw [List.drop_succ_cons, List.drop_zero, continued_within hw ha]
        rfl
      exact hstands.behind before
    · obtain ⟨i, hline, hstands⟩ := ih block hm
      refine ⟨before.length + ((head :: within).length + i), ?_,
        (hstands.behind (head :: within)).behind before⟩
      rw [hline, List.length_cons]
      omega

/-- Blocks stand in the order of their lines. -/
theorem Grouped.ascending (h : Grouped number lines blocks) :
    blocks.Pairwise (·.line < ·.line) := by
  induction h with
  | nil => exact .nil
  | @cons number before _ _ _ _ _ _ _ _ _ _ hafter ih =>
    refine .cons (fun block hm => ?_) ih
    obtain ⟨i, hline, -⟩ := hafter.standsAt block hm
    change number + before.length < block.line
    omega

/-- Every line with words on it has a nearest head, and the block that stands there. -/
theorem Grouped.exists_nearestHead (h : Grouped number lines blocks) {i : Nat} {line : Text}
    (hline : lines[i]? = some line) (hs : (significant? line).isSome) :
    ∃ block ∈ blocks, ∃ head, block.line = number + head ∧ NearestHead lines i head := by
  induction h generalizing i with
  | nil hl =>
    rw [hl line (List.mem_of_getElem? hline)] at hs
    cases hs
  | @cons number before head name words within after blocks hb htitle hw ha hafter ih =>
    have hle : before.length ≤ i := by
      refine Nat.le_of_not_lt fun hlt => ?_
      rw [List.getElem?_append_left hlt] at hline
      rw [hb line (List.mem_of_getElem? hline)] at hs
      cases hs
    obtain ⟨i, rfl⟩ := Nat.exists_eq_add_of_le hle
    rcases Nat.lt_or_ge within.length i with hlt | hwithin
    · -- the line is below the next head, where its place is counted from
      obtain ⟨i, rfl⟩ := Nat.exists_eq_add_of_le (Nat.succ_le_of_lt hlt)
      have hplace : before ++ head :: (within ++ after) = (before ++ head :: within) ++ after :=
        (List.append_assoc before (head :: within) after).symm
      have hlength : before.length + (within.length.succ + i) =
          (before ++ head :: within).length + i := by
        rw [List.length_append, List.length_cons]
        omega
      rw [hplace, hlength] at hline ⊢
      rw [List.getElem?_append_right (Nat.le_add_right _ _), Nat.add_sub_cancel_left] at hline
      obtain ⟨block, hm, place, hnumber, hnearest⟩ := ih hline
      refine ⟨block, List.mem_cons_of_mem _ hm, _, ?_, hnearest.behind _⟩
      rw [hnumber, List.length_append, List.length_cons]
      omega
    · exact ⟨_, List.mem_cons_self, before.length + 0, rfl,
        (nearestHead_within (by rw [htitle]; rfl) hw hwithin).behind before⟩

end Grouping
end Block

structure Section where
  name : Text
  body : List Text

namespace Section

def content (s : Section) : String × Text := (String.ofList s.name, Text.join ['\n'] s.body)

def printed (s : Section) : List Text :=
  (s.name ++ ':' :: s.body.headD []) :: s.body.tail

/-- No line of the body is blank or has blanks at its ends, and none below the first would be read
as a head or as a comment. -/
structure Proper (s : Section) : Prop where
  name : isIdentifier s.name
  trimmed : ∀ line ∈ s.body, line ≠ [] ∧ line.trim isBlank = line
  below : ∀ line ∈ s.body.tail, headOf? line = none ∧ line.head? ≠ some '#'

end Section

/-- Lines written with blanks around them, and with blank lines and comments anywhere between. -/
inductive Loosely : List Text → List Text → Prop
  | nil : Loosely [] []
  | blank {words blanks lines} : Blanks blanks → Loosely words lines →
      Loosely words (blanks :: lines)
  | comment {words indent comment lines} : Blanks indent → Loosely words lines →
      Loosely words ((indent ++ '#' :: comment) :: lines)
  | line {word words indent trailing lines} : Blanks indent → Blanks trailing →
      Loosely words lines → Loosely (word :: words) ((indent ++ word ++ trailing) :: lines)

section Loose
variable {words words' lines : List Text} {word before after : Text}

theorem significant?_padded (hb : Blanks before) (ha : Blanks after) (word : Text) :
    significant? (before ++ word ++ after) = significant? word := by
  rw [significant?, Text.trim_padded hb ha, significant?]

theorem significant?_blanks (h : Blanks before) : significant? before = none := by
  rw [significant?, Text.trim_eq_nil h]

theorem significant?_indented_comment (h : Blanks before) (comment : Text) :
    significant? (before ++ '#' :: comment) = none := by
  refine significant?_comment ?_
  rw [Text.trimLeft, List.dropWhile_append_of_pos h]
  rfl

/-- A line that is trimmed, not empty and no comment is significant as it is. -/
theorem significant?_self (hne : word ≠ []) (htrim : word.trim isBlank = word)
    (hhash : word.head? ≠ some '#') : significant? word = some word := by
  rw [significant?, htrim]
  obtain ⟨c, rest, rfl⟩ := List.exists_cons_of_ne_nil hne
  exact if_neg fun hc => hhash (congrArg some hc)

/-- Lines laid out loosely have the same words on them. -/
theorem Loosely.filterMap (h : Loosely words lines) :
    lines.filterMap significant? = words.filterMap significant? := by
  induction h with
  | nil => rfl
  | blank hb _ ih => rw [List.filterMap_cons_none (significant?_blanks hb), ih]
  | comment hb _ ih => rw [List.filterMap_cons_none (significant?_indented_comment hb _), ih]
  | line hb ha _ ih =>
    rw [List.filterMap_cons, List.filterMap_cons, significant?_padded hb ha, ih]

/-- Lines that write two runs of words loosely fall into lines for each of them. -/
theorem Loosely.split (h : Loosely (words ++ words') lines) :
    ∃ front back, lines = front ++ back ∧ Loosely words front ∧ Loosely words' back := by
  generalize hwords : words ++ words' = all at h
  induction h generalizing words with
  | nil =>
    obtain ⟨rfl, rfl⟩ := List.append_eq_nil_iff.1 hwords
    exact ⟨[], [], rfl, .nil, .nil⟩
  | blank hb _ ih =>
    obtain ⟨front, back, rfl, hfront, hback⟩ := ih hwords
    exact ⟨_ :: front, back, rfl, .blank hb hfront, hback⟩
  | comment hb _ ih =>
    obtain ⟨front, back, rfl, hfront, hback⟩ := ih hwords
    exact ⟨_ :: front, back, rfl, .comment hb hfront, hback⟩
  | line hb ha h ih =>
    cases words with
    | nil =>
      subst hwords
      exact ⟨[], _, rfl, .nil, .line hb ha h⟩
    | cons word words =>
      rw [List.cons_append] at hwords
      obtain ⟨rfl, hrest⟩ := List.cons.inj hwords
      obtain ⟨front, back, rfl, hfront, hback⟩ := ih hrest
      exact ⟨_ :: front, back, rfl, .line hb ha hfront, hback⟩

/-- Nothing that stands before the first of some words is significant. -/
theorem Loosely.first (h : Loosely (word :: words) lines) : ∃ noise line rest,
    lines = noise ++ line :: rest ∧ (∀ l ∈ noise, significant? l = none) ∧
      significant? line = significant? word ∧ Loosely words rest := by
  generalize hwords : word :: words = all at h
  induction h with
  | nil => cases hwords
  | blank hb _ ih =>
    obtain ⟨noise, line, rest, rfl, hnoise, hline, hrest⟩ := ih hwords
    exact ⟨_ :: noise, line, rest, rfl,
      List.forall_mem_cons.2 ⟨significant?_blanks hb, hnoise⟩, hline, hrest⟩
  | comment hb _ ih =>
    obtain ⟨noise, line, rest, rfl, hnoise, hline, hrest⟩ := ih hwords
    exact ⟨_ :: noise, line, rest, rfl,
      List.forall_mem_cons.2 ⟨significant?_indented_comment hb _, hnoise⟩, hline, hrest⟩
  | line hb ha h _ =>
    obtain ⟨rfl, rfl⟩ := List.cons.inj hwords
    exact ⟨[], _, _, rfl, nofun, significant?_padded hb ha _, h⟩

end Loose

section Ends
variable {text : Text} {lines : List Text}

theorem Text.trim_eq_self (hhead : ∀ c ∈ text.head?, isBlank c = false)
    (hlast : ∀ c ∈ text.getLast?, isBlank c = false) : trim isBlank text = text := by
  rcases List.eq_nil_or_concat' text with rfl | ⟨init, last, rfl⟩
  · rfl
  · have hleft : trimLeft isBlank (init ++ [last]) = init ++ [last] := by
      cases init with
      | nil => exact List.dropWhile_cons_of_neg (by simp [hhead last rfl])
      | cons c init => exact List.dropWhile_cons_of_neg (by simp [hhead c rfl])
    rw [trim, hleft, ← List.append_nil (init ++ [last])]
    rw [trimRight_append (hlast last List.getLast?_concat) Blanks.nil, List.append_nil]

theorem Text.head?_join {line : Text} (hne : line ≠ []) (between : Text) (lines : List Text) :
    (join between (line :: lines)).head? = line.head? := by
  obtain ⟨rest, hjoin⟩ := join_cons between line lines
  rw [hjoin, List.head?_append, Option.or_of_isSome (by simpa using hne)]

theorem Text.getLast?_join {line : Text} (hne : line ≠ []) (between : Text) (lines : List Text) :
    (join between (lines ++ [line])).getLast? = line.getLast? := by
  cases lines with
  | nil => rfl
  | cons first lines =>
    rw [join_append (List.cons_ne_nil _ _) (List.cons_ne_nil _ _), List.getLast?_append,
      Option.or_of_isSome (by simpa [join] using hne)]
    rfl

/-- Lines without blanks at their ends have none there when they are joined. -/
theorem Text.trim_join (h : ∀ line ∈ lines, line ≠ [] ∧ line.trim isBlank = line)
    (between : Text) : trim isBlank (join between lines) = join between lines := by
  refine trim_eq_self ?_ ?_
  · cases lines with
    | nil => exact nofun
    | cons line lines =>
      obtain ⟨hne, htrim⟩ := h line List.mem_cons_self
      rw [head?_join hne]
      intro c hc
      obtain ⟨rest, hrest⟩ := List.head?_eq_some_iff.1 hc
      exact trim_head (htrim.trans hrest)
  · rcases List.eq_nil_or_concat' lines with rfl | ⟨lines, line, rfl⟩
    · exact nofun
    · obtain ⟨hne, htrim⟩ := h line (by simp)
      rw [getLast?_join hne]
      intro c hc
      obtain ⟨rest, hrest⟩ := List.getLast?_eq_some_iff.1 hc
      exact trim_last (htrim.trans hrest)

end Ends

namespace Section
variable {s : Section}

/-- A line that reads like the first one of a section is its head. -/
theorem Proper.titled (h : s.Proper) {line : Text}
    (hline : significant? line = significant? (s.name ++ ':' :: s.body.headD [])) :
    titleOf? line = some (String.ofList s.name, s.body.headD []) := by
  have hfirst : (s.body.headD []).trimRight isBlank = s.body.headD [] := by
    cases hbody : s.body with
    | nil => rfl
    | cons first rest =>
      have htrim := (h.trimmed first (by simp [hbody])).2
      rw [List.headD_cons, ← htrim]
      exact Text.trimRight_trimRight ..
  rw [titleOf?, hline, ← titleOf?, titleOf?_head h.name, hfirst]

theorem Proper.significant (h : s.Proper) : ∀ line ∈ s.body.tail, significant? line = some line := by
  intro line hl
  obtain ⟨hne, htrim⟩ := h.trimmed line (List.mem_of_mem_tail hl)
  exact significant?_self hne htrim (h.below line hl).2

theorem Proper.no_title (h : s.Proper) : ∀ line ∈ s.body.tail, titleOf? line = none := by
  intro line hl
  rw [titleOf?, h.significant line hl]
  exact (h.below line hl).1

/-- There is nothing to trim around the body of a section. -/
theorem Proper.joined (h : s.Proper) :
    Text.trim isBlank (Text.join ['\n'] (s.body.headD [] :: s.body.tail)) =
      Text.join ['\n'] s.body := by
  cases hbody : s.body with
  | nil => rfl
  | cons first rest => exact Text.trim_join (hbody ▸ h.trimmed) _

end Section

namespace Block

section Written
variable {words lines : List Text} {sections : List Section}

theorem titles_loosely (h : Loosely words lines) (hw : ∀ word ∈ words, titleOf? word = none) :
    ∀ line ∈ lines, titleOf? line = none := by
  intro line hl
  cases hs : significant? line with
  | none => rw [titleOf?, hs, Option.bind_none]
  | some text =>
    have hm : text ∈ words.filterMap significant? :=
      h.filterMap ▸ List.mem_filterMap.2 ⟨line, hl, hs⟩
    obtain ⟨word, hword, hs'⟩ := List.mem_filterMap.1 hm
    rw [titleOf?, hs, ← hs']
    exact hw word hword

/-- Sections that are laid out loosely are the blocks of the lines, behind lines without words. -/
theorem exists_grouped_loosely (hp : ∀ s ∈ sections, s.Proper)
    (h : Loosely (sections.flatMap Section.printed) lines) : ∃ before after,
    lines = before ++ after ∧ (∀ line ∈ before, significant? line = none) ∧ HeadFirst after ∧
      ∀ number, ∃ blocks, Grouped number after blocks ∧
        blocks.map (fun block => (block.name, block.body)) = sections.map Section.content := by
  induction sections generalizing lines with
  | nil =>
    have hnone : lines.filterMap significant? = [] := h.filterMap
    exact ⟨lines, [], (List.append_nil lines).symm, List.filterMap_eq_nil_iff.1 hnone, nofun,
      fun _ => ⟨[], .nil nofun, rfl⟩⟩
  | cons s sections ih =>
    obtain ⟨hs, hsections⟩ := List.forall_mem_cons.1 hp
    rw [List.flatMap_cons] at h
    obtain ⟨front, back, rfl, hfront, hback⟩ := h.split
    obtain ⟨before, head, within, rfl, hbefore, hhead, hwithin⟩ := hfront.first
    obtain ⟨between, after, rfl, hbetween, hafter, hblocks⟩ := ih hsections hback
    have htitle := hs.titled hhead
    have htitles : ∀ line ∈ within ++ between, titleOf? line = none := by
      refine List.forall_mem_append.2 ⟨titles_loosely hwithin hs.no_title, fun line hl => ?_⟩
      rw [titleOf?, hbetween line hl, Option.bind_none]
    have hwords : (within ++ between).filterMap significant? = s.body.tail := by
      rw [List.filterMap_append, hwithin.filterMap, List.filterMap_eq_nil_iff.2 hbetween,
        List.append_nil, List.filterMap_congr hs.significant, List.filterMap_some]
    -- what stands before the next section is taken for lines of this one
    refine ⟨before, head :: ((within ++ between) ++ after), by simp, hbefore, ?_, fun number => ?_⟩
    · rintro _ ⟨⟩
      rw [htitle]
      rfl
    · obtain ⟨blocks, hgrouped, hcontents⟩ := hblocks (number + 1 + (within ++ between).length)
      have hnothing : ∀ line ∈ ([] : List Text), significant? line = none := nofun
      refine ⟨_, .cons hnothing htitle htitles hafter hgrouped, ?_⟩
      rw [List.map_cons, List.map_cons, hcontents, hwords]
      exact congrArg (· :: _) (congrArg (Prod.mk _) hs.joined)

end Written

/-- A document that is grouped into blocks has each line with words on it in the block of its
nearest head, and no other; the blocks stand in it in order. Blocks that are written down, with
blanks around each line and with blank lines and comments in between, are read again. -/
theorem ofDocument_groups :
    (∀ lines blocks, ofDocument lines = .ok blocks →
      (∀ i line, lines[i]? = some line → (significant? line).isSome →
        ∃! block, block ∈ blocks ∧ ∃ head, block.line = head + 1 ∧ NearestHead lines i head) ∧
      blocks.Pairwise (·.line < ·.line) ∧
      ∀ block ∈ blocks, ∃ i, block.line = i + 1 ∧ StandsAt lines i block) ∧
    ∀ (sections : List Section) (lines : List Text), (∀ s ∈ sections, s.Proper) →
      Loosely (sections.flatMap Section.printed) lines → ∃ blocks, ofDocument lines = .ok blocks ∧
        blocks.map (fun block => (block.name, block.body)) = sections.map Section.content := by
  refine ⟨fun lines blocks h => ?_, fun sections lines hp hl => ?_⟩
  · have hgrouped := grouped_iff.1 h
    have hlines : (blocks.map Block.line).Nodup :=
      List.pairwise_map.2 (hgrouped.ascending.imp Nat.ne_of_lt)
    refine ⟨fun i line hline hs => ?_, hgrouped.ascending, fun block hm => ?_⟩
    · obtain ⟨block, hm, head, hnumber, hnearest⟩ := hgrouped.exists_nearestHead hline hs
      rw [Nat.add_comm] at hnumber
      refine ⟨block, ⟨hm, head, hnumber, hnearest⟩, ?_⟩
      rintro other ⟨hm', head', hnumber', hnearest'⟩
      obtain rfl := hnearest.unique hnearest'
      exact List.inj_on_of_nodup_map hlines hm' hm (hnumber'.trans hnumber.symm)
    · obtain ⟨i, hnumber, hstands⟩ := hgrouped.standsAt block hm
      exact ⟨i, hnumber.trans (Nat.add_comm ..), hstands⟩
  · obtain ⟨before, after, rfl, hbefore, -, hblocks⟩ := exists_grouped_loosely hp hl
    obtain ⟨blocks, hgrouped, hcontents⟩ := hblocks (1 + before.length)
    exact ⟨blocks, grouped_iff.2 (hgrouped.behind hbefore), hcontents⟩

def twoSections : List Section :=
  [⟨"A".toList, []⟩, ⟨"B".toList, ["'b'".toList, "| 'c'".toList]⟩]

def twoSectionLines : List Text :=
  ["# two", "A:", "", "  B:'b' ", "\t# or", " | 'c'"].map String.toList

/-- The last line belongs to the second rule. -/
theorem twoSections_grouped : Loosely (twoSections.flatMap Section.printed) twoSectionLines ∧
    (∃ blocks, ofDocument twoSectionLines = .ok blocks ∧
      blocks.map (fun block => (block.name, block.body)) =
        [("A", []), ("B", "'b'\n| 'c'".toList)]) ∧
    ∃! block : Block, block ∈ [⟨"A", [], 2⟩, ⟨"B", "'b'\n| 'c'".toList, 4⟩] ∧
      ∃ head, block.line = head + 1 ∧ NearestHead twoSectionLines 5 head := by
  have hproper : ∀ s ∈ twoSections, s.Proper := by
    intro s hs
    simp only [twoSections, List.mem_cons, List.not_mem_nil, or_false] at hs
    rcases hs with rfl | rfl
    · exact ⟨by decide +kernel, nofun, nofun⟩
    · exact ⟨by decide +kernel, by decide +kernel, by decide +kernel⟩
  have hloosely : Loosely (twoSections.flatMap Section.printed) twoSectionLines := by
    have hcomment : Blanks ['\t'] := by simp [Blanks, isBlank]
    have hindent : Blanks [' '] := by simp [Blanks, isBlank]
    have hindents : Blanks [' ', ' '] := by simp [Blanks, isBlank]
    exact .comment Blanks.nil (.line Blanks.nil Blanks.nil (.blank Blanks.nil
      (.line hindents hindent (.comment hcomment (.line hindent Blanks.nil .nil)))))
  have hblocks : ofDocument twoSectionLines =
      .ok [⟨"A", [], 2⟩, ⟨"B", "'b'\n| 'c'".toList, 4⟩] := by decide +kernel
  exact ⟨hloosely, ofDocument_groups.2 _ _ hproper hloosely,
    (ofDocument_groups.1 _ _ hblocks).1 5 " | 'c'".toList rfl (by decide +kernel)⟩

end Block
end OrderedBnf
