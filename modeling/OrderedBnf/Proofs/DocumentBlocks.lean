import OrderedBnf.Grammar.Block

/-! The lines of a document apart from the scan that collects them: each block is a head and the
lines up to the next one, and a document is refused for a line that stands before any head. -/
namespace OrderedBnf

def titleOf? (line : Text) : Option (String × Text) := (significant? line).bind headOf?

def HeadFirst (lines : List Text) : Prop := ∀ line ∈ lines.head?, (titleOf? line).isSome

namespace Block

/-- A line that is no head, with its number, where all lines above it are blank or comments. -/
inductive Stray (first : Nat) : List Text → Nat → Text → Prop
  | mk {before line after words} : (∀ l ∈ before, significant? l = none) →
      significant? line = some words → headOf? words = none →
      Stray first (before ++ line :: after) (first + before.length) words

inductive Grouped : Nat → List Text → List Block → Prop
  | nil {first lines} : (∀ line ∈ lines, significant? line = none) → Grouped first lines []
  | cons {first before head name words within after blocks} :
      (∀ line ∈ before, significant? line = none) → titleOf? head = some (name, words) →
      (∀ line ∈ within, titleOf? line = none) → HeadFirst after →
      Grouped (first + before.length + 1 + within.length) after blocks →
      Grouped first (before ++ head :: (within ++ after))
        (ofLines name (first + before.length) (words :: within.filterMap significant?) :: blocks)

section Scan
variable {number line : Nat} {name : String} {body lines before within after : List Text}

theorem collectFrom_insignificant (h : ∀ l ∈ before, significant? l = none) :
    collectFrom number (before ++ after) = collectFrom (number + before.length) after := by
  induction before generalizing number with
  | nil => rfl
  | cons next before ih =>
    rw [List.cons_append, collectFrom, h next List.mem_cons_self,
      List.length_cons, Nat.add_comm before.length, ← Nat.add_assoc]
    exact ih fun l hl => h l (List.mem_cons_of_mem _ hl)

/-- A head begins a block, and the lines up to the next head are its body. -/
theorem collectFrom_title {head words : Text} (h : titleOf? head = some (name, words)) :
    collectFrom number (head :: after) = .ok (collect (number + 1) name number [words] after) := by
  obtain ⟨text, htext, hhead⟩ := Option.bind_eq_some_iff.1 h
  rw [collectFrom, htext]
  dsimp only
  rw [hhead]

theorem collect_title {head words : Text} {title : String}
    (h : titleOf? head = some (title, words)) :
    collect number name line body (head :: after) =
      ofLines name line body :: collect (number + 1) title number [words] after := by
  obtain ⟨text, htext, hhead⟩ := Option.bind_eq_some_iff.1 h
  rw [collect, htext]
  dsimp only
  rw [hhead]

theorem collect_within (h : ∀ l ∈ within, titleOf? l = none) :
    collect number name line body (within ++ after) =
      collect (number + within.length) name line (body ++ within.filterMap significant?) after := by
  induction within generalizing number body with
  | nil => simp
  | cons next within ih =>
    have hnext := h next List.mem_cons_self
    rw [List.cons_append, collect, List.length_cons, Nat.add_comm within.length, ← Nat.add_assoc]
    replace ih {body : List Text} := @ih (number + 1) body fun l hl => h l (List.mem_cons_of_mem _ hl)
    cases hsignificant : significant? next with
    | none =>
      rw [List.filterMap_cons_none hsignificant]
      exact ih
    | some words =>
      rw [titleOf?, hsignificant, Option.bind_some] at hnext
      rw [List.filterMap_cons_some hsignificant, List.append_cons]
      dsimp only
      rw [hnext]
      exact ih

/-- The scan closes a block where the next head stands. -/
theorem collect_headFirst {blocks : List Block} (ht : HeadFirst after)
    (h : collectFrom number after = .ok blocks) :
    collect number name line body after = ofLines name line body :: blocks := by
  cases after with
  | nil =>
    cases h
    rfl
  | cons head after =>
    obtain ⟨⟨title, words⟩, htitle⟩ := Option.isSome_iff_exists.1 (ht head rfl)
    rw [collectFrom_title htitle] at h
    cases h
    exact collect_title htitle

/-- The blocks that the lines are grouped into are the ones that are collected. -/
theorem Grouped.collectFrom {blocks : List Block} (h : Grouped number lines blocks) :
    collectFrom number lines = .ok blocks := by
  induction h with
  | nil hl =>
    rename_i lines
    rw [← List.append_nil lines, collectFrom_insignificant hl]
    rfl
  | cons hb htitle hw hafter _ ih =>
    rw [collectFrom_insignificant hb, collectFrom_title htitle, collect_within hw,
      collect_headFirst hafter ih]
    rfl

/-- A continuation in front of every head is refused, with the number of its line. -/
theorem Stray.collectFrom {words : Text} {stray : Nat} (h : Stray number lines stray words) :
    collectFrom number lines = .error ⟨.strayContinuation words, none, none, some stray⟩ := by
  cases h with
  | mk hb hl hh =>
    rw [collectFrom_insignificant hb, Block.collectFrom, hl]
    dsimp only
    rw [hh]

end Scan

section Grouping
variable {number : Nat} {before lines : List Text}

theorem Grouped.behind {blocks : List Block} (hb : ∀ l ∈ before, significant? l = none)
    (h : Grouped (number + before.length) lines blocks) : Grouped number (before ++ lines) blocks := by
  generalize hn : number + before.length = n at h
  cases h with
  | nil hl => exact .nil (List.forall_mem_append.2 ⟨hb, hl⟩)
  | @cons _ before' head name words within after blocks hb' htitle hw hafter h =>
    subst hn
    have hcount : number + before.length + before'.length = number + (before ++ before').length := by
      rw [List.length_append, Nat.add_assoc]
    rw [hcount] at h ⊢
    rw [← List.append_assoc]
    exact .cons (List.forall_mem_append.2 ⟨hb, hb'⟩) htitle hw hafter h

/-- A list is cut before the first of its members that stands for something. -/
theorem exists_cut_before {α β : Type} (f : α → Option β) (xs : List α) : ∃ front back,
    xs = front ++ back ∧ (∀ x ∈ front, f x = none) ∧ ∀ x ∈ back.head?, (f x).isSome := by
  induction xs with
  | nil => exact ⟨[], [], rfl, nofun, nofun⟩
  | cons x xs ih =>
    cases hx : f x with
    | some =>
      refine ⟨[], x :: xs, rfl, nofun, ?_⟩
      rintro _ ⟨⟩
      rw [hx]
      rfl
    | none =>
      obtain ⟨front, back, rfl, hfront, hback⟩ := ih
      exact ⟨x :: front, back, rfl, List.forall_mem_cons.2 ⟨hx, hfront⟩, hback⟩

theorem exists_grouped (number : Nat) : ∀ lines, HeadFirst lines →
    ∃ blocks, Grouped number lines blocks
  | [], _ => ⟨[], .nil nofun⟩
  | head :: tail, ht => by
    obtain ⟨⟨name, words⟩, htitle⟩ := Option.isSome_iff_exists.1 (ht head rfl)
    obtain ⟨within, after, hsplit, hwithin, hafter⟩ := exists_cut_before titleOf? tail
    have hshorter : after.length < (head :: tail).length := by
      rw [hsplit, List.length_cons, List.length_append]
      omega
    obtain ⟨blocks, hblocks⟩ := exists_grouped (number + 1 + within.length) after hafter
    rw [hsplit]
    have hbefore : ∀ l ∈ ([] : List Text), significant? l = none := nofun
    exact ⟨_, .cons hbefore htitle hwithin hafter hblocks⟩
  termination_by lines => lines.length

/-- A document has a line that stands before any head, or is grouped into blocks. -/
theorem stray_or_grouped (number : Nat) (lines : List Text) :
    (∃ stray words, Stray number lines stray words) ∨ ∃ blocks, Grouped number lines blocks := by
  obtain ⟨before, rest, rfl, hbefore, hrest⟩ := exists_cut_before significant? lines
  cases rest with
  | nil =>
    rw [List.append_nil]
    exact .inr ⟨[], .nil hbefore⟩
  | cons head tail =>
    obtain ⟨words, hwords⟩ := Option.isSome_iff_exists.1 (hrest head rfl)
    cases hhead : headOf? words with
    | none => exact .inl ⟨_, words, .mk hbefore hwords hhead⟩
    | some title =>
      have ht : HeadFirst (head :: tail) := by
        rintro _ ⟨⟩
        rw [titleOf?, hwords, Option.bind_some, hhead]
        rfl
      obtain ⟨blocks, hblocks⟩ := exists_grouped (number + before.length) _ ht
      exact .inr ⟨blocks, hblocks.behind hbefore⟩

/-- The scan comes to blocks just where the lines are grouped in them. -/
theorem grouped_iff {number : Nat} {lines : List Text} {blocks : List Block} :
    collectFrom number lines = .ok blocks ↔ Grouped number lines blocks := by
  refine ⟨fun h => ?_, Grouped.collectFrom⟩
  rcases stray_or_grouped number lines with ⟨_, _, hstray⟩ | ⟨blocks', hgrouped⟩
  · cases h.symm.trans hstray.collectFrom
  · cases h.symm.trans hgrouped.collectFrom
    exact hgrouped

end Grouping
end Block
end OrderedBnf
