import OrderedBnf.Proofs.Announcing

/-! Instrumented texts letter by letter: the characters of the program, and among them what stands
before and after each statement. -/
namespace OrderedBnf.StatementTrace

/-- A character of the program, or what is put before or after the statement with a number. -/
inductive Letter where
  | char (c : Char)
  | opens (number : Nat)
  | closes (number : Nat)
  deriving DecidableEq, Repr

namespace Letter

def render (call : String) : Letter → Text
  | char c => [c]
  | opens number => heralding call number
  | closes _ => [' ', '}']

def char? : Letter → Option Char
  | char c => some c
  | _ => none

def opened? : Letter → Option Nat
  | opens number => some number
  | _ => none

def closed? : Letter → Option Nat
  | closes number => some number
  | _ => none

theorem mem_opened {number : Nat} {word : List Letter} :
    number ∈ word.filterMap opened? ↔ opens number ∈ word := by
  rw [List.mem_filterMap]
  refine ⟨fun ⟨l, hl, hn⟩ => ?_, fun h => ⟨_, h, rfl⟩⟩
  cases l with
  | opens => exact Option.some.inj hn ▸ hl
  | _ => cases hn

theorem mem_closed {number : Nat} {word : List Letter} :
    number ∈ word.filterMap closed? ↔ closes number ∈ word := by
  rw [List.mem_filterMap]
  refine ⟨fun ⟨l, hl, hn⟩ => ?_, fun h => ⟨_, h, rfl⟩⟩
  cases l with
  | closes => exact Option.some.inj hn ▸ hl
  | _ => cases hn

section Chars
variable (text : Text)

theorem filterMap_char : (text.map char).filterMap char? = text := by
  rw [List.filterMap_map]
  exact List.filterMap_some

theorem filterMap_opened : (text.map char).filterMap opened? = [] := by
  rw [List.filterMap_map]
  exact List.filterMap_eq_nil_iff.2 fun _ _ => rfl

theorem filterMap_closed : (text.map char).filterMap closed? = [] := by
  rw [List.filterMap_map]
  exact List.filterMap_eq_nil_iff.2 fun _ _ => rfl

theorem flatMap_render (call : String) : (text.map char).flatMap (render call) = text := by
  rw [List.flatMap_map]
  exact List.flatMap_singleton' text

end Chars

def Ends (word : List Letter) : Prop :=
  ∃ front c back, word = front ++ char c :: back ∧ ∀ l ∈ back, ∃ number, l = closes number

theorem Ends.prepend {word : List Letter} (h : Ends word) (before : List Letter) :
    Ends (before ++ word) := by
  obtain ⟨front, c, back, rfl, hback⟩ := h
  exact ⟨before ++ front, c, back, (List.append_assoc ..).symm, hback⟩

theorem Ends.close {word : List Letter} (h : Ends word) (number : Nat) :
    Ends (word ++ [closes number]) := by
  obtain ⟨front, c, back, rfl, hback⟩ := h
  refine ⟨front, c, back ++ [closes number], by simp, fun l hl => ?_⟩
  rcases List.mem_append.1 hl with hl | hl
  · exact hback l hl
  · exact ⟨number, List.mem_singleton.1 hl⟩

theorem ends_chars {text : Text} (h : text ≠ []) : Ends (text.map char) := by
  refine ⟨text.dropLast.map char, text.getLast h, [], ?_, List.forall_mem_nil _⟩
  rw [← List.map_singleton, ← List.map_append, List.dropLast_append_getLast]

end Letter

def isStatement (node : ParseTree) : Bool :=
  (Tree.label node).ruleName? = some "Statement" &&
    (chosen? node).any fun inner => (Tree.label inner).ruleName? ≠ some "Block"

theorem isStatement_eq (node : ParseTree) : isStatement node = (announced? node).isSome := by
  rw [isStatement, announced?]
  by_cases hname : (Tree.label node).ruleName? = some "Statement"
  · cases chosen? node with
    | none => simp
    | some inner =>
      by_cases hblock : (Tree.label inner).ruleName? = some "Block"
      · simp [hname, hblock]
      · simp [hname, hblock]
  · simp [hname]

def statements (tree : ParseTree) : List ParseTree :=
  (Tree.subtrees tree).filter isStatement

def statementsOfAll (branches : List (Option ParseTree)) : List ParseTree :=
  (Tree.subtreesOfAll branches).filter isStatement

section Statements
variable {m : Match} {branches rest : List (Option ParseTree)} {tree : ParseTree}

theorem statements_node : statements (.node m branches) =
    (if isStatement (.node m branches) then [.node m branches] else []) ++
      statementsOfAll branches := by
  rw [statements, Tree.subtrees, List.filter_cons, statementsOfAll]
  split <;> rfl

/-- A statement that is announced comes before the statements within it. -/
theorem statements_announced {start : Nat} (h : announced? (.node m branches) = some start) :
    statements (.node m branches) = .node m branches :: statementsOfAll branches := by
  rw [statements_node, isStatement_eq, h]
  rfl

theorem statements_plain (h : announced? (.node m branches) = none) :
    statements (.node m branches) = statementsOfAll branches := by
  rw [statements_node, isStatement_eq, h]
  rfl

theorem statementsOfAll_some : statementsOfAll (some tree :: rest) =
    statements tree ++ statementsOfAll rest := by
  rw [statementsOfAll, Tree.subtreesOfAll, List.filter_append]
  rfl

end Statements

mutual
def letters (text : Text) (count : Nat) : ParseTree → List Letter
  | .node m branches =>
    if (announced? (.node m branches)).isSome then
      .opens (count + 1) ::
        (lettersOfAll text (count + 1) m.start m.stop branches ++ [.closes (count + 1)])
    else lettersOfAll text count m.start m.stop branches

def lettersOfAll (text : Text) (count cursor stop : Nat) : List (Option ParseTree) → List Letter
  | [] => (text.window cursor stop).map .char
  | none :: rest => lettersOfAll text count cursor stop rest
  | some tree :: rest =>
    (text.window cursor tree.start).map .char ++ (letters text count tree ++
      lettersOfAll text (count + (statements tree).length) tree.stop stop rest)
end

mutual
/-- A tree whose branches lie one after another, and in which a statement has some text before those
within it. -/
def Fronted : ParseTree → Prop
  | .node m branches =>
    (∀ start, announced? (.node m branches) = some start → start = m.start ∧ m.start < m.stop ∧
      ∀ s ∈ statementsOfAll branches, m.start < s.start) ∧
    FrontedAll m.start m.stop branches

def FrontedAll (cursor stop : Nat) : List (Option ParseTree) → Prop
  | [] => cursor ≤ stop
  | none :: rest => FrontedAll cursor stop rest
  | some tree :: rest => (cursor ≤ tree.start ∧ tree.start ≤ tree.stop) ∧ Fronted tree ∧
      FrontedAll tree.stop stop rest
end

section Letters
variable {text : Text} {call : String} {count : Nat}

/-- The letters of a statement open it, spell it and close it. -/
theorem letters_announced {m : Match} {branches : List (Option ParseTree)} {start : Nat}
    (h : announced? (.node m branches) = some start) : letters text count (.node m branches) =
      .opens (count + 1) ::
        (lettersOfAll text (count + 1) m.start m.stop branches ++ [.closes (count + 1)]) := by
  rw [letters, h]
  rfl

theorem letters_plain {m : Match} {branches : List (Option ParseTree)}
    (h : announced? (.node m branches) = none) : letters text count (.node m branches) =
      lettersOfAll text count m.start m.stop branches := by
  rw [letters, h]
  rfl

theorem FrontedAll.le {cursor stop : Nat} {branches : List (Option ParseTree)}
    (h : FrontedAll cursor stop branches) : cursor ≤ stop := by
  induction branches generalizing cursor with
  | nil => exact h
  | cons branch rest ih =>
    cases branch with
    | none => exact ih h
    | some t => exact Nat.le_trans (Nat.le_trans h.1.1 h.1.2) (ih h.2.2)

theorem Fronted.le : ∀ {tree : ParseTree}, Fronted tree → tree.start ≤ tree.stop
  | .node _ _, h => FrontedAll.le h.2

mutual
/-- The characters are those of the tree. -/
theorem chars_letters (count : Nat) : ∀ {tree : ParseTree}, Fronted tree →
    (letters text count tree).filterMap Letter.char? = text.window tree.start tree.stop
  | .node m branches, h => by
    cases hs : announced? (.node m branches) with
    | none => exact letters_plain hs ▸ chars_lettersOfAll count h.2
    | some start =>
      rw [letters_announced hs, List.filterMap_cons_none rfl, List.filterMap_append,
        chars_lettersOfAll (count + 1) h.2]
      exact List.append_nil _

/-- The characters among the letters are those of the text. -/
theorem chars_lettersOfAll (count : Nat) : ∀ {cursor stop : Nat}
    {branches : List (Option ParseTree)}, FrontedAll cursor stop branches →
      (lettersOfAll text count cursor stop branches).filterMap Letter.char? =
        text.window cursor stop
  | cursor, stop, [], _ => Letter.filterMap_char _
  | cursor, stop, none :: rest, h => @chars_lettersOfAll count cursor stop rest h
  | cursor, stop, some tree :: rest, ⟨⟨hc, hle⟩, htree, hrest⟩ => by
    rw [lettersOfAll, List.filterMap_append, List.filterMap_append, Letter.filterMap_char,
      chars_letters count htree, chars_lettersOfAll _ hrest,
      ← text.window_append hle hrest.le, ← text.window_append hc (Nat.le_trans hle hrest.le)]
end

mutual
/-- Each statement is opened once, in walking order. -/
theorem opened_letters (count : Nat) : ∀ tree : ParseTree,
    (letters text count tree).filterMap Letter.opened? =
      List.range' (count + 1) (statements tree).length
  | .node m branches => by
    cases hs : announced? (.node m branches) with
    | none => rw [letters_plain hs, statements_plain hs, opened_lettersOfAll count]
    | some start =>
      rw [letters_announced hs, statements_announced hs, List.length_cons, List.range'_succ,
        List.filterMap_cons_some (show Letter.opened? (.opens (count + 1)) = some _ from rfl),
        List.filterMap_append, opened_lettersOfAll (count + 1)]
      exact congrArg _ (List.append_nil _)

/-- Statements are opened in the order of their numbers, each of them once. -/
theorem opened_lettersOfAll (count : Nat) : ∀ {cursor stop : Nat}
    (branches : List (Option ParseTree)),
      (lettersOfAll text count cursor stop branches).filterMap Letter.opened? =
        List.range' (count + 1) (statementsOfAll branches).length
  | _, _, [] => Letter.filterMap_opened _
  | _, _, none :: rest => opened_lettersOfAll count rest
  | _, _, some tree :: rest => by
    rw [lettersOfAll, List.filterMap_append, List.filterMap_append, Letter.filterMap_opened,
      opened_letters count tree, opened_lettersOfAll _ rest, statementsOfAll_some,
      List.length_append, List.nil_append, ← List.range'_append_1, Nat.add_right_comm]
end

mutual
/-- Each statement is closed once. -/
theorem closed_letters (count : Nat) : ∀ tree : ParseTree,
    ((letters text count tree).filterMap Letter.closed?).Perm
      (List.range' (count + 1) (statements tree).length)
  | .node m branches => by
    cases hs : announced? (.node m branches) with
    | none =>
      rw [letters_plain hs, statements_plain hs]
      exact closed_lettersOfAll count branches
    | some start =>
      rw [letters_announced hs, statements_announced hs, List.length_cons, List.range'_succ,
        List.filterMap_cons_none rfl, List.filterMap_append]
      exact (List.perm_append_singleton ..).trans ((closed_lettersOfAll (count + 1) branches).cons _)

/-- Every statement that is opened is closed once. -/
theorem closed_lettersOfAll (count : Nat) : ∀ {cursor stop : Nat}
    (branches : List (Option ParseTree)),
      ((lettersOfAll text count cursor stop branches).filterMap Letter.closed?).Perm
        (List.range' (count + 1) (statementsOfAll branches).length)
  | _, _, [] => .of_eq (Letter.filterMap_closed _)
  | _, _, none :: rest => closed_lettersOfAll count rest
  | _, _, some tree :: rest => by
    rw [lettersOfAll, List.filterMap_append, List.filterMap_append, Letter.filterMap_closed,
      statementsOfAll_some, List.length_append, List.nil_append, ← List.range'_append_1,
      Nat.add_right_comm]
    exact (closed_letters count tree).append (closed_lettersOfAll _ rest)
end

mutual
/-- The statements up to the end of a tree are those before it and those in it, by their starts. -/
theorem announced_eq (starts : List Nat) : ∀ {tree : ParseTree}, Fronted tree →
    announced call starts tree = starts ++ (statements tree).map ParseTree.start
  | .node m branches, h => by
    cases hs : announced? (.node m branches) with
    | none => rw [announced_plain hs, statements_plain hs, announcedAll_eq starts h.2]
    | some start =>
      rw [announced_announced hs, statements_announced hs, announcedAll_eq _ h.2,
        List.append_assoc, (h.1 start hs).1]
      rfl

theorem announcedAll_eq (starts : List Nat) : ∀ {cursor stop : Nat}
    {branches : List (Option ParseTree)}, FrontedAll cursor stop branches →
      announcedAll call starts branches =
        starts ++ (statementsOfAll branches).map ParseTree.start
  | _, _, [], _ => (List.append_nil _).symm
  | cursor, stop, none :: rest, h => @announcedAll_eq starts cursor stop rest h
  | _, _, some tree :: rest, ⟨_, htree, hrest⟩ => by
    rw [announcedAll_some, announced_eq starts htree, announcedAll_eq _ hrest,
      statementsOfAll_some, List.map_append, List.append_assoc]
end

mutual
theorem letters_empty (count : Nat) : ∀ {tree : ParseTree}, Fronted tree →
    tree.start = tree.stop → letters text count tree = []
  | .node m branches, h, he => by
    cases hs : announced? (.node m branches) with
    | none => exact (letters_plain hs).trans (lettersOfAll_empty count h.2 he)
    | some start => exact absurd he (Nat.ne_of_lt (h.1 start hs).2.1)

theorem lettersOfAll_empty (count : Nat) : ∀ {cursor stop : Nat}
    {branches : List (Option ParseTree)}, FrontedAll cursor stop branches → cursor = stop →
      lettersOfAll text count cursor stop branches = []
  | cursor, stop, [], _, he => by
    rw [lettersOfAll, he, Text.window, Nat.sub_self]
    rfl
  | cursor, stop, none :: rest, h, he => @lettersOfAll_empty count cursor stop rest h he
  | cursor, stop, some tree :: rest, ⟨⟨hc, hle⟩, htree, hrest⟩, he => by
    have hstop := hrest.le
    have hstart : cursor = tree.start := by omega
    rw [lettersOfAll, letters_empty count htree (by omega), lettersOfAll_empty _ hrest (by omega),
      hstart, Text.window, Nat.sub_self]
    rfl
end

mutual
/-- The letters are a way to write what is spelled. -/
theorem render_letters : ∀ {starts : List Nat} {tree : ParseTree}, Fronted tree →
    (letters text starts.length tree).flatMap (Letter.render call) =
      spelled text call starts tree
  | starts, .node m branches, h => by
    by_cases he : m.start = m.stop
    · rw [spelled_empty he, letters_empty starts.length h he]
      rfl
    cases hs : announced? (.node m branches) with
    | none => rw [letters_plain hs, spelled_plain hs he, render_lettersOfAll h.2]
    | some start =>
      have hlength : (starts ++ [start]).length = starts.length + 1 := List.length_append
      rw [letters_announced hs, spelled_announced hs he, ← hlength, List.flatMap_cons,
        List.flatMap_append, render_lettersOfAll h.2]
      rfl

theorem render_lettersOfAll : ∀ {starts : List Nat} {cursor stop : Nat}
    {branches : List (Option ParseTree)}, FrontedAll cursor stop branches →
      (lettersOfAll text starts.length cursor stop branches).flatMap (Letter.render call) =
        spelledAll text call starts cursor stop branches
  | _, _, _, [], _ => (Letter.flatMap_render _ call).trans spelledAll_nil.symm
  | starts, cursor, stop, none :: rest, h => @render_lettersOfAll starts cursor stop rest h
  | starts, cursor, stop, some tree :: rest, ⟨_, htree, hrest⟩ => by
    have hlength : (announced call starts tree).length =
        starts.length + (statements tree).length := by
      rw [announced_eq starts htree, List.length_append, List.length_map]
    rw [lettersOfAll, List.flatMap_append, List.flatMap_append, Letter.flatMap_render,
      render_letters htree, ← hlength, render_lettersOfAll hrest, spelledAll_some]
end

end Letters
end OrderedBnf.StatementTrace
