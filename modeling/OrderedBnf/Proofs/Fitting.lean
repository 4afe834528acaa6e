import OrderedBnf.Parse.Decorated
import OrderedBnf.Proofs.Coverage
import OrderedBnf.Proofs.Layout
import OrderedBnf.Proofs.WellFormed

/-! Parse trees against their grammar: which trees a rule node has, clause by clause. -/
namespace OrderedBnf

namespace Reader

structure Reads (r : Reader) (start i : Nat) (word : Text) : Prop where
  skip : r.lexis.skip r.text start r.stop = .ok i
  covered : r.text.window i (i + word.length) = word
  within : i + word.length ≤ r.stop

def RunsOn (r : Reader) (word : Text) (stop : Nat) : Prop :=
  1 < word.length ∧ word.getLast?.any isLetter ∧ (r.text.drop stop).head?.any isLetter ∨
    r.lexis.isKeyword word ∧ (r.rest stop).head?.any isIdentifierChar

inductive Matches (r : Reader) : Rule → Nat → Match → Prop
  | nothing {o start} : (Rule.leaf .literal o).literal = [] →
      Matches r (.leaf .literal o) start ⟨.token, start, start, .leaf .literal o⟩
  | literal {o start i word} : (Rule.leaf .literal o).literal = word → word ≠ [] →
      r.Reads start i word → ¬ r.RunsOn word (i + word.length) →
      Matches r (.leaf .literal o) start ⟨.token, i, i + word.length, .leaf .literal o⟩
  | anyToken {o start i body word} : word = '\'' :: (body ++ ['\'']) → Escaped '\'' body →
      r.Reads start i word →
      Matches r (.leaf .anyToken o) start ⟨.token, i, i + word.length, .leaf .anyToken o⟩
  | anyIdentifier {o start i c rest word} : word = c :: rest → isIdentifierStart c →
      (∀ c ∈ rest, isIdentifierChar c) → r.Reads start i word →
      (r.rest (i + word.length)).head?.any isIdentifierChar = false →
      r.lexis.isKeyword word = false →
      Matches r (.leaf .anyIdentifier o) start
        ⟨.identifier, i, i + word.length, .leaf .anyIdentifier o⟩
  | newLine {o start} : start < r.stop → r.text[start]? = some '\n' →
      Matches r (.leaf .newLine o) start ⟨.token, start, start + 1, .leaf .newLine o⟩
  | extension {o start i found stop} :
      r.grammar.body? (Rule.leaf .reference o).target = some none →
      r.lexis.skip r.text start r.stop = .ok i → i < stop → stop ≤ r.stop →
      r.lexis.extend (.leaf .reference o) r.text i r.stop = .ok (some found) →
      found.start = i → found.stop = stop →
      Matches r (.leaf .reference o) start ⟨found.kind, i, stop, .leaf .reference o⟩

section Clauses
variable (fits : Rule → Nat → ParseTree → Prop)

inductive Row : List Rule → Nat → List ParseTree → Prop
  | nil {start} : Row [] start []
  | cons {part rest start tree trees} : fits part start tree → Row rest tree.stop trees →
      Row (part :: rest) start (tree :: trees)

inductive Rounds : Nat → Rule → List ParseTree → Prop
  | nil {start body} : Rounds start body []
  | cons {start body tree trees} : fits body start tree → tree.start < tree.stop →
      Rounds tree.stop body trees → Rounds start body (tree :: trees)

inductive Branches : Rule → Nat → List (Option ParseTree) → Prop
  | sequence {parts o start trees} : Row fits parts start trees →
      Branches (.sequence parts o) start (trees.map some)
  | choice {before rule after o start tree} : fits rule start tree →
      Branches (.choice (before ++ rule :: after) o) start
        (before.map (fun _ => none) ++ some tree :: after.map fun _ => none)
  | absent {body o start} : Branches (.optional body o) start []
  | present {body o start tree} : fits body start tree →
      Branches (.optional body o) start [some tree]
  | repetition {body o start trees} : Rounds fits start body trees →
      Branches (.repetition body o) start (trees.map some)

/-- A range from the start of the first tree to the end of the last, or an empty one at a cursor
where there is no tree. -/
def Spans (m : Match) (cursor : Nat) (trees : List ParseTree) : Prop :=
  m.start = (trees.head?.map ParseTree.start).getD cursor ∧
    m.stop = (trees.getLast?.map ParseTree.stop).getD cursor

inductive FitsBy (r : Reader) : Rule → Nat → ParseTree → Prop
  | leaf {rule start m} : r.Matches rule start m → FitsBy r rule start (.leaf m)
  | reference {o start body tree} :
      r.grammar.body? (Rule.leaf .reference o).target = some (some body) → fits body start tree →
      FitsBy r (.leaf .reference o) start tree
  | node {rule start m branches} : Branches fits rule start branches → m.kind = rule.kind →
      m.rule = rule → Spans m start (branches.filterMap id) →
      FitsBy r rule start (.node m branches)

end Clauses

/-- The trees of a rule node that is tried from an offset. -/
inductive Fits (r : Reader) : Rule → Nat → ParseTree → Prop
  | intro {rule start tree} : FitsBy (Fits r) r rule start tree → Fits r rule start tree

section Induction
variable {r : Reader} {rule : Rule} {start : Nat} {tree : ParseTree}

/-- What every tree has whose branches have it, every tree that fits has. -/
theorem Fits.ind {motive : Rule → Nat → ParseTree → Prop}
    (h : ∀ rule start tree,
      FitsBy (fun rule start tree => Fits r rule start tree ∧ motive rule start tree) r rule start
        tree → motive rule start tree)
    (hf : Fits r rule start tree) : motive rule start tree := by
  let both : Rule → Nat → ParseTree → Prop :=
    fun rule start tree => Fits r rule start tree ∧ motive rule start tree
  exact @Fits.rec r (fun rule start tree _ => motive rule start tree)
    (fun rule start tree _ => FitsBy both r rule start tree)
    (fun rule start branches _ => Branches both rule start branches)
    (fun parts start trees _ => Row both parts start trees)
    (fun start body trees _ => Rounds both start body trees)
    (fun _ => h _ _ _) .leaf (fun hb hf hm => .reference hb ⟨hf, hm⟩)
    (fun _ hk hr hs hb => .node hb hk hr hs) (fun _ => .sequence)
    (fun hf hm => .choice ⟨hf, hm⟩) .absent (fun hf hm => .present ⟨hf, hm⟩)
    (fun _ => .repetition) .nil (fun hf _ hm => .cons ⟨hf, hm⟩)
    .nil (fun hf hlt _ hm => .cons ⟨hf, hm⟩ hlt) _ _ _ hf

end Induction

end Reader

namespace Tree
variable {α β : Type}

theorem mapAll_eq (f : α → β) (branches : List (Option (Tree α))) :
    mapAll f branches = branches.map (Option.map (map f)) := by
  induction branches with
  | nil => rfl
  | cons branch rest ih => cases branch <;> simp [mapAll, ih]

theorem filterMap_mapAll (f : α → β) (branches : List (Option (Tree α))) :
    (mapAll f branches).filterMap id = (branches.filterMap id).map (map f) := by
  rw [mapAll_eq, List.filterMap_map, List.map_filterMap]
  rfl

theorem mem_mapAll {f : α → β} {branches : List (Option (Tree α))} {t : Tree β} :
    some t ∈ mapAll f branches ↔ ∃ t', some t' ∈ branches ∧ map f t' = t := by
  simp [mapAll_eq]

theorem label_map (f : α → β) (tree : Tree α) : label (map f tree) = f (label tree) := by
  cases tree
  rfl

end Tree

def ParseTree.ranges (tree : ParseTree) : Tree Mark := Tree.map (·.mark {}) tree

namespace Reader
variable {r : Reader} {start : Nat}

/-- A tree lies between the cursor and the end of the range, an empty one at the cursor, and so do
its branches, one after another. -/
structure Sits (r : Reader) (start : Nat) (tree : ParseTree) : Prop where
  ahead : start ≤ tree.start
  le : tree.start ≤ tree.stop
  within : tree.stop ≤ r.stop
  standing : tree.start = tree.stop → tree.stop = start
  nested : tree.ranges.WellFormed

theorem sits_leaf {m : Match} (ha : start ≤ m.start) (hle : m.start ≤ m.stop)
    (hw : m.stop ≤ r.stop) (hs : m.start = m.stop → m.stop = start) : r.Sits start (.leaf m) where
  ahead := ha
  le := hle
  within := hw
  standing := hs
  nested := .node (Int.ofNat_le.2 hle) (by simp [Tree.mapAll]) .nil (by simp [Tree.mapAll])

def lastStop (cursor : Nat) (trees : List ParseTree) : Nat :=
  (trees.getLast?.map ParseTree.stop).getD cursor

theorem lastStop_cons (cursor : Nat) (tree : ParseTree) (trees : List ParseTree) :
    lastStop cursor (tree :: trees) = lastStop tree.stop trees := by
  rw [lastStop, lastStop, List.getLast?_cons]
  cases trees.getLast? <;> rfl

theorem InSuccession.lastStop_le {trees : List ParseTree} : ∀ {start : Nat},
    InSuccession r.Sits start trees → start ≤ r.stop →
      start ≤ lastStop start trees ∧ lastStop start trees ≤ r.stop := by
  induction trees with
  | nil => exact fun _ hs => ⟨Nat.le_refl _, hs⟩
  | cons tree trees ih =>
    intro start h _
    obtain ⟨hle, hw⟩ := ih h.2 h.1.within
    rw [lastStop_cons]
    exact ⟨Nat.le_trans (Nat.le_trans h.1.ahead h.1.le) hle, hw⟩

/-- Trees that succeed one another lie between the start of the first and the end of the last. -/
theorem InSuccession.between {trees : List ParseTree} : ∀ {start : Nat},
    InSuccession r.Sits start trees → ∀ tree ∈ trees,
      start ≤ tree.start ∧ tree.stop ≤ lastStop start trees ∧ tree.ranges.WellFormed := by
  induction trees with
  | nil => exact fun _ _ ht => absurd ht List.not_mem_nil
  | cons tree trees ih =>
    intro start h tree' ht
    have hrest := (InSuccession.lastStop_le h.2 h.1.within).1
    rw [lastStop_cons]
    rcases List.mem_cons.1 ht with rfl | ht
    · exact ⟨h.1.ahead, hrest, h.1.nested⟩
    · obtain ⟨ha, hb⟩ := ih h.2 tree' ht
      exact ⟨Nat.le_trans (Nat.le_trans h.1.ahead h.1.le) ha, hb⟩

/-- Trees that succeed one another do not overlap. -/
theorem InSuccession.inOrder {trees : List ParseTree} : ∀ {start : Nat},
    InSuccession r.Sits start trees → trees.Pairwise fun a b => a.stop ≤ b.start := by
  induction trees with
  | nil => exact fun _ => .nil
  | cons tree trees ih =>
    intro start h
    exact .cons (fun tree' ht => (InSuccession.between h.2 tree' ht).1) (ih h.2)

theorem InSuccession.foldl_stop {trees : List ParseTree} : ∀ {start : Nat},
    InSuccession r.Sits start trees →
      (trees.map ParseTree.stop).foldl max start = lastStop start trees := by
  induction trees with
  | nil => exact fun _ => rfl
  | cons tree trees ih =>
    intro start h
    rw [lastStop_cons, List.map_cons, List.foldl_cons,
      Nat.max_eq_right (Nat.le_trans h.1.ahead h.1.le), ih h.2]

theorem sits_node {m : Match} {branches : List (Option ParseTree)} (hs : start ≤ r.stop)
    (hm : Spans m start (branches.filterMap id))
    (h : InSuccession r.Sits start (branches.filterMap id)) : r.Sits start (.node m branches) := by
  obtain ⟨hle, hw⟩ := InSuccession.lastStop_le h hs
  have hstop : m.stop = lastStop start (branches.filterMap id) := hm.2
  have hhead : start ≤ m.start ∧ m.start ≤ m.stop ∧ (m.start = m.stop → m.stop = start) ∧
      ∀ tree ∈ branches.filterMap id, m.start ≤ tree.start := by
    have hstart := hm.1
    rw [hstop]
    cases hb : branches.filterMap id with
    | nil =>
      rw [hb] at hstart
      cases hstart
      exact ⟨Nat.le_refl _, Nat.le_refl _, fun _ => rfl, fun _ ht => absurd ht List.not_mem_nil⟩
    | cons first rest =>
      rw [hb] at hstart h
      replace hstart : m.start = first.start := hstart
      have hrest := (InSuccession.lastStop_le h.2 h.1.within).1
      rw [lastStop_cons, hstart]
      refine ⟨h.1.ahead, Nat.le_trans h.1.le hrest, fun he => ?_, fun tree ht => ?_⟩
      · have hle := h.1.le
        exact (show lastStop first.stop rest = first.stop by omega).trans (h.1.standing (by omega))
      · rcases List.mem_cons.1 ht with rfl | ht
        · exact Nat.le_refl _
        · exact Nat.le_trans h.1.le (InSuccession.between h.2 tree ht).1
  obtain ⟨ha, hspan, hstand, hfirst⟩ := hhead
  refine ⟨ha, hspan, Nat.le_trans (Nat.le_of_eq hstop) hw, hstand, .node (Int.ofNat_le.2 hspan) ?_ ?_ ?_⟩
  · intro t ht
    obtain ⟨t, hbranch, rfl⟩ := Tree.mem_mapAll.1 ht
    have ht : t ∈ branches.filterMap id := by simpa using hbranch
    obtain ⟨-, hb, -⟩ := InSuccession.between h t ht
    rw [Tree.label_map]
    exact ⟨Int.ofNat_le.2 (hfirst t ht), Int.ofNat_le.2 (hstop ▸ hb)⟩
  · rw [Tree.filterMap_mapAll, List.pairwise_map]
    refine (InSuccession.inOrder h).imp fun {a b} hab => ?_
    rw [Tree.label_map, Tree.label_map]
    exact Int.ofNat_le.2 hab
  · intro t ht
    obtain ⟨t, hbranch, rfl⟩ := Tree.mem_mapAll.1 ht
    exact (InSuccession.between h t (by simpa using hbranch)).2.2

section Ranges
variable {fits : Rule → Nat → ParseTree → Prop} {rule body : Rule} {parts : List Rule}
  {trees : List ParseTree} (h : ∀ rule start tree, fits rule start tree → start ≤ r.stop →
    r.Sits start tree)
include h

/-- The trees of a sequence succeed one another. -/
theorem Row.inSuccession (hrow : Row fits parts start trees) (hs : start ≤ r.stop) :
    InSuccession r.Sits start trees := by
  induction hrow with
  | nil => trivial
  | cons hf _ ih =>
    have hsits := h _ _ _ hf hs
    exact ⟨hsits, ih hsits.within⟩

/-- The rounds of a repetition succeed one another. -/
theorem Rounds.inSuccession (hrounds : Rounds fits start body trees) (hs : start ≤ r.stop) :
    InSuccession r.Sits start trees := by
  induction hrounds with
  | nil => trivial
  | cons hf _ _ ih =>
    have hsits := h _ _ _ hf hs
    exact ⟨hsits, ih hsits.within⟩

/-- The branches of a node that are not absent succeed one another. -/
theorem Branches.inSuccession {branches : List (Option ParseTree)}
    (hb : Branches fits rule start branches) (hs : start ≤ r.stop) :
    InSuccession r.Sits start (branches.filterMap id) := by
  cases hb with
  | sequence hrow => simpa [List.filterMap_map] using hrow.inSuccession h hs
  | choice hf => simpa using ⟨h _ _ _ hf hs, trivial⟩
  | absent => trivial
  | present hf => exact ⟨h _ _ _ hf hs, trivial⟩
  | repetition hrounds => simpa [List.filterMap_map] using hrounds.inSuccession h hs

end Ranges

section Hooks
variable (hooks : r.lexis.Advances r.text r.stop)
include hooks

/-- A terminal sits where its match does. -/
theorem Matches.sits {rule : Rule} {m : Match} (hm : r.Matches rule start m)
    (hs : start ≤ r.stop) : r.Sits start (.leaf m) := by
  have hword {i : Nat} {word : Text} {kind : Kind} (hne : word ≠ []) (h : r.Reads start i word) :
      r.Sits start (.leaf ⟨kind, i, i + word.length, rule⟩) := by
    have hlength := List.length_pos_iff.2 hne
    refine sits_leaf (hooks.skip hs h.skip).1 (Nat.le_add_right _ _) h.within fun he => ?_
    dsimp only at he
    omega
  cases hm with
  | nothing => exact sits_leaf (Nat.le_refl _) (Nat.le_refl _) hs fun _ => rfl
  | literal _ hne h => exact hword hne h
  | anyToken hw _ h => exact hword (hw ▸ List.cons_ne_nil _ _) h
  | anyIdentifier hw _ _ h => exact hword (hw ▸ List.cons_ne_nil _ _) h
  | newLine hlt =>
    exact sits_leaf (Nat.le_refl _) (Nat.le_succ _) hlt fun he => absurd he (Nat.succ_ne_self _).symm
  | extension _ hi hlt hw =>
    exact sits_leaf (hooks.skip hs hi).1 (Nat.le_of_lt hlt) hw
      fun he => absurd he (Nat.ne_of_lt hlt)

/-- A tree that fits lies where it was tried, and its ranges nest. -/
theorem Fits.sits {rule : Rule} {tree : ParseTree} (hf : r.Fits rule start tree)
    (hs : start ≤ r.stop) : r.Sits start tree := by
  refine Fits.ind (motive := fun _ start tree => start ≤ r.stop → r.Sits start tree)
    (fun rule start tree hf hs => ?_) hf hs
  cases hf with
  | leaf hm => exact hm.sits hooks hs
  | reference _ hf => exact hf.2 hs
  | node hb _ _ hspan => exact sits_node hs hspan (hb.inSuccession (fun _ _ _ hf => hf.2) hs)

end Hooks

/-- No character that is looked for stands before the one found, but after a backslash. -/
theorem unescaped_escaped {p : Char → Bool} {mark : Char} (hmark : p mark) {i j : Nat} {text : Text}
    {c : Char} (h : text.unescaped p i = .ok (j, c)) :
    ∃ body rest, text = body ++ c :: rest ∧ p c ∧ Escaped mark body ∧ j = i + body.length := by
  fun_induction Text.unescaped p i text with
  | case1 => cases h
  | case2 => cases h
  | case3 i c' rest ih =>
    obtain ⟨body, rest', rfl, hc, hb, rfl⟩ := ih h
    exact ⟨'\\' :: c' :: body, rest', rfl, hc, .escape hb, by simp only [List.length_cons]; omega⟩
  | case4 i c' rest _ _ hp =>
    cases h
    exact ⟨[], rest, rfl, hp, .nil, rfl⟩
  | case5 i c' rest hone hmore hp ih =>
    obtain ⟨body, rest', rfl, hc, hb, rfl⟩ := ih h
    have hslash : c' ≠ '\\' := by
      rintro rfl
      cases body with
      | nil => exact hmore _ _ rfl rfl
      | cons d body => exact hmore _ _ rfl rfl
    have hother : c' ≠ mark := fun he => hp (he ▸ hmark)
    exact ⟨c' :: body, rest', rfl, hc, .plain hother hslash hb,
      by simp only [List.length_cons]; omega⟩

section Terminals
variable {rule : Rule} {i : Nat} {word : Text} {tree : ParseTree}

/-- A word at the head of what is left to be matched. -/
theorem reads_of_here (hi : r.lexis.skip r.text start r.stop = .ok i) (hne : word ≠ [])
    (hp : word <+: r.rest i) : r.Reads start i word := by
  obtain ⟨hs, -⟩ := rest_prefix_bound hp hne
  refine ⟨hi, ?_, hs⟩
  obtain ⟨rest, hrest⟩ := hp
  rw [Reader.rest, Text.window] at hrest
  have hlength : word.length ≤ r.stop - i := by omega
  rw [Text.window, Nat.add_sub_cancel_left, ← Nat.min_eq_left hlength, ← List.take_take, ← hrest,
    List.take_left]

theorem rest_add (r : Reader) (i n : Nat) : r.rest (i + n) = (r.rest i).drop n := by
  rw [rest, rest, Text.window, Text.window, List.drop_take, List.drop_drop, Nat.sub_add_eq]

theorem matchLiteral_matches {o : Origin}
    (h : (r.matchLiteral (.leaf .literal o) start).result = .ok tree) :
    ∃ m, tree = .leaf m ∧ r.Matches (.leaf .literal o) start m := by
  unfold matchLiteral matchWord at h
  dsimp only at h
  split at h
  · rename_i hw
    split at h
    · cases h
    · cases h
      exact ⟨_, rfl, .nothing hw⟩
  · rename_i hw
    obtain ⟨i, hi, _, h⟩ := significant_bind_ok h
    split at h
    · cases h
    · rename_i hp
      split at h
      · cases h
      · rename_i hword
        split at h
        · cases h
        · split at h
          · cases h
          · rename_i hkey
            refine ⟨_, accept_ok h, .literal rfl hw (reads_of_here hi hw (by simpa using hp)) ?_⟩
            rintro (⟨hlength, hlast, hnext⟩ | ⟨hk, hnext⟩)
            · exact hword (by rw [decide_eq_true hlength, hlast, hnext]; rfl)
            · exact hkey (by rw [hk, hnext]; rfl)

theorem matchToken_matches {o : Origin}
    (h : (r.matchToken (.leaf .anyToken o) start).result = .ok tree) :
    ∃ m, tree = .leaf m ∧ r.Matches (.leaf .anyToken o) start m := by
  obtain ⟨i, hi, _, h⟩ := significant_bind_ok h
  split at h
  · cases h
  · rename_i rest hrest
    split at h
    · rename_i last c hc
      obtain ⟨body, after, rfl, hmark, hb, rfl⟩ := unescaped_escaped (decide_eq_true rfl) hc
      cases of_decide_eq_true hmark
      have hp : '\'' :: (body ++ ['\'']) <+: r.rest i := ⟨after, by simp [hrest]⟩
      have hm := Matches.anyToken (o := o) rfl hb (reads_of_here hi (List.cons_ne_nil _ _) hp)
      refine ⟨_, (accept_ok h).trans ?_, hm⟩
      congr 2
      simp only [List.length_cons, List.length_append, List.length_nil]
      omega
    · split at h <;> cases h
  · cases h

theorem matchIdentifier_matches {o : Origin}
    (h : (r.matchIdentifier (.leaf .anyIdentifier o) start).result = .ok tree) :
    ∃ m, tree = .leaf m ∧ r.Matches (.leaf .anyIdentifier o) start m := by
  obtain ⟨i, c, rest, hi, hr, hc, hk, rfl⟩ := matchIdentifier_ok h
  have hp : c :: rest.takeWhile isIdentifierChar <+: r.rest i :=
    hr ▸ (List.prefix_cons_inj c).2 (List.takeWhile_prefix _)
  have hafter : r.rest (i + (c :: rest.takeWhile isIdentifierChar).length) =
      rest.dropWhile isIdentifierChar := by
    calc r.rest (i + (c :: rest.takeWhile isIdentifierChar).length)
        = (rest.takeWhile isIdentifierChar ++ rest.dropWhile isIdentifierChar).drop
            (rest.takeWhile isIdentifierChar).length := by
          rw [rest_add, hr, List.takeWhile_append_dropWhile]
          rfl
      _ = rest.dropWhile isIdentifierChar := List.drop_left
  refine ⟨_, rfl, .anyIdentifier rfl hc (List.all_eq_true.1 List.all_takeWhile)
    (reads_of_here hi (List.cons_ne_nil _ _) hp) ?_ hk⟩
  have hhead := List.head?_dropWhile_not isIdentifierChar rest
  rw [hafter]
  cases h : (rest.dropWhile isIdentifierChar).head? with
  | none => rfl
  | some d => simpa [h] using hhead

theorem matchNewLine_matches {o : Origin}
    (h : (r.matchNewLine (.leaf .newLine o) start).result = .ok tree) :
    ∃ m, tree = .leaf m ∧ r.Matches (.leaf .newLine o) start m := by
  obtain ⟨rest, hr, rfl⟩ := matchNewLine_ok h
  have hp : ['\n'] <+: r.rest start := hr ▸ ⟨rest, rfl⟩
  obtain ⟨hs, -⟩ := rest_prefix_bound hp (List.cons_ne_nil _ _)
  refine ⟨_, rfl, .newLine hs ?_⟩
  have hhead : (r.rest start).head? = some '\n' := hr ▸ rfl
  rw [Reader.rest, Text.window, List.head?_take, if_neg (Nat.sub_ne_zero_of_lt hs),
    List.head?_drop] at hhead
  exact hhead

theorem matchExtension_matches {o : Origin} (hooks : r.lexis.Advances r.text r.stop)
    (hb : r.grammar.body? (Rule.leaf .reference o).target = some none)
    (h : (r.matchExtension (.leaf .reference o) start).result = .ok tree) :
    ∃ m, tree = .leaf m ∧ r.Matches (.leaf .reference o) start m := by
  obtain ⟨i, found, hi, hlt, hf, _, _, _, rfl⟩ := matchExtension_ok h
  obtain ⟨hstart, hgt, hstop⟩ := hooks.extend hlt hf
  have hi' : found.start.toNat = i := by omega
  rw [hi']
  exact ⟨_, rfl, .extension hb hi (by omega) (by omega) hf hstart (by omega)⟩

end Terminals

section Building
variable {answer : Answers} {rule body : Rule} {rules parts : List Rule} {tree : ParseTree}
  {trees : List ParseTree} {fits : Rule → Nat → ParseTree → Prop}
  (h : ∀ rule start tree, answer rule start (.ok tree) → start ≤ r.stop → fits rule start tree)
  (hsits : ∀ rule start tree, fits rule start tree → start ≤ r.stop → r.Sits start tree)

section Loops
include h

include hsits in
/-- Parts that are answered in turn make up a row that fits. -/
theorem InTurn.row (ho : InTurn answer parts start (.ok trees)) (hs : start ≤ r.stop) :
    Row fits parts start trees := by
  generalize ho' : Except.ok trees = out at ho
  induction ho generalizing trees with
  | done =>
    cases ho'
    exact .nil
  | next ha _ ih =>
    cases ho'
    have hf := h _ _ _ ha hs
    exact .cons hf (ih (hsits _ _ _ hf hs).within rfl)
  | _ => cases ho'

/-- The first alternative that matches gives a branch, and all others are absent. -/
theorem FirstOf.branches {o : Origin} {places : List (Option ParseTree)}
    (ho : FirstOf answer rules start (.ok (.ok places))) (hs : start ≤ r.stop) :
    Branches fits (.choice rules o) start places := by
  generalize ho' : (Except.ok (.ok places) :
    Except Halt (Except (List Failure) (List (Option ParseTree)))) = out at ho
  induction ho generalizing places with
  | @here _ rest _ tree ha =>
    cases ho'
    exact @Branches.choice _ [] _ rest _ _ _ (h _ _ _ ha hs)
  | @later rule rest _ _ places _ _ ih =>
    cases ho'
    have hb := ih hs rfl
    generalize hr : Rule.choice rest o = choice at hb
    cases hb with
    | @choice before _ after _ _ _ hf =>
      cases hr
      exact @Branches.choice _ (rule :: before) _ after _ _ _ hf
    | _ => cases hr
  | _ => cases ho'

include hsits in
/-- A round that gets on is not empty, as an empty tree would stand where the round began. -/
theorem Again.rounds (ho : Again answer start body (.ok trees)) (hs : start ≤ r.stop) :
    Rounds fits start body trees := by
  generalize ho' : Except.ok trees = out at ho
  induction ho generalizing trees with
  | round ha hlt _ ih =>
    cases ho'
    have hf := h _ _ _ ha hs
    have hsit := hsits _ _ _ hf hs
    refine .cons hf (Nat.lt_of_le_of_ne hsit.le fun he => ?_) (ih hsit.within rfl)
    exact absurd (hsit.standing he) (Nat.ne_of_gt hlt)
  | failed =>
    cases ho'
    exact .nil
  | stuck =>
    cases ho'
    exact .nil
  | _ => cases ho'

end Loops

include hsits

theorem Branches.fitsBy {branches : List (Option ParseTree)}
    (hb : Branches fits rule start branches) (hs : start ≤ r.stop) :
    FitsBy fits r rule start (.spanning rule.kind rule start branches) := by
  have hi := hb.inSuccession hsits hs
  unfold ParseTree.spanning
  split
  · rename_i he
    exact .node hb rfl rfl (by rw [he]; exact ⟨rfl, rfl⟩)
  · rename_i first rest he
    rw [he] at hi
    refine .node hb rfl rfl ?_
    rw [he]
    refine ⟨rfl, ?_⟩
    rw [InSuccession.foldl_stop hi.2]
    exact (lastStop_cons start first rest).symm

include h

theorem Yields.fitsBy (hooks : r.lexis.Advances r.text r.stop) (hs : start ≤ r.stop)
    (ho : Yields answer r rule start (.ok tree)) : FitsBy fits r rule start tree := by
  generalize ho' : Except.ok tree = out at ho
  cases ho with
  | literal =>
    obtain ⟨m, rfl, hm⟩ := matchLiteral_matches ho'.symm
    exact .leaf hm
  | anyToken =>
    obtain ⟨m, rfl, hm⟩ := matchToken_matches ho'.symm
    exact .leaf hm
  | anyIdentifier =>
    obtain ⟨m, rfl, hm⟩ := matchIdentifier_matches ho'.symm
    exact .leaf hm
  | newLine =>
    obtain ⟨m, rfl, hm⟩ := matchNewLine_matches ho'.symm
    exact .leaf hm
  | extension hb =>
    obtain ⟨m, rfl, hm⟩ := matchExtension_matches hooks hb ho'.symm
    exact .leaf hm
  | reference hb ha => exact .reference hb (h _ _ _ (ho' ▸ ha) hs)
  | sequence ht =>
    cases ho'
    exact (Branches.sequence (InTurn.row h hsits ht hs)).fitsBy hsits hs
  | choice hf =>
    cases ho'
    exact (FirstOf.branches h hf hs).fitsBy hsits hs
  | present ha =>
    cases ho'
    exact (Branches.present (h _ _ _ ha hs)).fitsBy hsits hs
  | absent =>
    cases ho'
    exact Branches.absent.fitsBy hsits hs
  | repetition hg =>
    cases ho'
    exact (Branches.repetition (Again.rounds h hsits hg hs)).fitsBy hsits hs
  | _ => cases ho'

end Building

/-- A run within a range gives trees that fit. -/
theorem run_fits (hooks : r.lexis.Advances r.text r.stop) (depth : Nat) {busy : List (Nat × Rule)}
    {rule : Rule} {tree : ParseTree} (h : (r.run depth busy rule start).result = .ok tree)
    (hs : start ≤ r.stop) : r.Fits rule start tree := by
  refine run_builds (fun rule start tree => start ≤ r.stop → r.Fits rule start tree)
    (fun rule start tree hy hs => ?_) depth h hs
  exact .intro (hy.fitsBy (fun _ _ tree ha hs => ha tree rfl hs)
    (fun _ _ _ hf hs => hf.sits hooks hs) hooks hs)

section Inversion
variable {r : Reader} {body : Rule} {rules parts : List Rule} {o : Origin}

/-- A tree that fits a sequence has a branch for each of its parts. -/
theorem fits_sequence {first : Rule} {start : Nat} {tree : ParseTree}
    (h : r.Fits (.sequence (first :: parts) o) start tree) :
    ∃ (m : Match) (t : ParseTree) (ts : List ParseTree),
      tree = .node m (some t :: ts.map some) ∧ m.kind = .sequence ∧
      m.rule = .sequence (first :: parts) o ∧ m.start = t.start ∧ m.stop = lastStop t.stop ts ∧
      r.Fits first start t ∧ Row r.Fits parts t.stop ts := by
  cases h with
  | intro h =>
    cases h with
    | leaf hm => cases hm
    | node hb hk hr hspan =>
      cases hb with
      | sequence hrow =>
        cases hrow with
        | @cons _ _ _ t ts hf hrow =>
          rw [List.filterMap_map, Function.id_comp, List.filterMap_some] at hspan
          refine ⟨_, t, ts, rfl, hk, hr, hspan.1, ?_, hf, hrow⟩
          exact hspan.2.trans (lastStop_cons start t ts)

/-- A tree that fits a choice has one branch that is not absent. -/
theorem fits_choice {start : Nat} {tree : ParseTree} (h : r.Fits (.choice rules o) start tree) :
    ∃ (m : Match) (before after : List Rule) (alternative : Rule) (t : ParseTree),
      rules = before ++ alternative :: after ∧
      tree = .node m (before.map (fun _ => none) ++ some t :: after.map fun _ => none) ∧
      m.kind = .choice ∧ m.rule = .choice rules o ∧ m.start = t.start ∧ m.stop = t.stop ∧
      r.Fits alternative start t := by
  cases h with
  | intro h =>
    cases h with
    | leaf hm => cases hm
    | node hb hk hr hspan =>
      cases hb with
      | @choice before alternative after _ _ t hf =>
        rw [filterMap_single] at hspan
        exact ⟨_, before, after, alternative, t, rfl, rfl, hk, hr, hspan.1, hspan.2, hf⟩

/-- A tree that fits an optional is empty where it was tried, or holds what its body matches. -/
theorem fits_optional {start : Nat} {tree : ParseTree}
    (h : r.Fits (.optional body o) start tree) :
    (∃ m : Match, tree = .node m [] ∧ m.kind = .optional ∧ m.rule = .optional body o ∧
      m.start = start ∧ m.stop = start) ∨
    ∃ (m : Match) (t : ParseTree), tree = .node m [some t] ∧ m.kind = .optional ∧
      m.rule = .optional body o ∧ m.start = t.start ∧ m.stop = t.stop ∧ r.Fits body start t := by
  cases h with
  | intro h =>
    cases h with
    | leaf hm => cases hm
    | node hb hk hr hspan =>
      cases hb with
      | absent => exact .inl ⟨_, rfl, hk, hr, hspan.1, hspan.2⟩
      | present hf => exact .inr ⟨_, _, rfl, hk, hr, hspan.1, hspan.2, hf⟩

/-- A tree that fits a repetition has a branch for each round. -/
theorem fits_repetition {start : Nat} {tree : ParseTree}
    (h : r.Fits (.repetition body o) start tree) :
    ∃ (m : Match) (trees : List ParseTree), tree = .node m (trees.map some) ∧
      m.kind = .repetition ∧ m.rule = .repetition body o ∧ Spans m start trees ∧
      Rounds r.Fits start body trees := by
  cases h with
  | intro h =>
    cases h with
    | leaf hm => cases hm
    | node hb hk hr hspan =>
      cases hb with
      | @repetition _ _ _ trees hrounds =>
        rw [List.filterMap_map, Function.id_comp, List.filterMap_some] at hspan
        exact ⟨_, trees, rfl, hk, hr, hspan, hrounds⟩

end Inversion

/-- The first branch of a node is a match from where the node is tried. -/
theorem Branches.first {fits : Rule → Nat → ParseTree → Prop} {rule : Rule} {start : Nat}
    {branches : List (Option ParseTree)} (hb : Branches fits rule start branches)
    {tree : ParseTree} {rest : List ParseTree} (h : branches.filterMap id = tree :: rest) :
    ∃ part, fits part start tree := by
  cases hb with
  | sequence hrow =>
    cases hrow with
    | nil => cases h
    | cons hf =>
      cases h
      exact ⟨_, hf⟩
  | @choice _ _ _ _ _ found hf =>
    have hone : [found] = tree :: rest := by simpa using h
    cases hone
    exact ⟨_, hf⟩
  | absent => cases h
  | present hf =>
    cases h
    exact ⟨_, hf⟩
  | repetition hrounds =>
    cases hrounds with
    | nil => cases h
    | cons hf =>
      cases h
      exact ⟨_, hf⟩

theorem Matches.rule_eq {r : Reader} {rule : Rule} {start : Nat} {m : Match}
    (h : r.Matches rule start m) :
    m.rule = rule := by
  cases h <;> rfl

/-- A branch of a node is a tree of one of the parts of its rule, tried at an offset with a property
that the ends of the trees before it have as well. -/
theorem Branches.mem_from {fits : Rule → Nat → ParseTree → Prop} {place : Nat → Prop} {rule : Rule}
    {start : Nat} {branches : List (Option ParseTree)} (h : Branches fits rule start branches)
    (hs : place start) (hstop : ∀ part start t, fits part start t → place start → place t.stop)
    {t : ParseTree} (ht : some t ∈ branches) :
    ∃ part ∈ rule.branches, ∃ start, place start ∧ fits part start t := by
  cases h with
  | @sequence parts o _ trees hrow =>
    have ht : t ∈ trees := by simpa using ht
    clear * - hrow ht hs hstop
    induction hrow with
    | nil => cases ht
    | cons hf _ ih =>
      rcases List.mem_cons.1 ht with rfl | ht
      · exact ⟨_, List.mem_cons_self, _, hs, hf⟩
      · obtain ⟨part, hm, hf⟩ := ih (hstop _ _ _ hf hs) ht
        exact ⟨part, List.mem_cons_of_mem _ hm, hf⟩
  | @choice before part after o _ tree hf =>
    have ht : t = tree := by simpa using ht
    exact ⟨part, by simp [Rule.branches], _, hs, ht ▸ hf⟩
  | absent => cases ht
  | @present body _ _ _ hf =>
    cases List.mem_singleton.1 ht
    exact ⟨body, List.mem_singleton.2 rfl, _, hs, hf⟩
  | @repetition body _ _ trees hrounds =>
    have ht : t ∈ trees := by simpa using ht
    clear * - hrounds ht hs hstop
    induction hrounds with
    | nil => cases ht
    | cons hf _ _ ih =>
      rcases List.mem_cons.1 ht with rfl | ht
      · exact ⟨_, List.mem_singleton.2 rfl, _, hs, hf⟩
      · exact ih (hstop _ _ _ hf hs) ht

/-- A branch of a node is a tree of one of the parts of its rule. -/
theorem Branches.mem {fits : Rule → Nat → ParseTree → Prop} {rule : Rule} {start : Nat}
    {branches : List (Option ParseTree)} (h : Branches fits rule start branches) {t : ParseTree}
    (ht : some t ∈ branches) : ∃ part ∈ rule.branches, ∃ start, fits part start t := by
  obtain ⟨part, hpart, start, -, hf⟩ :=
    @mem_from fits (fun _ => True) _ _ _ h trivial (fun _ _ _ _ _ => trivial) t ht
  exact ⟨part, hpart, start, hf⟩

/-- What lies between the offset where a match is tried and its tree was skipped. -/
theorem Fits.skipped {r : Reader} {skips : Text → Prop} (hnil : skips [])
    (hskip : ∀ {start i}, start ≤ r.stop → r.lexis.skip r.text start r.stop = .ok i → i < r.stop →
      skips (r.text.window start i))
    {rule : Rule} {start : Nat} {tree : ParseTree} (hf : r.Fits rule start tree)
    (hs : start ≤ r.stop) : skips (r.text.window start tree.start) := by
  have hself (i : Nat) : skips (r.text.window i i) := by
    rw [Text.window_self]
    exact hnil
  refine Fits.ind (motive := fun _ start tree => start ≤ r.stop →
    skips (r.text.window start tree.start)) (fun rule start tree hf hs => ?_) hf hs
  have hread {i : Nat} {word : Text} (h : r.Reads start i word) (hne : word ≠ []) :
      skips (r.text.window start i) :=
    hskip hs h.skip
      (Nat.lt_of_lt_of_le (Nat.lt_add_of_pos_right (List.length_pos_iff.2 hne)) h.within)
  cases hf with
  | leaf hm =>
    cases hm with
    | nothing => exact hself _
    | literal _ hne h => exact hread h hne
    | anyToken hw _ h => exact hread h (hw ▸ List.cons_ne_nil _ _)
    | anyIdentifier hw _ _ h => exact hread h (hw ▸ List.cons_ne_nil _ _)
    | newLine => exact hself _
    | extension _ hi hlt hw => exact hskip hs hi (Nat.lt_of_lt_of_le hlt hw)
  | reference _ hf => exact hf.2 hs
  | @node _ _ m branches hb _ _ hspan =>
    change skips (r.text.window start m.start)
    rw [hspan.1]
    cases hbranches : branches.filterMap id with
    | nil => exact hself _
    | cons first rest =>
      obtain ⟨part, -, hfirst⟩ := hb.first hbranches
      exact hfirst hs

/-- Every tree that a match gives fits the grammar, node by node, with hooks that keep to the
range: a leaf is the word that its rule asks for, a reference has a tree of the body that is meant
or a leaf of the extension, and a node has the branches that its kind asks for and reaches over
them exactly. The tree lies within the range, and its branches lie within their nodes, in order. -/
theorem match_fits (r : Reader) (hooks : r.lexis.Advances r.text r.stop) {rule : Rule}
    {start farthest : Nat} (hs : start ≤ r.stop) {tree : ParseTree}
    (h : ((r.attempt rule start).outcome farthest).1 = .ok tree) :
    r.Fits rule start tree ∧ start ≤ tree.start ∧ tree.start ≤ tree.stop ∧ tree.stop ≤ r.stop ∧
      tree.ranges.WellFormed := by
  rw [attempt, (r.run_steady _ _ _ _).outcome_fst] at h
  have hf := run_fits hooks _ h hs
  have hsits := hf.sits hooks hs
  exact ⟨hf, hsits.ahead, hsits.le, hsits.within, hsits.nested⟩

theorem two_lines_fit : ∃ body tree, twoLines.grammar.body? "Lines" = some (some body) ∧
    (((twoLines.reader " a\n b".toList).attempt body 0).outcome 0).1 = .ok tree ∧
    (twoLines.reader " a\n b".toList).Fits body 0 tree ∧ tree.start = 1 ∧ tree.stop = 5 := by
  refine ⟨_, _, rfl, rfl, ?_, rfl, rfl⟩
  exact (@match_fits _ (Lexis.plain_advances _ _) _ _ 0 (Nat.zero_le _) _ rfl).1

end Reader
end OrderedBnf
