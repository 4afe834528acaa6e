import OrderedBnf.Proofs.Coverage
import OrderedBnf.Proofs.CycleGuard
import OrderedBnf.Proofs.Failing

/-! Grammars without left recursion. No rule of theirs comes back to itself before the match has
got on in the text, so there is nothing for the cycle guard to refuse. -/
namespace OrderedBnf
open Relation

theorem Rule.sizeOf_branch_lt {rule branch : Rule} (h : branch ∈ rule.branches) :
    sizeOf branch < sizeOf rule := by
  cases rule with
  | leaf => cases h
  | sequence rules =>
    have := List.sizeOf_lt_of_mem (show branch ∈ rules from h)
    simp only [Rule.sequence.sizeOf_spec]
    omega
  | choice rules =>
    have := List.sizeOf_lt_of_mem (show branch ∈ rules from h)
    simp only [Rule.choice.sizeOf_spec]
    omega
  | optional body =>
    cases List.mem_singleton.1 h
    simp only [Rule.optional.sizeOf_spec]
    omega
  | repetition body =>
    cases List.mem_singleton.1 h
    simp only [Rule.repetition.sizeOf_spec]
    omega

namespace Grammar

/-- The rules that may match without getting on in the text. An extension point is one of them,
whatever it is that it matches. -/
inductive Nullable (grammar : Grammar) : Rule → Prop
  | literal {o} : (Rule.leaf .literal o).literal = [] → Nullable grammar (.leaf .literal o)
  | extension {o} : grammar.body? (Rule.leaf .reference o).target = some none →
      Nullable grammar (.leaf .reference o)
  | reference {o body} : grammar.body? (Rule.leaf .reference o).target = some (some body) →
      Nullable grammar body → Nullable grammar (.leaf .reference o)
  | sequence {parts o} : (∀ part ∈ parts, Nullable grammar part) →
      Nullable grammar (.sequence parts o)
  | choice {rules o rule} : rule ∈ rules → Nullable grammar rule →
      Nullable grammar (.choice rules o)
  | optional {body o} : Nullable grammar (.optional body o)
  | repetition {body o} : Nullable grammar (.repetition body o)

/-- The rules that a rule can try without having got on: of a sequence, the parts that have none
but nullable ones before them. -/
inductive Enters (grammar : Grammar) : Rule → Rule → Prop
  | reference {o body} : grammar.body? (Rule.leaf .reference o).target = some (some body) →
      Enters grammar (.leaf .reference o) body
  | sequence {before part after o} : (∀ rule ∈ before, Nullable grammar rule) →
      Enters grammar (.sequence (before ++ part :: after) o) part
  | choice {rules o rule} : rule ∈ rules → Enters grammar (.choice rules o) rule
  | optional {body o} : Enters grammar (.optional body o) body
  | repetition {body o} : Enters grammar (.repetition body o) body

/-- No rule comes back to itself by rules tried without having got on. -/
def NonLeftRecursive (grammar : Grammar) : Prop :=
  ∀ rule ∈ grammar.nodes, ¬ TransGen (Enters grammar) rule rule

variable {grammar : Grammar} {rule rule' : Rule}

theorem Enters.branch_or_body (h : Enters grammar rule rule') :
    rule' ∈ rule.branches ∨ rule' ∈ grammar.nodes := by
  cases h with
  | reference hb => exact .inr (body_mem_nodes hb)
  | sequence => exact .inl (List.mem_append_right _ List.mem_cons_self)
  | choice hm => exact .inl hm
  | optional => exact .inl (List.mem_singleton.2 rfl)
  | repetition => exact .inl (List.mem_singleton.2 rfl)

/-- What a node of the grammar enters is a node of the grammar. -/
theorem Enters.mem_nodes (h : Enters grammar rule rule') (hr : rule ∈ grammar.nodes) :
    rule' ∈ grammar.nodes :=
  h.branch_or_body.elim (Grammar.mem_nodes hr) id

/-- From rule to rule a path leads down a tree of rules, until it comes to the grammar's own. -/
theorem smaller_or_mem_nodes (h : TransGen (Enters grammar) rule rule') :
    sizeOf rule' < sizeOf rule ∨ rule' ∈ grammar.nodes := by
  have hstep {rule rule' : Rule} (h : Enters grammar rule rule') :
      sizeOf rule' < sizeOf rule ∨ rule' ∈ grammar.nodes :=
    h.branch_or_body.imp_left Rule.sizeOf_branch_lt
  induction h with
  | single h => exact hstep h
  | tail _ h ih =>
    rcases ih with hlt | hm
    · exact (hstep h).imp_left fun hlt' => Nat.lt_trans hlt' hlt
    · exact .inr (h.mem_nodes hm)

/-- Nor does any rule outside the grammar come back to itself. -/
theorem NonLeftRecursive.acyclic (hg : grammar.NonLeftRecursive) (rule : Rule) :
    ¬ TransGen (Enters grammar) rule rule := fun h =>
  (smaller_or_mem_nodes h).elim (Nat.lt_irrefl _) fun hm => hg rule hm h

/-- A grammar is not left recursive if its rules have ranks that fall from each to those it
enters. -/
theorem nonLeftRecursive_of_rank (rank : Rule → Nat)
    (h : ∀ rule ∈ grammar.nodes, ∀ rule', Enters grammar rule rule' → rank rule' < rank rule) :
    grammar.NonLeftRecursive := by
  intro rule hr hcycle
  have hpath {rule' : Rule} (hp : TransGen (Enters grammar) rule rule') :
      rule' ∈ grammar.nodes ∧ rank rule' < rank rule := by
    induction hp with
    | single he => exact ⟨he.mem_nodes hr, h _ hr _ he⟩
    | tail _ he ih => exact ⟨he.mem_nodes ih.1, Nat.lt_trans (h _ ih.1 _ he) ih.2⟩
  exact Nat.lt_irrefl _ (hpath hcycle).2

end Grammar

/-- Hooks that never move backward: what comes after skipping, and the end of what an extension
matches, are not before the offset asked about. -/
structure Lexis.Onward (lexis : Lexis) (text : Text) (stop : Nat) : Prop where
  skip {start i : Nat} : lexis.skip text start stop = .ok i → start ≤ i
  extend {rule : Rule} {start : Nat} {found : Found} : start < stop →
    lexis.extend rule text start stop = .ok (some found) → start ≤ found.stop

theorem Lexis.plain_onward (text : Text) (stop : Nat) : Lexis.plain.Onward text stop where
  skip h := by
    change skipWhile _ _ _ _ = _ at h
    unfold skipWhile at h
    dsimp only at h
    split at h <;> cases h
    exact Nat.le_add_right _ _
  extend _ h := by cases h

namespace Reader
section Standing
variable {answer : Answers} {r : Reader} {rule : Rule} {parts : List Rule} {start : Nat}
  {tree : ParseTree}

structure Ahead (r : Reader) (rule : Rule) (start : Nat) (tree : ParseTree) : Prop where
  le : start ≤ tree.stop
  nullable : tree.stop ≤ start → r.grammar.Nullable rule

variable (h : ∀ rule start tree, answer rule start (.ok tree) → r.Ahead rule start tree)
include h

/-- Parts that match in turn never move backward. -/
theorem InTurn.ahead {trees : List ParseTree} (ho : InTurn answer parts start (.ok trees)) :
    start ≤ (trees.map ParseTree.stop).foldl max start ∧
      ((trees.map ParseTree.stop).foldl max start ≤ start →
        ∀ part ∈ parts, r.grammar.Nullable part) := by
  generalize ho' : Except.ok trees = out at ho
  induction ho generalizing trees with
  | done =>
    cases ho'
    exact ⟨Nat.le_refl _, fun _ _ hm => absurd hm List.not_mem_nil⟩
  | next ha _ ih =>
    cases ho'
    have hfirst := h _ _ _ ha
    obtain ⟨hle, hnull⟩ := ih rfl
    rw [List.map_cons, List.foldl_cons, Nat.max_eq_right hfirst.le]
    refine ⟨Nat.le_trans hfirst.le hle, fun hs => List.forall_mem_cons.2 ⟨?_, hnull ?_⟩⟩
    · exact hfirst.nullable (Nat.le_trans hle hs)
    · exact Nat.le_trans hs hfirst.le
  | _ => cases ho'

/-- A part of a sequence that is tried where the sequence stands has nullable ones before it. -/
theorem Part.ahead {part : Rule} {start' : Nat} (hp : Part answer parts start part start')
    (hs : start' ≤ start) :
    ∃ before after, parts = before ++ part :: after ∧ ∀ rule ∈ before, r.grammar.Nullable rule := by
  induction hp with
  | first => exact ⟨[], _, rfl, fun _ hm => absurd hm List.not_mem_nil⟩
  | @later first _ start _ _ _ ha hp ih =>
    have hfirst := h _ _ _ ha
    have hle := hp.leads Nat.le_refl Nat.le_trans fun _ _ _ ha => (h _ _ _ ha).le
    obtain ⟨before, after, rfl, hnull⟩ := ih (Nat.le_trans hs hfirst.le)
    exact ⟨first :: before, after, rfl,
      List.forall_mem_cons.2 ⟨hfirst.nullable (Nat.le_trans hle hs), hnull⟩⟩

/-- What a rule tries, it tries further on or enters. -/
theorem Tries.ahead {rule' : Rule} {start' : Nat} (ht : Tries answer r rule start rule' start') :
    start ≤ start' ∧ (start' ≤ start → r.grammar.Enters rule rule') := by
  refine ⟨ht.leads Nat.le_refl Nat.le_trans fun _ _ _ ha => (h _ _ _ ha).le,
    fun hs => ?_⟩
  cases ht with
  | reference hb => exact .reference hb
  | sequence hp =>
    obtain ⟨before, after, rfl, hnull⟩ := hp.ahead h hs
    exact .sequence hnull
  | choice hp => exact .choice hp.mem
  | optional => exact .optional
  | repetition => exact .repetition

/-- A rule that matches never moves backward, and moves on unless it may match nothing. -/
theorem Yields.ahead (hooks : r.lexis.Onward r.text r.stop)
    (ho : Yields answer r rule start (.ok tree)) : r.Ahead rule start tree := by
  have hle : start ≤ tree.stop := by
    refine ho.builds.leads Nat.le_refl Nat.le_trans
      (fun _ _ _ ha => (h _ _ _ ha).le) fun m hp => ?_
    cases hp with
    | nothing => exact Nat.le_refl _
    | newLine => exact Nat.le_succ _
    | word _ hi hlt => exact Nat.le_trans (hooks.skip hi) (Nat.le_of_lt hlt)
    | extension hi hlt hf =>
      have hskip := hooks.skip hi
      have hfound := hooks.extend hlt hf
      dsimp only
      omega
  refine ⟨hle, fun hs => ?_⟩
  generalize ho' : Except.ok tree = out at ho
  cases ho with
  | literal =>
    rcases matchLiteral_ok ho'.symm with ⟨hw, -, -⟩ | ⟨i, hw, hi, -, rfl⟩
    · exact .literal hw
    · have hskip := hooks.skip hi
      have hword := List.length_pos_iff.2 hw
      exact absurd (show i + _ ≤ start from hs) (by omega)
  | anyToken =>
    obtain ⟨i, last, hi, hlt, -, -, rfl⟩ := matchToken_ok ho'.symm
    have hskip := hooks.skip hi
    exact absurd (show last + 1 ≤ start from hs) (by omega)
  | anyIdentifier =>
    obtain ⟨i, c, rest, hi, -, -, -, rfl⟩ := matchIdentifier_ok ho'.symm
    have hskip := hooks.skip hi
    exact absurd (show i + (_ + 1) ≤ start from hs) (by omega)
  | newLine =>
    obtain ⟨rest, -, rfl⟩ := matchNewLine_ok ho'.symm
    exact absurd hs (Nat.not_succ_le_self _)
  | extension hb => exact .extension hb
  | reference hb ha => exact .reference hb ((h _ _ _ (ho' ▸ ha)).nullable hs)
  | sequence hp =>
    cases ho'
    refine .sequence ((hp.ahead h).2 ?_)
    rw [ParseTree.spanning_stop_eq] at hs
    · simpa [List.filterMap_map] using hs
    · intro first rest hf
      obtain rfl : _ = first :: rest := by simpa [List.filterMap_map] using hf
      cases hp with
      | next ha => exact (h _ _ _ ha).le
  | choice hf =>
    cases ho'
    obtain ⟨alternative, hr, tree, ha, hp⟩ := hf.filled
    refine .choice hr ((h _ _ _ ha).nullable ?_)
    rw [ParseTree.spanning, hp] at hs
    exact hs
  | present => exact .optional
  | absent => exact .optional
  | repetition => exact .repetition
  | _ => cases ho'

end Standing

section Guard
variable {r : Reader} (hooks : r.lexis.Onward r.text r.stop)
include hooks

theorem run_ahead (depth : Nat) {busy : List (Nat × Rule)} {rule : Rule} {start : Nat}
    {tree : ParseTree} (h : (r.run depth busy rule start).result = .ok tree) :
    r.Ahead rule start tree :=
  run_builds r.Ahead (fun _ _ _ ho => ho.ahead (fun _ _ tree ha => ha tree rfl) hooks) depth h

/-- The calls open around a call were made for earlier offsets, or the rule called is entered from
theirs. -/
theorem Reaches.enters {depth : Nat} {rule : Rule} {start : Nat} {c : Call}
    (h : r.Reaches ⟨depth, [], rule, start⟩ c) :
    ∀ around ∈ c.busy, around.1 ≤ c.start ∧
      (c.start ≤ around.1 → TransGen r.grammar.Enters around.2 c.rule) := by
  induction h with
  | refl => exact fun _ hm => absurd hm List.not_mem_nil
  | tail _ hn ih =>
    cases hn with
    | intro _ ht =>
      obtain ⟨hle, henters⟩ := ht.ahead fun _ _ _ => run_ahead hooks _
      refine List.forall_mem_cons.2 ⟨⟨hle, fun hs => .single (henters hs)⟩, fun around hm => ?_⟩
      obtain ⟨hle', hpath⟩ := ih around hm
      dsimp only at hle' hpath ⊢
      exact ⟨Nat.le_trans hle' hle, fun hs => .tail (hpath (by omega)) (henters (by omega))⟩

end Guard

def Plainspoken (r : Reader) : Prop := ∀ rule start failure,
  r.lexis.extend rule r.text start r.stop = .error (.failure failure) →
    failure.reason.isRecursion = false

variable {r : Reader}

theorem hereditary_nonRecursion (h : r.Plainspoken) (rule : Rule) (start : Nat) :
    r.Hereditary rule start fun failure => failure.reason.isRecursion = false where
  terminal reason _ hreason := by
    cases reason with
    | infiniteRecursion | statedRecursion => exact hreason.elim
    | _ => rfl
  undefined _ _ _ := rfl
  expected _ _ _ := rfl
  stated position failure he := h rule position failure he
  choice _ _ := rfl

/-- A call that nothing refuses does not fail for recursion. -/
theorem Unrefused.nonRecursion (h : r.Plainspoken) : ∀ {depth : Nat} {busy : List (Nat × Rule)}
    {rule : Rule} {start : Nat} {failure : Failure}, r.Unrefused ⟨depth, busy, rule, start⟩ →
      (r.run depth busy rule start).result = .error (.failure failure) →
      failure.reason.isRecursion = false
  | 0, _, _, _, _, _, ho => by cases ho
  | depth + 1, busy, rule, start, failure, hu, ho => by
    have hb : (start, rule) ∉ busy := hu _ .refl
    refine (ho ▸ run_yields hb).failsWith (hereditary_nonRecursion h rule start)
      fun rule' start' failure' ht ha => ?_
    exact (hu.nested (.intro hb ht)).nonRecursion h ha

/-- Without left recursion in the grammar, and with hooks that never move backward, no call in the
course of a match meets the cycle guard, whatever the rule, the range and the depth. So if no
extension states one, there is no failure about recursion in the course of it. -/
theorem unrefused_of_nonLeftRecursive (r : Reader) (hg : r.grammar.NonLeftRecursive)
    (hooks : r.lexis.Onward r.text r.stop) (depth : Nat) (rule : Rule) (start : Nat) :
    r.Unrefused ⟨depth, [], rule, start⟩ ∧
      (r.Plainspoken → ∀ c failure, r.Reaches ⟨depth, [], rule, start⟩ c →
        (r.run c.depth c.busy c.rule c.start).result = .error (.failure failure) →
        failure.reason.isRecursion = false) := by
  have hu : r.Unrefused ⟨depth, [], rule, start⟩ := fun _ hc hbusy =>
    hg.acyclic _ ((Reaches.enters hooks hc _ hbusy).2 (Nat.le_refl _))
  refine ⟨hu, fun h c failure hc ho => ?_⟩
  exact Unrefused.nonRecursion h (fun c' hc' => hu c' (hc.trans hc')) ho

/-- Rows of an `x`, each with an `a` before it or without: what a row ends with is a row again, but
not before an `x`. -/
def rowsReader : Reader where
  grammar :=
    let written := "['a'] 'x' [Row]".toList
    let part (start stop : Nat) : Origin := ⟨start, stop, false, none, written⟩
    .ofList [("Row", some (.sequence [.optional (.leaf .literal (part 1 4)) (part 0 5),
      .leaf .literal (part 6 9), .optional (.leaf .reference (part 11 14)) (part 10 15)]
      (part 0 15)))]
  lexis := .plain
  text := "ax x".toList
  stop := 4

def rowRank : Rule → Nat
  | .leaf .literal _ => 0
  | .optional (.leaf .literal _) _ => 1
  | .sequence .. => 2
  | .leaf .. => 3
  | _ => 4

theorem rows_nonLeftRecursive : rowsReader.grammar.NonLeftRecursive := by
  obtain ⟨o₁, o₂, o₃, o₄, o₅, o₆, hnodes, hbody, hx⟩ : ∃ o₁ o₂ o₃ o₄ o₅ o₆,
      rowsReader.grammar.nodes =
        [.sequence [.optional (.leaf .literal o₁) o₂, .leaf .literal o₃,
          .optional (.leaf .reference o₄) o₅] o₆, .optional (.leaf .literal o₁) o₂,
          .leaf .literal o₁, .leaf .literal o₃, .optional (.leaf .reference o₄) o₅,
          .leaf .reference o₄] ∧
        (∃ parts o, rowsReader.grammar.bodies = [.sequence parts o]) ∧
        (Rule.leaf .literal o₃).literal ≠ [] :=
    ⟨_, _, _, _, _, _, rfl, ⟨_, _, rfl⟩, by decide⟩
  refine Grammar.nonLeftRecursive_of_rank rowRank fun rule hr rule' he => ?_
  simp only [hnodes, List.mem_cons, List.not_mem_nil, or_false] at hr
  rcases hr with rfl | rfl | rfl | rfl | rfl | rfl
  · generalize hparts : [_, _, _] = parts at he
    cases he with
    | @sequence before _ _ _ hnull =>
      rcases before with _ | ⟨first, _ | ⟨second, before⟩⟩
      · cases hparts
        exact Nat.lt_succ_self 1
      · cases hparts
        exact Nat.zero_lt_two
      · have hsecond := hnull second (by simp)
        obtain ⟨-, rfl, -⟩ : _ ∧ Rule.leaf .literal o₃ = second ∧ _ := by simpa using hparts
        cases hsecond with
        | literal hword => exact absurd hword hx
  · cases he
    exact Nat.zero_lt_one
  · cases he
  · cases he
  · cases he
    exact Nat.lt_succ_self 3
  · cases he with
    | reference hb =>
      obtain ⟨parts, o, hbody⟩ := hbody
      obtain rfl := List.mem_singleton.1 (hbody ▸ Grammar.mem_bodies hb)
      exact Nat.lt_succ_self 2

theorem rows_unrefused : ∃ rule tree, rowsReader.grammar.body? "Row" = some (some rule) ∧
    rowsReader.Unrefused ⟨rowsReader.depthBound rule, [], rule, 0⟩ ∧
    (∀ c failure, rowsReader.Reaches ⟨rowsReader.depthBound rule, [], rule, 0⟩ c →
      (rowsReader.run c.depth c.busy c.rule c.start).result = .error (.failure failure) →
      failure.reason.isRecursion = false) ∧
    (rowsReader.attempt rule 0).result = .ok tree ∧ tree.stop = 4 := by
  obtain ⟨rule, hbody⟩ : ∃ rule, rowsReader.grammar.body? "Row" = some (some rule) := ⟨_, rfl⟩
  obtain ⟨hu, hfailures⟩ := unrefused_of_nonLeftRecursive rowsReader rows_nonLeftRecursive
    (Lexis.plain_onward _ _) (rowsReader.depthBound rule) rule 0
  have hplain : rowsReader.Plainspoken := fun _ _ _ he => by cases he
  cases hbody
  exact ⟨_, _, rfl, hu, hfailures hplain, rfl, rfl⟩

end Reader
end OrderedBnf
