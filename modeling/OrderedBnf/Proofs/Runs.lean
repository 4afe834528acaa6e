import OrderedBnf.Parse.Language
import OrderedBnf.Proofs.Trees

/-! A run of the descent, one node at a time: unless it is busy there already, a node yields what
the rules of ordered choice make of the runs below it. -/
namespace OrderedBnf

theorem exists_of_any {ε α : Type} {result : Except ε α} {p : α → Bool}
    (h : result.toOption.any p) : ∃ a, result = .ok a ∧ p a := by
  cases result with
  | ok a => exact ⟨a, rfl, h⟩
  | error => cases h

namespace Reader
open Attempt

section Loops
variable {step : Step Attempt}

theorem inTurn_steady (h : ∀ rule start, (step rule start).Steady) (parts : List Rule) :
    ∀ start, (inTurn step parts start).Steady := by
  induction parts with
  | nil => exact fun _ => steady_pure _
  | cons part rest ih =>
    intro start
    exact (h part start).bind fun tree => (ih tree.stop).bind fun _ => steady_pure _

theorem firstOf_steady (h : ∀ rule start, (step rule start).Steady) (start : Nat)
    (rules : List Rule) : (firstOf step start rules).Steady := by
  induction rules with
  | nil => exact steady_pure _
  | cons rule rest ih =>
    refine (h rule start).recover.bind fun out => ?_
    cases out with
    | ok tree => exact steady_pure _
    | error failure =>
      refine ih.bind fun out => ?_
      cases out <;> exact steady_pure _

theorem again_steady (h : ∀ rule start, (step rule start).Steady) (body : Rule) (rounds : Nat) :
    ∀ start, (again step body rounds start).Steady := by
  induction rounds with
  | zero => exact fun _ => steady_pure _
  | succ rounds ih =>
    intro start
    refine (h body start).recover.bind fun out => ?_
    cases out with
    | error failure => exact steady_pure _
    | ok tree =>
      dsimp only
      split
      · exact steady_pure _
      · exact (ih tree.stop).bind fun _ => steady_pure _

end Loops

/-- What a run comes to does not depend on how far the runs before it have reached. -/
theorem run_steady (r : Reader) (depth : Nat) : ∀ busy rule start,
    (r.run depth busy rule start).Steady := by
  induction depth with
  | zero => exact fun _ _ _ => steady_abort _
  | succ depth ih =>
    intro busy rule start
    unfold run
    split
    · exact steady_fail _ _ _
    · have hstep := ih ((start, rule) :: busy)
      unfold node
      split
      · exact r.matchLiteral_steady _ _
      · exact r.matchToken_steady _ _
      · exact r.matchIdentifier_steady _ _
      · exact r.matchNewLine_steady _ _
      · split
        · exact steady_fail _ _ _
        · exact r.matchExtension_steady _ _
        · exact hstep _ _
      · exact (inTurn_steady hstep _ _).bind fun _ => steady_pure _
      · refine (firstOf_steady hstep _ _).bind fun out => ?_
        cases out
        · exact steady_fail _ _ _
        · exact steady_pure _
      · refine (hstep _ _).recover.bind fun out => ?_
        cases out <;> exact steady_pure _
      · exact (again_steady hstep _ _ _).bind fun _ => steady_pure _

def answers (step : Step Attempt) : Answers := fun rule start out => (step rule start).result = out

section Results
variable {step : Step Attempt} (h : ∀ rule start, (step rule start).Steady)
include h

theorem inTurn_result (parts : List Rule) :
    ∀ start, InTurn (answers step) parts start (inTurn step parts start).result := by
  induction parts with
  | nil => exact fun _ => .done
  | cons part rest ih =>
    intro start
    have hs (tree : ParseTree) : (do return tree :: (← inTurn step rest tree.stop)).Steady :=
      (inTurn_steady h rest tree.stop).bind fun _ => steady_pure _
    rw [inTurn, result_bind _ hs]
    cases ht : (step part start).result with
    | error halt => exact .halt ht
    | ok tree =>
      rw [Except.bind, result_bind _ fun _ => steady_pure _]
      have hr := ih tree.stop
      cases hs : (inTurn step rest tree.stop).result with
      | error halt => exact .nextHalt ht (hs ▸ hr)
      | ok trees => exact .next ht (hs ▸ hr)

theorem firstOf_result (start : Nat) (rules : List Rule) :
    FirstOf (answers step) rules start (firstOf step start rules).result := by
  induction rules with
  | nil => exact .none
  | cons rule rest ih =>
    rw [firstOf, result_bind, result_recover]
    · cases ht : (step rule start).result with
      | ok tree => exact .here ht
      | error halt =>
        cases halt with
        | abort cause => exact .abort ht
        | failure failure =>
          dsimp only [Except.bind]
          rw [result_bind]
          · cases hs : (firstOf step start rest).result with
            | error halt => exact .laterHalt ht (hs ▸ ih)
            | ok out =>
              cases out with
              | ok places => exact .later ht (hs ▸ ih)
              | error failures => exact .nowhere ht (hs ▸ ih)
          · intro out
            cases out <;> exact steady_pure _
    · intro out
      cases out with
      | ok tree => exact steady_pure _
      | error failure =>
        refine (firstOf_steady h start rest).bind fun out => ?_
        cases out <;> exact steady_pure _

/-- Rounds that get on stay within `size`, so there are fewer of them than offsets left. -/
theorem again_result (body : Rule) (size : Nat)
    (hb : ∀ start tree, (step body start).result = .ok tree → start < tree.stop → tree.stop ≤ size)
    (rounds : Nat) : ∀ start, size - start < rounds →
      Again (answers step) start body (again step body rounds start).result := by
  induction rounds with
  | zero => exact fun _ hr => absurd hr (Nat.not_lt_zero _)
  | succ rounds ih =>
    intro start hr
    rw [again, result_bind, result_recover]
    · cases ht : (step body start).result with
      | error halt =>
        cases halt with
        | abort cause => exact .abort ht
        | failure failure => exact .failed ht
      | ok tree =>
        dsimp only [Except.bind]
        split
        · rename_i hs
          exact .stuck ht hs
        · rename_i hs
          have hlt := Nat.lt_of_not_le hs
          have hle := hb start tree ht hlt
          have hrest := ih tree.stop (by omega)
          rw [result_bind _ fun _ => steady_pure _]
          cases hg : (again step body rounds tree.stop).result with
          | error halt => exact .roundHalt ht hlt (hg ▸ hrest)
          | ok trees => exact .round ht hlt (hg ▸ hrest)
    · intro out
      cases out with
      | error failure => exact steady_pure _
      | ok tree =>
        dsimp only
        split
        · exact steady_pure _
        · exact (again_steady h body rounds tree.stop).bind fun _ => steady_pure _

end Results

def Lands (r : Reader) (start offset : Nat) : Prop := offset ≤ r.text.length ∨ offset = start

theorem Lands.trans {r : Reader} {a b c : Nat} (hab : r.Lands a b) (hbc : r.Lands b c) :
    r.Lands a c := by
  unfold Lands at *
  omega

theorem Lands.le_length {r : Reader} {start offset : Nat} (h : r.Lands start offset)
    (hs : start ≤ r.text.length) : offset ≤ r.text.length :=
  h.elim id fun he => he ▸ hs

section Landing
variable {answer : Answers} {r : Reader} {rule body : Rule} {rules parts : List Rule} {start : Nat}
  {onward : Nat → Nat → Prop}

private theorem InSuccession.leads (ht : ∀ {a b c}, onward a b → onward b c → onward a c)
    {good : Nat → ParseTree → Prop} (h : ∀ start tree, good start tree → onward start tree.stop)
    {trees : List ParseTree} : ∀ {start : Nat}, InSuccession good start trees →
      ∀ tree ∈ trees, onward start tree.stop := by
  induction trees with
  | nil => exact fun _ _ hm => absurd hm List.not_mem_nil
  | cons tree rest ih =>
    intro start hs tree' hm
    have hl := h start tree hs.1
    rcases List.mem_cons.1 hm with rfl | hm
    · exact hl
    · exact ht hl (ih hs.2 tree' hm)

section Following
variable (hr : ∀ a, onward a a) (ht : ∀ {a b c}, onward a b → onward b c → onward a c)
  (h : ∀ rule start tree, answer rule start (.ok tree) → onward start tree.stop)
include hr ht h

theorem Part.leads {part : Rule} {start' : Nat}
    (hp : Part answer parts start part start') : onward start start' := by
  induction hp with
  | first => exact hr _
  | later ha _ ih => exact ht (h _ _ _ ha) ih

private theorem Round.leads {start' : Nat} (hp : Round answer start body start') :
    onward start start' := by
  induction hp with
  | first => exact hr _
  | later ha _ _ ih => exact ht (h _ _ _ ha) ih

/-- Where every tree leads on from where it was tried, so do the tries of a node. -/
theorem Tries.leads {rule' : Rule} {start' : Nat} (htry : Tries answer r rule start rule' start') :
    onward start start' := by
  cases htry with
  | reference => exact hr _
  | sequence hp => exact hp.leads hr ht h
  | choice => exact hr _
  | optional => exact hr _
  | repetition hp => exact hp.leads hr ht h

/-- A tree leads onward where its leaves and its branches do. -/
theorem Builds.leads {tree : ParseTree} (hb : Builds answer r rule start tree)
    (hp : ∀ m, r.Placed rule start m → onward start m.stop) : onward start tree.stop := by
  cases hb with
  | leaf hm => exact hp _ hm
  | reference _ ha => exact h _ _ _ ha
  | @node _ _ kind branches hs =>
    rcases ParseTree.spanning_stop kind rule start branches with he | ⟨tree, hm, he⟩
    · rw [he]
      exact hr _
    · have hl := InSuccession.leads @ht (fun start tree ⟨_, _, ha⟩ => h _ start tree ha) hs tree
      rw [he]
      exact hl (List.mem_filterMap.2 ⟨some tree, hm, rfl⟩)

end Following

variable (h : ∀ rule start tree, answer rule start (.ok tree) → r.Lands start tree.stop)
include h

/-- A rule tries its parts at offsets of the text, or where it was tried itself. -/
theorem Tries.lands {rule' : Rule} {start' : Nat} (ht : Tries answer r rule start rule' start') :
    r.Lands start start' :=
  ht.leads (fun _ => .inr rfl) .trans h

/-- A rule that matches ends at an offset of the text, or where it was tried. -/
theorem Yields.lands {tree : ParseTree} (ho : Yields answer r rule start (.ok tree)) :
    r.Lands start tree.stop := by
  refine ho.builds.leads (fun _ => .inr rfl) .trans h fun m hp => ?_
  cases hp with
  | nothing => exact .inr rfl
  | newLine _ hl => exact .inl hl
  | word _ _ _ _ hl => exact .inl hl
  | extension _ _ _ _ _ hl => exact .inl (Int.toNat_le.2 hl)

end Landing

/-- A call that is open already is refused. -/
theorem run_busy {r : Reader} {depth : Nat} {busy : List (Nat × Rule)} {rule : Rule} {start : Nat}
    (hb : (start, rule) ∈ busy) : r.run (depth + 1) busy rule start =
      fail (.infiniteRecursion rule.describe) start [] := by
  rw [run, if_pos (List.contains_iff_mem.2 hb)]

/-- A call that is not open yet asks for the parts of its rule. -/
theorem run_of_not_busy {r : Reader} {depth : Nat} {busy : List (Nat × Rule)} {rule : Rule}
    {start : Nat} (hb : (start, rule) ∉ busy) : r.run (depth + 1) busy rule start =
      r.node r.matchLiteral (r.run depth ((start, rule) :: busy)) rule start := by
  rw [run, if_neg (by simpa using hb)]

private theorem run_yields_of_lands {r : Reader} {depth : Nat} {busy : List (Nat × Rule)}
    {rule : Rule} {start : Nat} (hb : (start, rule) ∉ busy)
    (hl : ∀ rule' start' tree,
      answers (r.run depth ((start, rule) :: busy)) rule' start' (.ok tree) →
        r.Lands start' tree.stop) :
    Yields (answers (r.run depth ((start, rule) :: busy))) r rule start
      (r.run (depth + 1) busy rule start).result := by
  rw [run_of_not_busy hb]
  unfold node
  have hstep := r.run_steady depth ((start, rule) :: busy)
  split
  · exact .literal
  · exact .anyToken
  · exact .anyIdentifier
  · exact .newLine
  · rename_i o
    split
    · exact .undefined ‹_›
    · exact .extension ‹_›
    · exact .reference ‹_› rfl
  · rename_i parts o
    rw [result_bind _ fun _ => steady_pure _]
    have ht := inTurn_result hstep parts start
    cases hr : (inTurn (r.run depth ((start, .sequence parts o) :: busy)) parts start).result with
    | error halt => exact .sequenceHalt (hr ▸ ht)
    | ok trees => exact .sequence (hr ▸ ht)
  · rename_i rules o
    have hf := firstOf_result hstep start rules
    rw [result_bind]
    · cases hr : (firstOf (r.run depth ((start, .choice rules o) :: busy)) start rules).result with
      | error halt => exact .choiceHalt (hr ▸ hf)
      | ok out =>
        cases out with
        | ok places => exact .choice (hr ▸ hf)
        | error failures => exact .noChoice (hr ▸ hf)
    · intro out
      cases out
      · exact steady_fail _ _ _
      · exact steady_pure _
  · rename_i body o
    rw [result_bind, result_recover]
    · cases hr : (r.run depth ((start, .optional body o) :: busy) body start).result with
      | ok tree => exact .present hr
      | error halt =>
        cases halt with
        | abort cause => exact .optionalAbort hr
        | failure failure => exact .absent hr
    · intro out
      cases out <;> exact steady_pure _
  · rename_i body o
    rw [result_bind _ fun _ => steady_pure _]
    have hg := again_result hstep body r.text.length
      (fun start' tree ha hlt => (hl _ _ _ ha).resolve_right (Nat.ne_of_gt hlt))
      (r.text.length + 1) start (by omega)
    cases hr : (again (r.run depth ((start, .repetition body o) :: busy)) body
        (r.text.length + 1) start).result with
    | error halt => exact .repetitionHalt (hr ▸ hg)
    | ok trees => exact .repetition (hr ▸ hg)

/-- A run ends at an offset of the text, or where it started. -/
theorem run_lands {r : Reader} (depth : Nat) : ∀ busy rule start tree,
    answers (r.run depth busy) rule start (.ok tree) → r.Lands start tree.stop := by
  induction depth with
  | zero => exact fun _ _ _ _ h => by cases h
  | succ depth ih =>
    intro busy rule start tree h
    by_cases hb : (start, rule) ∈ busy
    · rw [answers, run_busy hb] at h
      cases h
    · have hy := run_yields_of_lands hb (ih ((start, rule) :: busy))
      rw [show (r.run (depth + 1) busy rule start).result = .ok tree from h] at hy
      exact hy.lands (ih ((start, rule) :: busy))

/-- A run of a node that is not busy follows the rules of ordered choice. -/
theorem run_yields {r : Reader} {depth : Nat} {busy : List (Nat × Rule)} {rule : Rule}
    {start : Nat} (hb : (start, rule) ∉ busy) :
    Yields (answers (r.run depth ((start, rule) :: busy))) r rule start
      (r.run (depth + 1) busy rule start).result :=
  run_yields_of_lands hb (run_lands depth _)

/-- What every tree has that a node builds from trees that have it, every tree has that a run
gives. -/
theorem run_builds {r : Reader} (good : Rule → Nat → ParseTree → Prop)
    (h : ∀ rule start tree, Yields (fun rule start out => ∀ tree, out = .ok tree →
      good rule start tree) r rule start (.ok tree) → good rule start tree) :
    ∀ (depth : Nat) {busy : List (Nat × Rule)} {rule : Rule} {start : Nat} {tree : ParseTree},
      (r.run depth busy rule start).result = .ok tree → good rule start tree
  | 0, _, _, _, _, ho => by cases ho
  | depth + 1, busy, rule, start, tree, ho => by
    by_cases hb : (start, rule) ∈ busy
    · rw [run_busy hb] at ho
      cases ho
    · refine h rule start tree ((ho ▸ run_yields hb).imp fun rule' start' out _ ha tree' ht => ?_)
      exact run_builds good h depth (ha.trans ht)

section Congruence
variable {step step' : Step Attempt} (h : ∀ rule start, (step rule start).Steady)
include h

private theorem inTurn_congr (parts : List Rule) : ∀ start,
    (∀ part start', Part (answers step) parts start part start' →
      step part start' = step' part start') →
    inTurn step parts start = inTurn step' parts start := by
  induction parts with
  | nil => exact fun _ _ => rfl
  | cons part rest ih =>
    intro start hc
    rw [inTurn, inTurn, ← hc part start .first]
    refine bind_congr_of_result (h part start) fun tree ht => ?_
    rw [ih tree.stop fun _ _ hp => hc _ _ (.later ht hp)]

private theorem firstOf_congr (start : Nat) (rules : List Rule)
    (hc : ∀ rule, Alternative (answers step) rules start rule →
      step rule start = step' rule start) :
    firstOf step start rules = firstOf step' start rules := by
  induction rules with
  | nil => rfl
  | cons rule rest ih =>
    rw [firstOf, firstOf, ← hc rule .first]
    refine bind_congr_of_result (h rule start).recover fun out ho => ?_
    cases out with
    | ok tree => rfl
    | error failure =>
      dsimp only
      rw [ih fun _ hp => hc _ (.later (recover_eq_error.1 ho) hp)]

private theorem again_congr (body : Rule) (rounds : Nat) : ∀ start,
    (∀ start', Round (answers step) start body start' → step body start' = step' body start') →
    again step body rounds start = again step' body rounds start := by
  induction rounds with
  | zero => exact fun _ _ => rfl
  | succ rounds ih =>
    intro start hc
    rw [again, again, ← hc start .first]
    refine bind_congr_of_result (h body start).recover fun out ho => ?_
    cases out with
    | error failure => rfl
    | ok tree =>
      dsimp only
      split
      · rfl
      · rename_i hs
        rw [ih tree.stop fun _ hp =>
          hc _ (.later (recover_eq_ok.1 ho) (Nat.lt_of_not_le hs) hp)]

/-- What comes of a node depends on the nodes it tries and on no others. -/
theorem node_congr {r : Reader} {rule : Rule} {start : Nat}
    (hc : ∀ rule' start', Tries (answers step) r rule start rule' start' →
      step rule' start' = step' rule' start') :
    r.node r.matchLiteral step rule start = r.node r.matchLiteral step' rule start := by
  unfold node
  split
  · rfl
  · rfl
  · rfl
  · rfl
  · split
    · rfl
    · rfl
    · exact hc _ _ (.reference ‹_›)
  · rw [inTurn_congr h _ _ fun _ _ hp => hc _ _ (.sequence hp)]
  · rw [firstOf_congr h _ _ fun _ hp => hc _ _ (.choice hp)]
  · rw [hc _ _ .optional]
  · rw [again_congr h _ _ _ fun _ hp => hc _ _ (.repetition hp)]

end Congruence

/-- Two readers run alike where they make the same of a node, from nodes that the runs below agree
on. -/
theorem run_congr_reader {r r' : Reader} {depth depth' : Nat} {busy : List (Nat × Rule)}
    {rule : Rule} {start : Nat}
    (hn : (start, rule) ∉ busy →
      r.node r.matchLiteral (r'.run depth' ((start, rule) :: busy)) rule start =
        r'.node r'.matchLiteral (r'.run depth' ((start, rule) :: busy)) rule start)
    (hc : (start, rule) ∉ busy → ∀ rule' start',
      Tries (answers (r.run depth ((start, rule) :: busy))) r rule start rule' start' →
      r.run depth ((start, rule) :: busy) rule' start' =
        r'.run depth' ((start, rule) :: busy) rule' start') :
    r.run (depth + 1) busy rule start = r'.run (depth' + 1) busy rule start := by
  by_cases hb : (start, rule) ∈ busy
  · rw [run_busy hb, run_busy hb]
  · rw [run_of_not_busy hb, run_of_not_busy hb, ← hn hb]
    exact node_congr (r.run_steady depth _) (hc hb)

/-- A run depends on the body that a reference names and on the runs of the nodes it tries, and on
no more of the grammar. -/
theorem run_congr_grammar {r : Reader} {grammar : Grammar} {depth depth' : Nat}
    {busy : List (Nat × Rule)} {rule : Rule} {start : Nat}
    (hg : ∀ o, rule = .leaf .reference o →
      grammar.body? rule.target = r.grammar.body? rule.target)
    (hc : (start, rule) ∉ busy → ∀ rule' start',
      Tries (answers (r.run depth ((start, rule) :: busy))) r rule start rule' start' →
      r.run depth ((start, rule) :: busy) rule' start' =
        run { r with grammar := grammar } depth' ((start, rule) :: busy) rule' start') :
    r.run (depth + 1) busy rule start =
      run { r with grammar := grammar } (depth' + 1) busy rule start := by
  refine run_congr_reader (fun _ => ?_) hc
  unfold node
  split
  · rfl
  · rfl
  · rfl
  · rfl
  · rw [hg _ rfl]
    rfl
  · rfl
  · rfl
  · rfl
  · rfl

/-- A run depends on the runs of the nodes it tries and on no others. -/
theorem run_congr {r : Reader} {depth depth' : Nat} {busy : List (Nat × Rule)} {rule : Rule}
    {start : Nat}
    (hc : (start, rule) ∉ busy → ∀ rule' start',
      Tries (answers (r.run depth ((start, rule) :: busy))) r rule start rule' start' →
      r.run depth ((start, rule) :: busy) rule' start' =
        r.run depth' ((start, rule) :: busy) rule' start') :
    r.run (depth + 1) busy rule start = r.run (depth' + 1) busy rule start :=
  run_congr_grammar (fun _ _ => rfl) hc

end Reader

def Language.reader (language : Language) (text : Text) : Reader :=
  ⟨language.grammar, language.lexis, text, text.length⟩

/-- A parse gives the tree of a run of the start rule's body after which nothing but insignificant
text is left. -/
theorem Language.parse_ok {language : Language} {start : String} {text : Text}
    {filename : Option String} {tree : ParseTree}
    (h : language.parse start text filename = .ok tree) :
    ∃ body, language.grammar.body? start = some (some body) ∧
      ((language.reader text).run depthLimit [] body 0).result = .ok tree ∧
      ∃ stop, language.lexis.skip text tree.stop text.length = .ok stop ∧ text.length ≤ stop := by
  unfold parse at h
  dsimp only at h
  split at h
  · cases h
  · cases h
  · rename_i body hb
    split at h
    · cases h
    · cases h
    · cases h
    · rename_i tree' farthest ho
      split at h
      · cases h
      · rename_i stop hs
        split at h
        · rename_i hl
          cases h
          exact ⟨body, hb, congrArg Prod.fst ho, stop, hs, hl⟩
        · split at h <;> cases h

end OrderedBnf
