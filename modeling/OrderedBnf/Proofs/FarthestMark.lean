import Mathlib.Order.Bounds.Basic
import OrderedBnf.Proofs.Coverage
import OrderedBnf.Proofs.Nesting

/-! How far a match gets: the greatest end of a leaf that was matched in its course, whatever became
of that leaf. -/
namespace OrderedBnf
open Relation

namespace Attempt
variable {α β : Type} {a : Attempt α} {p q : Nat → Prop}

/-- What an attempt reaches is the farthest of some offsets, and nothing if there are none. -/
structure Farthest (a : Attempt α) (p : Nat → Prop) : Prop where
  le : ∀ offset, p offset → offset ≤ a.reached
  attained : 0 < a.reached → p a.reached

theorem Farthest.congr (h : a.Farthest p) (hpq : ∀ offset, q offset ↔ p offset) :
    a.Farthest q where
  le offset hq := h.le offset ((hpq offset).1 hq)
  attained hpos := (hpq _).2 (h.attained hpos)

theorem farthest_self (a : Attempt α) : a.Farthest (· = a.reached) where
  le _ h := Nat.le_of_eq h
  attained _ := rfl

theorem farthest_zero (ha : a.reached = 0) (h : ∀ offset, ¬ p offset) : a.Farthest p where
  le _ hp := absurd hp (h _)
  attained hpos := absurd (ha ▸ hpos) (Nat.lt_irrefl 0)

theorem Farthest.recover (h : a.Farthest p) : (recover a).Farthest p where
  le offset hp := reached_recover a ▸ h.le offset hp
  attained := reached_recover a ▸ h.attained

/-- Two attempts one after the other reach the farthest of the offsets that either of them has. -/
theorem Farthest.bind {f : α → Attempt β} {q : α → Nat → Prop} (ha : a.Steady)
    (hf : ∀ x, (f x).Steady) (hp : a.Farthest p)
    (hq : ∀ x, a.result = .ok x → (f x).Farthest (q x)) :
    (a >>= f).Farthest fun offset => p offset ∨ ∃ x, a.result = .ok x ∧ q x offset := by
  have hbind := reached_bind ha hf
  cases hr : a.result with
  | error halt =>
    replace hbind : (a >>= f).reached = a.reached := by rw [hbind, hr]
    refine ⟨fun offset h => ?_, fun hpos => .inl ?_⟩
    · obtain h | ⟨x, ⟨⟩, -⟩ := h
      exact Nat.le_trans (hp.le offset h) (Nat.le_of_eq hbind.symm)
    · rw [hbind] at hpos ⊢
      exact hp.attained hpos
  | ok x =>
    replace hbind : (a >>= f).reached = max a.reached (f x).reached := by rw [hbind, hr]
    have hx := hq x hr
    refine ⟨fun offset h => ?_, fun hpos => ?_⟩
    · rw [hbind]
      rcases h with h | ⟨_, ⟨⟩, h⟩
      · exact Nat.le_trans (hp.le offset h) (Nat.le_max_left _ _)
      · exact Nat.le_trans (hx.le offset h) (Nat.le_max_right _ _)
    · rw [hbind] at hpos ⊢
      rcases Nat.le_total a.reached (f x).reached with hle | hle
      · rw [Nat.max_eq_right hle] at hpos ⊢
        exact .inr ⟨x, rfl, hx.attained hpos⟩
      · rw [Nat.max_eq_left hle] at hpos ⊢
        exact .inl (hp.attained hpos)

/-- Nothing is added by what reaches nothing. -/
theorem Farthest.bind_zero {f : α → Attempt β} (ha : a.Steady) (hf : ∀ x, (f x).Steady)
    (hp : a.Farthest p) (hzero : ∀ x, (f x).reached = 0) : (a >>= f).Farthest p :=
  (hp.bind ha hf fun x _ => farthest_zero (p := fun _ => False) (hzero x) fun _ => id).congr
    fun offset => by simp

theorem Farthest.isGreatest (h : a.Farthest p) (ha : a.Steady) (farthest : Nat) :
    IsGreatest (insert farthest {offset | p offset}) (a.outcome farthest).2 := by
  rw [ha farthest]
  constructor
  · rcases Nat.lt_or_ge farthest a.reached with hlt | hge
    · dsimp only
      rw [Nat.max_eq_right (Nat.le_of_lt hlt)]
      exact .inr (h.attained (Nat.zero_lt_of_lt hlt))
    · exact .inl (Nat.max_eq_left hge)
  · rintro _ (rfl | hp)
    · exact Nat.le_max_left _ _
    · exact Nat.le_trans (h.le _ hp) (Nat.le_max_right _ _)

end Attempt

namespace Reader
open Attempt

section Loops
variable {step : Step Attempt} (hstep : ∀ rule start, (step rule start).Steady)
include hstep

theorem inTurn_farthest (parts : List Rule) : ∀ start, (inTurn step parts start).Farthest
    fun offset => ∃ part start', Part (answers step) parts start part start' ∧
      (step part start').reached = offset := by
  induction parts with
  | nil => exact fun _ => farthest_zero rfl fun _ ⟨_, _, hp, _⟩ => by cases hp
  | cons part rest ih =>
    intro start
    refine ((step part start).farthest_self.bind (hstep part start)
      (fun tree => (inTurn_steady hstep rest tree.stop).bind fun _ => steady_pure _)
      fun tree _ => (ih tree.stop).bind_zero (inTurn_steady hstep rest tree.stop)
        (fun _ => steady_pure _) fun _ => rfl).congr fun offset => ?_
    constructor
    · rintro ⟨_, _, hp, rfl⟩
      cases hp with
      | first => exact .inl rfl
      | later ha hp => exact .inr ⟨_, ha, _, _, hp, rfl⟩
    · rintro (rfl | ⟨tree, ha, _, _, hp, rfl⟩)
      · exact ⟨_, _, .first, rfl⟩
      · exact ⟨_, _, .later ha hp, rfl⟩

theorem firstOf_farthest (start : Nat) (rules : List Rule) : (firstOf step start rules).Farthest
    fun offset => ∃ rule, Alternative (answers step) rules start rule ∧
      (step rule start).reached = offset := by
  induction rules with
  | nil => exact farthest_zero rfl fun _ ⟨_, hp, _⟩ => by cases hp
  | cons rule rest ih =>
    refine ((step rule start).farthest_self.recover.bind (hstep rule start).recover
      (q := fun out offset => ∃ failure rule', out = .error failure ∧
        Alternative (answers step) rest start rule' ∧ (step rule' start).reached = offset)
      ?_ ?_).congr fun offset => ?_
    · intro out
      cases out with
      | ok tree => exact steady_pure _
      | error failure =>
        refine (firstOf_steady hstep start rest).bind fun out => ?_
        cases out <;> exact steady_pure _
    · intro out _
      cases out with
      | ok tree => exact farthest_zero rfl fun _ ⟨_, _, h, _⟩ => by cases h
      | error failure =>
        refine (ih.bind_zero (firstOf_steady hstep start rest) ?_ ?_).congr fun offset => ?_
        · rintro (_ | _) <;> exact steady_pure _
        · rintro (_ | _) <;> rfl
        · exact ⟨fun ⟨_, rule', _, h⟩ => ⟨rule', h⟩, fun ⟨rule', h⟩ => ⟨_, rule', rfl, h⟩⟩
    · constructor
      · rintro ⟨_, hp, rfl⟩
        cases hp with
        | first => exact .inl rfl
        | later ha hp => exact .inr ⟨_, recover_eq_error.2 ha, _, _, rfl, hp, rfl⟩
      · rintro (rfl | ⟨_, ha, _, _, rfl, hp, rfl⟩)
        · exact ⟨_, .first, rfl⟩
        · exact ⟨_, .later (recover_eq_error.1 ha) hp, rfl⟩

/-- Rounds that get on stay within `size`, so there are fewer of them than offsets left. -/
theorem again_farthest (body : Rule) (size : Nat)
    (hb : ∀ start tree, (step body start).result = .ok tree → start < tree.stop → tree.stop ≤ size)
    (rounds : Nat) : ∀ start, size - start < rounds → (again step body rounds start).Farthest
      fun offset => ∃ start', Round (answers step) start body start' ∧
        (step body start').reached = offset := by
  induction rounds with
  | zero => exact fun _ hr => absurd hr (Nat.not_lt_zero _)
  | succ rounds ih =>
    intro start hr
    refine ((step body start).farthest_self.recover.bind (hstep body start).recover
      (q := fun out offset => ∃ tree start', out = .ok tree ∧ start < tree.stop ∧
        Round (answers step) tree.stop body start' ∧ (step body start').reached = offset)
      ?_ ?_).congr fun offset => ?_
    · intro out
      cases out with
      | error failure => exact steady_pure _
      | ok tree =>
        dsimp only
        split
        · exact steady_pure _
        · exact (again_steady hstep body rounds tree.stop).bind fun _ => steady_pure _
    · intro out ha
      cases out with
      | error failure => exact farthest_zero rfl fun _ ⟨_, _, h, _⟩ => by cases h
      | ok tree =>
        dsimp only
        split
        · rename_i hs
          refine farthest_zero rfl fun _ ⟨_, _, h, hlt, _⟩ => ?_
          cases h
          exact Nat.not_lt.2 hs hlt
        · rename_i hs
          have hlt := Nat.lt_of_not_le hs
          have hle := hb start tree (recover_eq_ok.1 ha) hlt
          refine ((ih tree.stop (by omega)).bind_zero (again_steady hstep body rounds tree.stop)
            (fun _ => steady_pure _) fun _ => rfl).congr fun offset => ⟨?_, ?_⟩
          · rintro ⟨_, start', ⟨⟩, -, h⟩
            exact ⟨start', h⟩
          · rintro ⟨start', h⟩
            exact ⟨_, start', rfl, hlt, h⟩
    · constructor
      · rintro ⟨_, hp, rfl⟩
        cases hp with
        | first => exact .inl rfl
        | later ha hs hp => exact .inr ⟨_, recover_eq_ok.2 ha, _, _, rfl, hs, hp, rfl⟩
      · rintro (rfl | ⟨_, ha, _, _, rfl, hs, hp, rfl⟩)
        · exact ⟨_, .first, rfl⟩
        · exact ⟨_, .later (recover_eq_ok.1 ha) hs hp, rfl⟩

end Loops

def Gives (a : Attempt ParseTree) (m : Match) : Prop := a.result = .ok (.leaf m) ∧ m.start < m.stop

def Marks (a : Attempt ParseTree) : Prop :=
  a.Farthest fun offset => ∃ m, Gives a m ∧ m.stop = offset

section Terminals
variable {r : Reader} {rule : Rule} {start : Nat}

theorem marks_error {a : Attempt ParseTree} {halt : Halt} (hr : a.result = .error halt)
    (hz : a.reached = 0) : Marks a :=
  farthest_zero hz fun _ ⟨_, ⟨hm, _⟩, _⟩ => by cases hr.symm.trans hm

theorem marks_fail {reason : Reason} {position : Nat} {causes : List Failure} :
    Marks (fail reason position causes) := marks_error rfl rfl

theorem marks_abort {cause : Abort} : Marks (abort cause) := marks_error rfl rfl

theorem marks_accept {kind : Kind} {stop : Nat} (h : start < stop) :
    Marks (accept kind rule start stop) := by
  have hr : (accept kind rule start stop).reached = stop := Nat.zero_max stop
  refine ⟨?_, fun _ => ⟨_, ⟨rfl, h⟩, hr.symm⟩⟩
  rintro _ ⟨m, ⟨hm, -⟩, rfl⟩
  cases hm
  exact Nat.le_of_eq hr.symm

theorem significant_marks {f : Nat → Attempt ParseTree} (h : ∀ i < r.stop, Marks (f i)) :
    Marks (r.significant start >>= f) := by
  have hzero := r.significant_reached start
  have ho : (r.significant start >>= f).outcome 0 = match (r.significant start).result with
      | .ok i => (f i).outcome 0
      | .error halt => (.error halt, 0) := by
    rw [outcome_bind,
      show (r.significant start).outcome 0 = ((r.significant start).result, 0) from
        Prod.ext rfl hzero]
    cases (r.significant start).result <;> rfl
  cases hs : (r.significant start).result with
  | error halt =>
    rw [hs] at ho
    exact marks_error (congrArg Prod.fst ho) (congrArg Prod.snd ho)
  | ok i =>
    have hi : i < r.stop := significant_lt hs
    rw [hs] at ho
    have hsame : (r.significant start >>= f).result = (f i).result ∧
        (r.significant start >>= f).reached = (f i).reached :=
      ⟨congrArg Prod.fst ho, congrArg Prod.snd ho⟩
    unfold Marks Gives
    rw [hsame.1]
    exact ⟨hsame.2 ▸ (h i hi).le, hsame.2 ▸ (h i hi).attained⟩

theorem matchToken_marks : Marks (r.matchToken rule start) := by
  refine significant_marks fun i _ => ?_
  split
  · exact marks_abort
  · rename_i rest _
    have hu := Text.unescaped_offset (· = '\'') (i + 1) rest
    split
    · rename_i last c hc
      rw [hc] at hu
      exact marks_accept (by dsimp only at hu; omega)
    · split
      · exact marks_abort
      · exact marks_fail
  · exact marks_fail

theorem matchIdentifier_marks : Marks (r.matchIdentifier rule start) := by
  refine significant_marks fun i _ => ?_
  split
  · exact marks_abort
  · split
    · exact marks_fail
    · dsimp only
      split
      · exact marks_abort
      · split
        · exact marks_fail
        · exact marks_accept (Nat.lt_add_of_pos_right (Nat.succ_pos _))

theorem matchNewLine_marks : Marks (r.matchNewLine rule start) := by
  unfold matchNewLine
  split
  · exact marks_abort
  · split
    · exact marks_accept (Nat.lt_succ_self _)
    · exact marks_fail

theorem matchLiteral_marks : Marks (r.matchLiteral rule start) := by
  unfold matchLiteral matchWord
  dsimp only
  split
  · split
    · exact marks_abort
    · refine farthest_zero rfl fun _ ⟨m, ⟨hm, hlt⟩, _⟩ => ?_
      cases hm
      exact Nat.lt_irrefl _ hlt
  · rename_i hword
    refine significant_marks fun i _ => ?_
    split
    · exact marks_fail
    · split
      · exact marks_fail
      · split
        · exact marks_abort
        · split
          · exact marks_fail
          · exact marks_accept (Nat.lt_add_of_pos_right (List.length_pos_iff.2 hword))

variable (hooks : r.lexis.Advances r.text r.stop)
include hooks

theorem matchExtension_marks : Marks (r.matchExtension rule start) := by
  refine significant_marks fun i hi => ?_
  split
  · exact marks_error rfl rfl
  · exact marks_fail
  · rename_i found hf
    obtain ⟨hstart, hlt, -⟩ := hooks.extend hi hf
    split
    · exact marks_accept (by omega)
    · exact marks_abort

/-- A leaf either stands on some text of the range, or is empty and stands where it was tried. -/
theorem Placed.solid {m : Match} (hp : r.Placed rule start m) :
    m.start < m.stop ∧ m.stop ≤ r.stop ∨ m.start = start ∧ m.stop = start := by
  cases hp with
  | nothing => exact .inr ⟨rfl, rfl⟩
  | newLine hlt => exact .inl ⟨Nat.lt_succ_self _, hlt⟩
  | word _ _ hlt hs => exact .inl ⟨hlt, hs⟩
  | extension _ hlt hf =>
    obtain ⟨hstart, hgt, hstop⟩ := hooks.extend hlt hf
    exact .inl ⟨by dsimp only; omega, by dsimp only; omega⟩

end Terminals

theorem Yields.leads_of_not_isTerminal {answer : Answers} {r : Reader} {rule : Rule} {start : Nat}
    {tree : ParseTree} (onward : Nat → Nat → Prop) (hr : ∀ a, onward a a)
    (ht : ∀ {a b c}, onward a b → onward b c → onward a c)
    (h : ∀ rule start tree, answer rule start (.ok tree) → onward start tree.stop)
    (hy : Yields answer r rule start (.ok tree)) (hn : ¬ r.grammar.IsTerminal rule) :
    onward start tree.stop := by
  cases rule with
  | leaf form o =>
    generalize ho : Except.ok tree = out at hy
    cases hy with
    | literal | anyToken | anyIdentifier | newLine => exact absurd (.leaf (by decide)) hn
    | undefined => cases ho
    | extension hb => exact absurd (.extension hb) hn
    | reference _ ha => exact h _ _ _ (ho ▸ ha)
  | _ => exact hy.builds.leads hr ht h fun m hm => by cases hm

section Descent
variable {r : Reader} {rule : Rule} {start : Nat} {step : Step Attempt}

theorem Tries.not_isTerminal {answer : Answers} {rule' : Rule} {start' : Nat}
    (htry : Tries answer r rule start rule' start') : ¬ r.grammar.IsTerminal rule := by
  rintro (hf | hn)
  · cases htry
    exact hf rfl
  · cases htry with
    | reference hb => cases hb.symm.trans hn

theorem node_marks (hooks : r.lexis.Advances r.text r.stop) (ht : r.grammar.IsTerminal rule) :
    Marks (r.node r.matchLiteral step rule start) := by
  cases ht with
  | @leaf form o hf =>
    cases form with
    | literal => exact matchLiteral_marks
    | anyToken => exact matchToken_marks
    | anyIdentifier => exact matchIdentifier_marks
    | newLine => exact matchNewLine_marks
    | reference => exact absurd rfl hf
  | extension hn =>
    simp only [node, hn]
    exact matchExtension_marks hooks

/-- A node that is no terminal reaches as far as the nodes that it tries. -/
theorem node_farthest (hstep : ∀ rule start, (step rule start).Steady)
    (hl : ∀ rule start tree, (step rule start).result = .ok tree → r.Lands start tree.stop)
    (ht : ¬ r.grammar.IsTerminal rule) :
    (r.node r.matchLiteral step rule start).Farthest fun offset => ∃ rule' start',
      Tries (answers step) r rule start rule' start' ∧ (step rule' start').reached = offset := by
  cases rule with
  | leaf form o =>
    cases form with
    | literal | anyToken | anyIdentifier | newLine => exact absurd (.leaf (by decide)) ht
    | reference =>
      match hb : r.grammar.body? (Rule.leaf .reference o).target with
      | none =>
        simp only [node, hb]
        refine farthest_zero rfl fun _ ⟨_, _, htry, _⟩ => ?_
        cases htry with
        | reference hb' => cases hb.symm.trans hb'
      | some none => exact absurd (.extension hb) ht
      | some (some body) =>
        simp only [node, hb]
        refine (step body start).farthest_self.congr fun offset => ⟨?_, ?_⟩
        · rintro ⟨_, _, htry, rfl⟩
          cases htry with
          | reference hb' =>
            cases hb.symm.trans hb'
            rfl
        · rintro rfl
          exact ⟨_, _, .reference hb, rfl⟩
  | sequence parts o =>
    refine ((inTurn_farthest hstep parts start).bind_zero (inTurn_steady hstep parts start)
      (fun _ => steady_pure _) fun _ => rfl).congr fun offset => ⟨?_, ?_⟩
    · rintro ⟨_, _, htry, rfl⟩
      cases htry with
      | sequence hp => exact ⟨_, _, hp, rfl⟩
    · rintro ⟨_, _, hp, rfl⟩
      exact ⟨_, _, .sequence hp, rfl⟩
  | choice rules o =>
    refine ((firstOf_farthest hstep start rules).bind_zero (firstOf_steady hstep start rules)
      ?_ ?_).congr fun offset => ⟨?_, ?_⟩
    · rintro (_ | _)
      · exact steady_fail _ _ _
      · exact steady_pure _
    · rintro (_ | _) <;> rfl
    · rintro ⟨_, _, htry, rfl⟩
      cases htry with
      | choice hp => exact ⟨_, hp, rfl⟩
    · rintro ⟨_, hp, rfl⟩
      exact ⟨_, _, .choice hp, rfl⟩
  | optional body o =>
    refine ((step body start).farthest_self.recover.bind_zero (hstep body start).recover
      ?_ ?_).congr fun offset => ⟨?_, ?_⟩
    · rintro (_ | _) <;> exact steady_pure _
    · rintro (_ | _) <;> rfl
    · rintro ⟨_, _, htry, rfl⟩
      cases htry
      rfl
    · rintro rfl
      exact ⟨_, _, .optional, rfl⟩
  | repetition body o =>
    refine ((again_farthest hstep body r.text.length (fun start' tree ha hlt =>
      (hl body start' tree ha).resolve_right (Nat.ne_of_gt hlt)) (r.text.length + 1) start
      (by omega)).bind_zero (again_steady hstep body _ start) (fun _ => steady_pure _)
      fun _ => rfl).congr fun offset => ⟨?_, ?_⟩
    · rintro ⟨_, _, htry, rfl⟩
      cases htry with
      | repetition hp => exact ⟨_, hp, rfl⟩
    · rintro ⟨_, hp, rfl⟩
      exact ⟨_, _, .repetition hp, rfl⟩

end Descent

/-- A leaf, not empty, that some terminal or extension matched in the course of a call, be it in an
alternative that was given up, in a sequence that failed or in an attempt that was recovered. -/
def Matched (r : Reader) (c : Call) (m : Match) : Prop :=
  ∃ c', r.Reaches c c' ∧ r.grammar.IsTerminal c'.rule ∧
    Gives (r.run c'.depth c'.busy c'.rule c'.start) m

section Calls
variable {r : Reader} {rule : Rule} {start : Nat} {busy : List (Nat × Rule)} {m : Match}

theorem matched_iff_of_isTerminal {c : Call} (ht : r.grammar.IsTerminal c.rule) :
    r.Matched c m ↔ Gives (r.run c.depth c.busy c.rule c.start) m := by
  constructor
  · rintro ⟨c', hr, -, hm⟩
    rcases hr.cases_head with rfl | ⟨_, ⟨_, htry⟩, _⟩
    · exact hm
    · exact absurd ht htry.not_isTerminal
  · exact fun hm => ⟨c, .refl, ht, hm⟩

theorem matched_iff_of_not_isTerminal {c : Call} (ht : ¬ r.grammar.IsTerminal c.rule) :
    r.Matched c m ↔ ∃ c', Nests r c c' ∧ r.Matched c' m := by
  constructor
  · rintro ⟨c', hr, ht', hm⟩
    rcases hr.cases_head with rfl | ⟨c₁, hn, hr⟩
    · exact absurd ht' ht
    · exact ⟨c₁, hn, c', hr, ht', hm⟩
  · rintro ⟨c₁, hn, c', hr, hm⟩
    exact ⟨c', .head hn hr, hm⟩

/-- Unless it is for a terminal, a run reaches as far as those that it makes. -/
theorem run_farthest_of_tries (depth : Nat) (hb : (start, rule) ∉ busy)
    (ht : ¬ r.grammar.IsTerminal rule) :
    (r.run (depth + 1) busy rule start).Farthest fun offset => ∃ rule' start',
      Tries (answers (r.run depth ((start, rule) :: busy))) r rule start rule' start' ∧
        (r.run depth ((start, rule) :: busy) rule' start').reached = offset :=
  run_of_not_busy hb ▸
    node_farthest (r.run_steady depth ((start, rule) :: busy)) (run_lands depth _) ht

variable (hooks : r.lexis.Advances r.text r.stop)
include hooks

/-- A run reaches the farthest end of a leaf that is matched in its course. -/
theorem run_farthest (depth : Nat) : ∀ {busy : List (Nat × Rule)} {rule : Rule} {start : Nat},
    (r.run depth busy rule start).Farthest fun offset =>
      ∃ m, r.Matched ⟨depth, busy, rule, start⟩ m ∧ m.stop = offset := by
  induction depth with
  | zero =>
    intro _ _ _
    refine farthest_zero rfl fun _ ⟨m, ⟨c', hr, _, hm, _⟩, _⟩ => ?_
    rcases hr.cases_head with rfl | ⟨_, hn, -⟩
    · cases hm
    · cases hn
  | succ depth ih =>
    intro busy rule start
    by_cases hb : (start, rule) ∈ busy
    · rw [run_busy hb]
      refine farthest_zero rfl fun _ ⟨m, ⟨c', hr, _, hm, _⟩, _⟩ => ?_
      rcases hr.cases_head with rfl | ⟨_, ⟨hb', -⟩, -⟩
      · rw [run_busy hb] at hm
        cases hm
      · exact hb' hb
    by_cases ht : r.grammar.IsTerminal rule
    · simp only [matched_iff_of_isTerminal (c := ⟨depth + 1, busy, rule, start⟩) ht]
      rw [run_of_not_busy hb]
      exact node_marks hooks ht
    -- what is matched in the course of this run is matched in that of one of its tries
    have hnode := run_farthest_of_tries depth hb ht
    refine ⟨?_, fun hpos => ?_⟩
    · rintro _ ⟨m, hm, rfl⟩
      obtain ⟨_, ⟨_, htry⟩, hm⟩ := (matched_iff_of_not_isTerminal ht).1 hm
      exact Nat.le_trans (ih.le _ ⟨m, hm, rfl⟩) (hnode.le _ ⟨_, _, htry, rfl⟩)
    · obtain ⟨rule', start', htry, he⟩ := hnode.attained hpos
      obtain ⟨m, hm, hstop⟩ := (@ih ((start, rule) :: busy) rule' start').attained (he ▸ hpos)
      exact ⟨m, (matched_iff_of_not_isTerminal ht).2 ⟨_, .intro hb htry, hm⟩, hstop.trans he⟩

/-- What is matched in a run ends within the range. -/
theorem Matched.stop_le {c : Call} (hm : r.Matched c m) : m.stop ≤ r.stop := by
  obtain ⟨⟨depth, busy, rule, start⟩, -, ht, hm, hlt⟩ := hm
  cases depth with
  | zero => cases hm
  | succ depth =>
    by_cases hb : (start, rule) ∈ busy
    · rw [run_busy hb] at hm
      cases hm
    · obtain ⟨_, ⟨⟩, hp⟩ := (hm ▸ run_yields hb).placed ht
      rcases hp.solid hooks with ⟨-, hs⟩ | ⟨hstart, hstop⟩
      · exact hs
      · omega

/-- A tree ends where its run started, or no farther on than the run reached. -/
theorem run_stop_le (depth : Nat) : ∀ {busy : List (Nat × Rule)} {rule : Rule} {start : Nat}
    {tree : ParseTree}, (r.run depth busy rule start).result = .ok tree →
      tree.stop ≤ max start (r.run depth busy rule start).reached := by
  induction depth with
  | zero =>
    intro _ _ _ _ h
    cases h
  | succ depth ih =>
    intro busy rule start tree h
    by_cases hb : (start, rule) ∈ busy
    · rw [run_busy hb] at h
      cases h
    have hy := h ▸ run_yields hb
    by_cases ht : r.grammar.IsTerminal rule
    · obtain ⟨m, rfl, hp⟩ := hy.placed ht
      rcases hp.solid hooks with ⟨hlt, -⟩ | ⟨-, hstop⟩
      · exact Nat.le_trans ((run_farthest hooks (depth + 1)).le _
          ⟨m, (matched_iff_of_isTerminal ht).2 ⟨h, hlt⟩, rfl⟩) (Nat.le_max_right _ _)
      · exact Nat.le_trans (Nat.le_of_eq hstop) (Nat.le_max_left _ _)
    have hnode := run_farthest_of_tries depth hb ht
    -- the trees below end no farther on than this run reaches, which the node passes on
    have hbelow : Yields (fun _ start' out => ∀ tree, out = .ok tree →
        tree.stop ≤ max start' (r.run (depth + 1) busy rule start).reached) r rule start
        (.ok tree) :=
      hy.imp fun rule' start' out htry ha tree' he => by
        have := ih (ha.trans he)
        have := hnode.le _ ⟨_, _, htry, rfl⟩
        omega
    exact hbelow.leads_of_not_isTerminal (fun a b => b ≤ max a _) (fun _ => Nat.le_max_left _ _)
      (fun hab hbc => by omega) (fun _ _ _ ha => ha _ rfl) ht

end Calls

/-- The farthest offset after a match is the greatest of the one before it and of the ends of the
leaves matched in its course. It is within the range unless it was beyond it before, and no tree
reaches beyond it that was matched from an offset up to which the text had been matched before. -/
theorem run_mark (r : Reader) (hooks : r.lexis.Advances r.text r.stop) (depth : Nat)
    (busy : List (Nat × Rule)) (rule : Rule) (start farthest : Nat) :
    let outcome := (r.run depth busy rule start).outcome farthest
    IsGreatest
        (insert farthest {offset | ∃ m, r.Matched ⟨depth, busy, rule, start⟩ m ∧ m.stop = offset})
        outcome.2 ∧
      outcome.2 ≤ max farthest r.stop ∧
      ∀ tree, outcome.1 = .ok tree → start ≤ farthest → tree.stop ≤ outcome.2 := by
  intro outcome
  have hsteady := r.run_steady depth busy rule start
  have hgreatest := (run_farthest hooks depth).isGreatest hsteady farthest
  refine ⟨hgreatest, ?_, fun tree ht hs => ?_⟩
  · rcases hgreatest.1 with he | ⟨m, hm, he⟩
    · exact Nat.le_trans (Nat.le_of_eq he) (Nat.le_max_left _ _)
    · exact Nat.le_trans (Nat.le_of_eq he.symm)
        (Nat.le_trans (hm.stop_le hooks) (Nat.le_max_right _ _))
  · have hstop := run_stop_le hooks depth ((hsteady.outcome_fst farthest).symm.trans ht)
    have hmark : outcome.2 = max farthest _ := congrArg Prod.snd (hsteady farthest)
    omega

def retreatReader : Reader where
  grammar :=
    let written := "'a' 'b' 'c' | 'a'".toList
    let part (start stop : Nat) : Origin := ⟨start, stop, false, none, written⟩
    .ofList [("Letters", some (.choice [.sequence [.leaf .literal (part 0 3),
      .leaf .literal (part 4 7), .leaf .literal (part 8 11)] (part 0 11),
      .leaf .literal (part 14 17)] (part 0 17)))]
  lexis := .plain
  text := "a b d".toList
  stop := 5

/-- The tree ends after the `a`, but the first alternative had got as far as the `b`. -/
theorem retreat_mark : ∃ rule tree,
    retreatReader.grammar.body? "Letters" = some (some rule) ∧
    (retreatReader.run 3 [] rule 0).outcome 0 = (.ok tree, 3) ∧ tree.stop = 1 ∧
    IsGreatest (insert 0
      {offset | ∃ m, retreatReader.Matched ⟨3, [], rule, 0⟩ m ∧ m.stop = offset}) 3 :=
  ⟨_, _, rfl, rfl, rfl, (run_mark retreatReader (Lexis.plain_advances _ _) 3 [] _ 0 0).1⟩

end Reader
end OrderedBnf
