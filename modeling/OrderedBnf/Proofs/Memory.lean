import OrderedBnf.Parse.Memory
import OrderedBnf.Proofs.Runs

/-! What a matcher keeps from one request to the next steers none of them. Whatever an attempt ends
in, it leaves the busy ranges as it found them, remembers of a literal nothing but its word, and
pushes the farthest offset on as it does when it starts afresh. -/
namespace OrderedBnf
open Attempt

/-- A memory within the given ranges, from which every literal is recalled as it is. -/
structure Memory.Holds (memory : Memory) (busy : List Request) (farthest : Nat) : Prop where
  busy : memory.busy = busy
  farthest : memory.farthest = farthest
  sound : ∀ entry ∈ memory.literals, entry.2 = entry.1.literal

theorem Memory.fresh_holds : Memory.fresh.Holds [] 0 := ⟨rfl, rfl, by simp [Memory.fresh]⟩

namespace Memory.Holds
variable {memory : Memory} {busy : List Request} {farthest : Nat} {request : Request}

/-- Asking puts the request among the open ones. -/
theorem enter (h : memory.Holds busy farthest) :
    (memory.enter request).Holds (request :: busy) farthest :=
  ⟨congrArg _ h.busy, h.farthest, h.sound⟩

/-- An answer takes the request out of the open ones, and leaves those around it. -/
theorem leave (h : memory.Holds (request :: busy) farthest) (hr : request ∉ busy) :
    (memory.leave request).Holds busy farthest := by
  refine ⟨?_, h.farthest, h.sound⟩
  rw [Memory.leave, h.busy, List.filter_cons_of_neg (by simp)]
  exact List.filter_eq_self.2 fun other ho => by simpa using ne_of_mem_of_not_mem ho hr

theorem learn (h : memory.Holds busy farthest) (rule : Rule) :
    (memory.learn rule rule.literal).Holds busy farthest :=
  ⟨h.busy, h.farthest, List.forall_mem_cons.2 ⟨rfl, h.sound⟩⟩

/-- What is remembered of a literal is the text that the literal stands for. -/
theorem lookup (h : memory.Holds busy farthest) {rule : Rule} {word : Text}
    (hw : memory.literals.lookup rule = some word) : word = rule.literal := by
  obtain ⟨before, after, he, -⟩ := List.lookup_eq_some_iff.1 hw
  exact h.sound (rule, word) (he ▸ List.mem_append_right _ (List.mem_cons_self ..))

end Memory.Holds

namespace Recalling
variable {α β : Type}

theorem outcome_bind (m : Recalling α) (f : α → Recalling β) (memory : Memory) :
    (m >>= f).outcome memory =
      match m.outcome memory with
      | (.ok x, after) => (f x).outcome after
      | (.error halt, after) => (.error halt, after) := by
  simp only [bind, ExceptT.bind, ExceptT.mk, ExceptT.bindCont, StateT.bind, outcome, ExceptT.run,
    StateT.run]
  rcases m memory with ⟨_ | _, _⟩ <;> rfl

theorem outcome_recover (m : Recalling α) (memory : Memory) :
    (recover m).outcome memory =
      match m.outcome memory with
      | (.ok x, after) => (.ok (.ok x), after)
      | (.error (.failure failure), after) => (.ok (.error failure), after)
      | (.error (.abort cause), after) => (.error (.abort cause), after) := by
  simp only [recover, tryCatch, tryCatchThe, MonadExceptOf.tryCatch, ExceptT.tryCatch, ExceptT.mk,
    bind, ExceptT.bind, ExceptT.bindCont, StateT.bind, outcome, ExceptT.run, StateT.run]
  rcases m memory with ⟨(_ | _) | _, _⟩ <;> rfl

theorem outcome_finally (m : Recalling α) (f : Memory → Memory) (memory : Memory) :
    (tryFinally m (modify f) : Recalling α).outcome memory =
      ((m.outcome memory).1, f (m.outcome memory).2) := by
  simp only [tryFinally, MonadFinally.tryFinally', ExceptT.mk, bind, StateT.bind, Functor.map,
    ExceptT.map, outcome, ExceptT.run, StateT.run]
  rcases m memory with ⟨_ | _, _⟩ <;> rfl

theorem outcome_get_bind (f : Memory → Recalling α) (memory : Memory) :
    (get >>= f : Recalling α).outcome memory = (f memory).outcome memory := rfl

theorem outcome_modify_bind (f : Memory → Memory) (m : Unit → Recalling α) (memory : Memory) :
    (modify f >>= m : Recalling α).outcome memory = (m ()).outcome (f memory) := rfl

/-- Whatever the busy ranges and the farthest offset, `m` comes to what `a` comes to; and the memory
that it leaves differs in no more than the farthest offset and further literals. -/
def Mirrors (busy : List Request) (m : Recalling α) (a : Attempt α) : Prop :=
  ∀ memory farthest, memory.Holds busy farthest →
    (m.outcome memory).1 = (a.outcome farthest).1 ∧
      (m.outcome memory).2.Holds busy (a.outcome farthest).2

variable {busy : List Request}

theorem mirrors_pure (x : α) : Mirrors busy (pure x) (pure x) := fun _ _ h => ⟨rfl, h⟩

theorem mirrors_fail (reason : Reason) (position : Nat) (causes : List Failure) :
    Mirrors busy (fail reason position causes : Recalling α) (fail reason position causes) :=
  fun _ _ h => ⟨rfl, h⟩

theorem mirrors_abort (cause : Abort) :
    Mirrors busy (abort cause : Recalling α) (abort cause) := fun _ _ h => ⟨rfl, h⟩

theorem mirrors_lift (a : Attempt α) : Mirrors busy (liftM a) a := by
  rintro memory _ ⟨hb, rfl, hs⟩
  exact ⟨rfl, hb, rfl, hs⟩

namespace Mirrors

/-- Steps with a memory that mirror attempts without one still do so one after the other. -/
theorem bind {m : Recalling α} {a : Attempt α} {f : α → Recalling β} {g : α → Attempt β}
    (hm : Mirrors busy m a) (hf : ∀ x, Mirrors busy (f x) (g x)) :
    Mirrors busy (m >>= f) (a >>= g) := by
  intro memory farthest h
  obtain ⟨hout, hafter⟩ := hm memory farthest h
  rw [outcome_bind, Attempt.outcome_bind]
  rcases hmo : m.outcome memory with ⟨out, after⟩
  rcases hao : a.outcome farthest with ⟨out', farther⟩
  rw [hmo, hao] at hout hafter
  cases hout
  cases out with
  | error halt => exact ⟨rfl, hafter⟩
  | ok x => exact hf x after farther hafter

/-- A failure that is caught with a memory is caught without one. -/
theorem recover {m : Recalling α} {a : Attempt α} (hm : Mirrors busy m a) :
    Mirrors busy (Attempt.recover m) (Attempt.recover a) := by
  intro memory farthest h
  obtain ⟨hout, hafter⟩ := hm memory farthest h
  rw [outcome_recover, Attempt.outcome_recover]
  rcases hmo : m.outcome memory with ⟨out, after⟩
  rcases hao : a.outcome farthest with ⟨out', farther⟩
  rw [hmo, hao] at hout hafter
  cases hout
  rcases out with (_ | _) | _ <;> exact ⟨rfl, hafter⟩

end Mirrors

/-- A word that is remembered is the one that would be decoded. -/
theorem mirrors_literal (rule : Rule) : Mirrors busy (literal rule) (pure rule.literal) := by
  intro memory farthest h
  rw [literal, outcome_get_bind]
  split
  · rename_i word hw
    rw [h.lookup hw]
    exact ⟨rfl, h⟩
  · exact ⟨rfl, h.learn rule⟩

end Recalling

namespace Reader
open Recalling

variable {r : Reader} {busy : List Request}

theorem recallLiteral_mirrors (rule : Rule) (start : Nat) :
    Mirrors busy (r.recallLiteral rule start) (r.matchLiteral rule start) :=
  (mirrors_literal rule).bind fun word => mirrors_lift (r.matchWord rule word start)

section Loops
variable {step : Step Recalling} {step' : Step Attempt}
  (h : ∀ rule start, Mirrors busy (step rule start) (step' rule start))
include h

theorem inTurn_mirrors (parts : List Rule) :
    ∀ start, Mirrors busy (inTurn step parts start) (inTurn step' parts start) := by
  induction parts with
  | nil => exact fun _ => mirrors_pure _
  | cons part rest ih =>
    intro start
    exact (h part start).bind fun tree => (ih tree.stop).bind fun _ => mirrors_pure _

theorem firstOf_mirrors (start : Nat) (rules : List Rule) :
    Mirrors busy (firstOf step start rules) (firstOf step' start rules) := by
  induction rules with
  | nil => exact mirrors_pure _
  | cons rule rest ih =>
    refine (h rule start).recover.bind fun out => ?_
    cases out with
    | ok tree => exact mirrors_pure _
    | error failure =>
      refine ih.bind fun out => ?_
      cases out <;> exact mirrors_pure _

theorem again_mirrors (body : Rule) (rounds : Nat) :
    ∀ start, Mirrors busy (again step body rounds start) (again step' body rounds start) := by
  induction rounds with
  | zero => exact fun _ => mirrors_pure _
  | succ rounds ih =>
    intro start
    refine (h body start).recover.bind fun out => ?_
    cases out with
    | error failure => exact mirrors_pure _
    | ok tree =>
      dsimp only
      split
      · exact mirrors_pure _
      · exact (ih tree.stop).bind fun _ => mirrors_pure _

theorem node_mirrors (rule : Rule) (start : Nat) :
    Mirrors busy (r.node r.recallLiteral step rule start)
      (r.node r.matchLiteral step' rule start) := by
  unfold node
  split
  · exact recallLiteral_mirrors _ _
  · exact mirrors_lift _
  · exact mirrors_lift _
  · exact mirrors_lift _
  · split
    · exact mirrors_fail _ _ _
    · exact mirrors_lift _
    · exact h _ _
  · exact (inTurn_mirrors h _ _).bind fun _ => mirrors_pure _
  · refine (firstOf_mirrors h _ _).bind fun out => ?_
    cases out
    · exact mirrors_fail _ _ _
    · exact mirrors_pure _
  · refine (h _ _).recover.bind fun out => ?_
    cases out <;> exact mirrors_pure _
  · exact (again_mirrors h _ _ _).bind fun _ => mirrors_pure _

end Loops

def ranges (r : Reader) (busy : List (Nat × Rule)) : List Request :=
  busy.map fun (start, rule) => ⟨rule, start, r.stop⟩

variable {depth start : Nat} {rule : Rule} {memory : Memory}

theorem mem_ranges {busy : List (Nat × Rule)} :
    ⟨rule, start, r.stop⟩ ∈ r.ranges busy ↔ (start, rule) ∈ busy := by
  simp only [ranges, List.mem_map, Request.mk.injEq, Prod.exists]
  constructor
  · rintro ⟨_, _, hb, rfl, rfl, -⟩
    exact hb
  · exact fun hb => ⟨start, rule, hb, rfl, rfl, trivial⟩

theorem runRecalling_busy (hb : ⟨rule, start, r.stop⟩ ∈ memory.busy) :
    (r.runRecalling (depth + 1) rule start).outcome memory =
      (.error (.failure (.because (.infiniteRecursion rule.describe) start [])), memory) := by
  rw [runRecalling, outcome_get_bind, if_pos (List.contains_iff_mem.2 hb)]
  rfl

theorem runRecalling_idle (hb : ⟨rule, start, r.stop⟩ ∉ memory.busy) :
    (r.runRecalling (depth + 1) rule start).outcome memory =
      let done := (r.node r.recallLiteral (r.runRecalling depth) rule start).outcome
        (memory.enter ⟨rule, start, r.stop⟩)
      (done.1, done.2.leave ⟨rule, start, r.stop⟩) := by
  rw [runRecalling, outcome_get_bind, if_neg (by simpa using hb), outcome_modify_bind]
  exact outcome_finally _ _ _

theorem runRecalling_mirrors (r : Reader) (depth : Nat) : ∀ busy rule start,
    Mirrors (r.ranges busy) (r.runRecalling depth rule start) (r.run depth busy rule start) := by
  induction depth with
  | zero => exact fun _ _ _ => mirrors_abort _
  | succ depth ih =>
    intro busy rule start memory farthest h
    by_cases hb : (start, rule) ∈ busy
    · rw [run_busy hb, runRecalling_busy (h.busy ▸ mem_ranges.2 hb)]
      exact ⟨rfl, h⟩
    · have hr : ⟨rule, start, r.stop⟩ ∉ r.ranges busy := fun hr => hb (mem_ranges.1 hr)
      rw [run_of_not_busy hb, runRecalling_idle (h.busy ▸ hr)]
      obtain ⟨hout, hafter⟩ := node_mirrors (ih ((start, rule) :: busy)) rule start _ _ h.enter
      exact ⟨hout, hafter.leave hr⟩

end Reader

namespace Language
open Recalling

/-- Asked when nothing is busy, a matcher answers what an attempt comes to, and nothing is busy. -/
theorem answer_holds (language : Language) (text : Text) {memory : Memory} {farthest : Nat}
    (h : memory.Holds [] farthest) (request : Request) :
    let attempted := ((language.readerUpTo text request.stop).attempt request.rule
      request.start).outcome farthest
    (language.answer text memory request).1 = attempted.1 ∧
      (language.answer text memory request).2.Holds [] attempted.2 :=
  (language.readerUpTo text request.stop).runRecalling_mirrors _ [] _ _ memory farthest h

theorem remembered_holds (language : Language) (text : Text) (requests : List Request) :
    ∃ farthest, (language.remembered text requests).Holds [] farthest := by
  suffices ∀ memory farthest, memory.Holds [] farthest → ∃ farthest',
      (requests.foldl (fun memory request => (language.answer text memory request).2)
        memory).Holds [] farthest' from this .fresh 0 Memory.fresh_holds
  induction requests with
  | nil => exact fun memory farthest h => ⟨farthest, h⟩
  | cons request rest ih =>
    exact fun memory farthest h => ih _ _ (answer_holds language text h request).2

/-- A matcher has no memory that affects its answers: after any requests, whatever they ended in, it
answers one more as a fresh matcher does, which is what a single attempt comes to; no range is left
busy, and the farthest offset is the farther of the one before and the one that a fresh matcher
reaches. -/
theorem answer_memoryless (language : Language) (text : Text) (requests : List Request)
    (request : Request) :
    let before := language.remembered text requests
    let answered := language.answer text before request
    let anew := language.answer text .fresh request
    let attempt := (language.readerUpTo text request.stop).attempt request.rule request.start
    answered.1 = anew.1 ∧ answered.2.busy = [] ∧
      answered.2.farthest = max before.farthest anew.2.farthest ∧
      (answered.1, answered.2.farthest) = attempt.outcome before.farthest := by
  intro before answered anew attempt
  obtain ⟨farthest, h⟩ := language.remembered_holds text requests
  obtain ⟨hout, hafter⟩ := answer_holds language text h request
  obtain ⟨hout', hafter'⟩ := answer_holds language text Memory.fresh_holds request
  have hsteady : attempt.Steady := Reader.run_steady _ _ _ _ _
  refine ⟨?_, hafter.busy, ?_, ?_⟩
  · calc answered.1 = attempt.result := hout.trans (hsteady.outcome_fst farthest)
      _ = anew.1 := hout'.symm
  · calc answered.2.farthest = (attempt.outcome farthest).2 := hafter.farthest
      _ = max farthest attempt.reached := congrArg Prod.snd (hsteady farthest)
      _ = max before.farthest anew.2.farthest := by rw [h.farthest, hafter'.farthest]; rfl
  · rw [h.farthest]
    exact Prod.ext hout hafter.farthest

end Language
end OrderedBnf
