import OrderedBnf.Proofs.Nesting

/-! The cycle guard against matching without one. -/
namespace OrderedBnf.Reader
open Attempt Relation

/-- What comes of trying a node when nothing guards against trying it again within itself: the
rules of ordered choice and no more, so that there is an outcome only where the tries are
finitely many. -/
inductive Ends (r : Reader) : Answers
  | intro {rule start out} : Yields (Ends r) r rule start out → Ends r rule start out

theorem Ends.closes {r : Reader} : r.Closes (Ends r) (Ends r) := fun _ _ _ => .intro

variable {r : Reader} {rule : Rule} {start : Nat}

/-- What every node has that yields an outcome from nodes that have it, every node with an outcome
has. -/
theorem Ends.ind {motive : Answers}
    (h : ∀ rule start out,
      Yields (fun rule start out => Ends r rule start out ∧ motive rule start out) r rule start
        out → motive rule start out)
    {out : Except Halt ParseTree} (ho : Ends r rule start out) : motive rule start out := by
  let both : Answers := fun rule start out => Ends r rule start out ∧ motive rule start out
  refine @Ends.rec r (fun rule start out _ => motive rule start out)
    (fun rule start out _ => Yields both r rule start out)
    (fun parts start out _ => InTurn both parts start out)
    (fun rules start out _ => FirstOf both rules start out)
    (fun start body out _ => Again both start body out)
    (fun _ => h _ _ _) .literal .anyToken .anyIdentifier .newLine .undefined .extension
    (fun hb ha hm => .reference hb ⟨ha, hm⟩) (fun _ => .sequence) (fun _ => .sequenceHalt)
    (fun _ => .choice) (fun _ => .noChoice) (fun _ => .choiceHalt)
    (fun ha hm => .present ⟨ha, hm⟩) (fun ha hm => .absent ⟨ha, hm⟩)
    (fun ha hm => .optionalAbort ⟨ha, hm⟩) (fun _ => .repetition) (fun _ => .repetitionHalt)
    .done (fun ha hm => .halt ⟨ha, hm⟩) (fun ha _ hm => .next ⟨ha, hm⟩)
    (fun ha _ hm => .nextHalt ⟨ha, hm⟩)
    .none (fun ha hm => .here ⟨ha, hm⟩) (fun ha hm => .abort ⟨ha, hm⟩)
    (fun ha _ hm => .later ⟨ha, hm⟩) (fun ha _ hm => .nowhere ⟨ha, hm⟩)
    (fun ha _ hm => .laterHalt ⟨ha, hm⟩)
    (fun ha hm => .failed ⟨ha, hm⟩) (fun ha hm => .abort ⟨ha, hm⟩)
    (fun ha hs hm => .stuck ⟨ha, hm⟩ hs) (fun ha hs _ hm => .round ⟨ha, hm⟩ hs)
    (fun ha hs _ hm => .roundHalt ⟨ha, hm⟩ hs) _ _ _ ho

/-- A call that ends has one outcome. -/
theorem Ends.functional : Agree (Ends r) (Ends r) := by
  intro rule start out out' ho
  refine Ends.ind (motive := fun rule start out => ∀ out', Ends r rule start out' → out = out')
    (fun rule start out hy out' ho' => ?_) ho out'
  cases ho' with
  | intro hy' => exact hy.agree (fun _ _ _ _ ha ha' => ha.2 _ ha') hy'

def Calls (r : Reader) (tried node : Nat × Rule) : Prop :=
  Tries (Ends r) r node.2 node.1 tried.2 tried.1

/-- A node with an outcome tries nothing without end. -/
theorem Ends.acc {out : Except Halt ParseTree} (ho : Ends r rule start out) :
    Acc (Calls r) (start, rule) := by
  refine Ends.ind (motive := fun rule start _ => Acc (Calls r) (start, rule))
    (fun rule start out hy => ?_) ho
  refine ⟨_, fun tried ht => ?_⟩
  obtain ⟨out', -, ha⟩ := hy.answered (fun _ _ _ _ ha ha' => Ends.functional ha.1 ha') ht
  exact ha

/-- No call in the course of this one is refused by the guard. -/
def Unrefused (r : Reader) (c : Call) : Prop :=
  ∀ c', r.Reaches c c' → (c'.start, c'.rule) ∉ c'.busy

/-- The calls within an unrefused call are unrefused. -/
theorem Unrefused.nested {c c' : Call} (hu : r.Unrefused c) (hn : Nests r c c') : r.Unrefused c' :=
  fun c'' h => hu c'' (.head hn h)

/-- A run that the guard does not meet needs no guard. -/
theorem Unrefused.ends : ∀ {depth : Nat} {busy : List (Nat × Rule)} {rule : Rule} {start : Nat},
    r.Unrefused ⟨depth, busy, rule, start⟩ → r.Deep ⟨depth, busy, rule, start⟩ →
      Ends r rule start (r.run depth busy rule start).result
  | 0, _, _, _, _, hd => absurd (hd _ .refl) (Nat.lt_irrefl 0)
  | depth + 1, busy, rule, start, hu, hd => by
    have hb := hu _ .refl
    refine .intro ((run_yields hb).imp fun rule' start' out ht ha => ?_)
    have hn := Nests.intro hb ht
    exact ha ▸ (hu.nested hn).ends (hd.nested hn)

/-- No call is made in the course of itself. -/
theorem not_within_self {node : Nat × Rule} (hacc : Acc (Calls r) node) :
    ¬ TransGen (Calls r) node node := by
  replace hacc := hacc.transGen
  induction hacc with
  | intro node _ ih => exact fun h => ih node h h

/-- Where the tries come to an end, none of them is for a node that is open: that node would be
tried within itself. -/
theorem unrefused_of_acc {node : Nat × Rule} (hacc : Acc (Calls r) node) :
    ∀ {depth : Nat} {busy : List (Nat × Rule)}, r.Deep ⟨depth, busy, node.2, node.1⟩ →
      (∀ around ∈ busy, TransGen (Calls r) node around) →
      r.Unrefused ⟨depth, busy, node.2, node.1⟩ := by
  induction hacc with
  | intro node hacc ih =>
    intro depth busy hd hbusy
    have hb : node ∉ busy := fun h => not_within_self ⟨node, hacc⟩ (hbusy node h)
    have hopen {tried : Nat × Rule} (ht : Calls r tried node) :
        ∀ around ∈ node :: busy, TransGen (Calls r) tried around := by
      intro around ha
      rcases List.mem_cons.1 ha with rfl | ha
      · exact .single ht
      · exact .head ht (hbusy around ha)
    intro c hc
    rcases hc.cases_head with rfl | ⟨c', hn, hc⟩
    · exact hb
    · cases hn with
      | @intro depth _ _ _ rule' start' _ ht =>
        -- What is tried with the guard is tried without it, as nothing tried before was refused.
        have hcalls : Tries (Ends r) r node.2 node.1 rule' start' :=
          ht.imp fun rule' start' out hg he ha => by
            have hd := hd.nested (.intro hb hg)
            exact ha ▸ (ih (start', rule') he hd (hopen he)).ends hd
        exact ih (start', rule') hcalls (hd.nested (.intro hb ht)) (hopen hcalls) c hc

/-- Without the guard a match ends, and ends with an outcome, exactly where the guard refuses no
call in the course of the match, not even one whose failure is recovered from; the outcome is then
the same with it and without. The guard fires only where the match would never end. -/
theorem ends_iff_unrefused (r : Reader) (rule : Rule) (start farthest : Nat)
    (out : Except Halt ParseTree) :
    Ends r rule start out ↔
      r.Unrefused ⟨r.depthBound rule, [], rule, start⟩ ∧
        ((r.attempt rule start).outcome farthest).1 = out := by
  have hd : r.Deep ⟨r.depthBound rule, [], rule, start⟩ := deep_of_depthBound
  rw [attempt, (r.run_steady _ _ _ _).outcome_fst]
  constructor
  · intro ho
    have hu : r.Unrefused ⟨r.depthBound rule, [], rule, start⟩ :=
      unrefused_of_acc ho.acc hd fun _ h => absurd h List.not_mem_nil
    exact ⟨hu, Ends.functional (hu.ends hd) ho⟩
  · rintro ⟨hu, rfl⟩
    exact hu.ends hd

end OrderedBnf.Reader
