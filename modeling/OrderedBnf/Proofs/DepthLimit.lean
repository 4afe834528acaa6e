import OrderedBnf.Proofs.CycleGuard

/-! Matching with a bound on the depth against matching without one. -/
namespace OrderedBnf

namespace Reader
open Attempt Relation

def AgreeUnless (cause : Abort) (answer answer' : Answers) : Prop :=
  ∀ ⦃rule start out out'⦄, answer rule start out → answer' rule start out' →
    out = out' ∨ out = .error (.abort cause)

section Agreement
variable {cause : Abort} {answer answer' : Answers} {r : Reader} {rule body : Rule}
  {rules parts : List Rule} {start : Nat} (h : AgreeUnless cause answer answer')
include h

private theorem InTurn.agreeUnless {out out' : Except Halt (List ParseTree)}
    (ho : InTurn answer parts start out) (ho' : InTurn answer' parts start out') :
    out = out' ∨ out = .error (.abort cause) := by
  induction ho generalizing out' <;> cases ho' <;> grind [AgreeUnless]

private theorem FirstOf.agreeUnless
    {out out' : Except Halt (Except (List Failure) (List (Option ParseTree)))}
    (ho : FirstOf answer rules start out) (ho' : FirstOf answer' rules start out') :
    out = out' ∨ out = .error (.abort cause) := by
  induction ho generalizing out' <;> cases ho' <;> grind [AgreeUnless]

private theorem Again.agreeUnless {out out' : Except Halt (List ParseTree)}
    (ho : Again answer start body out) (ho' : Again answer' start body out') :
    out = out' ∨ out = .error (.abort cause) := by
  induction ho generalizing out' <;> cases ho' <;> grind [AgreeUnless]

theorem Yields.agreeUnless {out out' : Except Halt ParseTree}
    (ho : Yields answer r rule start out) (ho' : Yields answer' r rule start out') :
    out = out' ∨ out = .error (.abort cause) := by
  have hturn {parts start out out'} (ho : InTurn answer parts start out)
      (ho' : InTurn answer' parts start out') := ho.agreeUnless h ho'
  have hfirst {rules start out out'} (ho : FirstOf answer rules start out)
      (ho' : FirstOf answer' rules start out') := ho.agreeUnless h ho'
  have hagain {start body out out'} (ho : Again answer start body out)
      (ho' : Again answer' start body out') := ho.agreeUnless h ho'
  cases ho <;> cases ho' <;> grind [AgreeUnless]

end Agreement

variable {r : Reader} {rule : Rule} {start : Nat} {out : Except Halt ParseTree}

/-- A match that ends without the cycle guard comes to the same under a bound on the depth, or goes
too deep for it. -/
theorem Ends.run (ho : Ends r rule start out) (depth : Nat) :
    (r.run depth [] rule start).result = out ∨
      (r.run depth [] rule start).result = .error (.abort .tooDeep) := by
  refine Ends.ind (motive := fun rule start out => ∀ depth (busy : List (Nat × Rule)),
    (∀ around ∈ busy, TransGen (Calls r) (start, rule) around) →
      (r.run depth busy rule start).result = out ∨
        (r.run depth busy rule start).result = .error (.abort .tooDeep))
    (fun rule start out hy depth busy hbusy => ?_) ho depth []
    fun _ h => absurd h List.not_mem_nil
  have hends : Ends r rule start out := .intro (hy.imp fun _ _ _ _ ha => ha.1)
  cases depth with
  | zero => exact .inr rfl
  | succ depth =>
    have hb : (start, rule) ∉ busy := fun hm => not_within_self hends.acc (hbusy _ hm)
    let within := r.run depth ((start, rule) :: busy)
    have hagree : AgreeUnless .tooDeep (answers within) fun rule' start' out =>
        (within rule' start').result = out ∨
          (within rule' start').result = .error (.abort .tooDeep) :=
      fun _ _ _ _ ha ha' => ha ▸ ha'
    refine (run_yields hb).agreeUnless hagree (hy.imp fun rule' start' out ht ha => ?_)
    have hcall : Calls r (start', rule') (start, rule) := ht.imp fun _ _ _ _ _ ha => ha.1
    refine ha.2 depth _ fun around hm => ?_
    rcases List.mem_cons.1 hm with rfl | hm
    · exact .single hcall
    · exact .head hcall (hbusy around hm)

/-- A match that ends without the cycle guard comes to the same when it is attempted. -/
theorem Ends.attempt (ho : Ends r rule start out) : (r.attempt rule start).result = out := by
  have hd : r.Deep ⟨r.depthBound rule, [], rule, start⟩ := deep_of_depthBound
  have hu := unrefused_of_acc ho.acc hd fun _ h => absurd h List.not_mem_nil
  exact Ends.functional (hu.ends hd) ho

/-- What comes of trying a node without the guard and with no more than a number of nodes open at a
time. -/
def EndsIn (r : Reader) : Nat → Answers
  | 0 => fun _ _ _ => False
  | depth + 1 => Yields (EndsIn r depth) r

namespace EndsIn
variable {depth depth' : Nat}

theorem closes : r.Closes (EndsIn r depth) (EndsIn r (depth + 1)) := fun _ _ _ h => h

/-- More room for open calls does not change an outcome. -/
theorem mono (h : depth ≤ depth') (ho : EndsIn r depth rule start out) :
    EndsIn r depth' rule start out := by
  induction depth generalizing depth' rule start out with
  | zero => exact ho.elim
  | succ depth ih =>
    obtain ⟨depth', rfl⟩ := Nat.exists_eq_succ_of_ne_zero (Nat.ne_zero_of_lt h)
    exact Yields.imp ho fun _ _ _ _ => ih (Nat.le_of_succ_le_succ h)

/-- An outcome within a depth is the outcome without a limit. -/
theorem ends (ho : EndsIn r depth rule start out) : Ends r rule start out := by
  induction depth generalizing rule start out with
  | zero => exact ho.elim
  | succ depth ih => exact .intro (Yields.imp ho fun _ _ _ _ => ih)

/-- A run with enough room ends as the call does, whatever calls are open around it. -/
private theorem run_busy {busy : List (Nat × Rule)}
    (hbusy : ∀ around ∈ busy, TransGen (Calls r) (start, rule) around)
    (ho : EndsIn r depth rule start out) : (r.run depth busy rule start).result = out := by
  induction depth generalizing busy rule start out with
  | zero => exact ho.elim
  | succ depth ih =>
    have hb : (start, rule) ∉ busy := fun hm => not_within_self ho.ends.acc (hbusy _ hm)
    have hy : Yields (EndsIn r depth) r rule start out := ho
    let within : Answers := fun rule' start' out =>
      Calls r (start', rule') (start, rule) ∧ EndsIn r depth rule' start' out
    have hagree : Agree (answers (r.run depth ((start, rule) :: busy))) within := by
      rintro rule' start' out out' ha ⟨hcall, ha'⟩
      refine ha.symm.trans (ih (fun around hm => ?_) ha')
      rcases List.mem_cons.1 hm with rfl | hm
      · exact .single hcall
      · exact .head hcall (hbusy around hm)
    refine (run_yields hb).agree hagree (hy.imp fun rule' start' out ht ha => ⟨?_, ha⟩)
    exact ht.imp fun _ _ _ _ _ => ends

/-- A match with no more nodes open than a bound on the depth allows comes to the same under it. -/
theorem run (h : depth ≤ depth') (ho : EndsIn r depth rule start out) :
    (r.run depth' [] rule start).result = out :=
  run_busy (fun _ h => absurd h List.not_mem_nil) (ho.mono h)

end EndsIn
end Reader

namespace Language
open Reader
variable {language : Language} {start : String} {text : Text} {filename : Option String}
  {body : Rule} {tree : ParseTree}

/-- A run that ends where nothing but insignificant text is left is what a parse gives. -/
theorem parse_of_run (hb : language.grammar.body? start = some (some body))
    (hrun : ((language.reader text).run depthLimit [] body 0).result = .ok tree)
    (hs : language.lexis.skip text tree.stop text.length = .ok text.length) :
    language.parse start text filename = .ok tree := by
  let r : Reader := ⟨language.grammar, language.lexis, text, text.length⟩
  have houtcome : (r.run depthLimit [] body 0).outcome 0 =
      (.ok tree, (r.run depthLimit [] body 0).reached) := Prod.ext hrun rfl
  unfold parse
  dsimp only
  rw [hb]
  dsimp only
  rw [houtcome]
  dsimp only
  rw [hs]
  exact if_pos (Nat.le_refl _)

/-- What matches up to insignificant text is what a parse gives, unless it goes too deep. -/
theorem parse_of_ends (hb : language.grammar.body? start = some (some body))
    (ho : Ends (language.reader text) body 0 (.ok tree))
    (hs : language.lexis.skip text tree.stop text.length = .ok text.length) :
    language.parse start text filename = .ok tree ∨
      ∃ d, language.parse start text filename = .error (.failed d) ∧
        d.failure.reason = .tooDeep := by
  rcases ho.run depthLimit with hrun | hrun
  · exact .inl (parse_of_run hb hrun hs)
  · let r : Reader := ⟨language.grammar, language.lexis, text, text.length⟩
    have houtcome : (r.run depthLimit [] body 0).outcome 0 =
        (.error (.abort .tooDeep), (r.run depthLimit [] body 0).reached) := Prod.ext hrun rfl
    right
    unfold parse
    dsimp only
    rw [hb]
    dsimp only
    rw [houtcome]
    exact ⟨_, rfl, rfl⟩

end Language
end OrderedBnf
