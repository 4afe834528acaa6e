import OrderedBnf.Proofs.Positions
import OrderedBnf.Proofs.Refusals
import OrderedBnf.Proofs.Termination

/-! Where failures point: into the range of the attempt that failed, and at the farthest of the
leaves of the tree of their causes. -/
namespace OrderedBnf

/-- Hooks that stay within the range they look at: skipping leads to an offset of it, an extension
finds a range in it, or fails there without further causes. -/
structure Lexis.Confined (lexis : Lexis) (text : Text) (stop : Nat) : Prop where
  skip {start i : Nat} : start ≤ stop → lexis.skip text start stop = .ok i → start ≤ i ∧ i ≤ stop
  found {rule : Rule} {start : Nat} {found : Found} : start < stop →
    lexis.extend rule text start stop = .ok (some found) →
    start ≤ found.start ∧ found.start ≤ found.stop ∧ found.stop ≤ stop
  failed {rule : Rule} {start : Nat} {failure : Failure} : start < stop →
    lexis.extend rule text start stop = .error (.failure failure) →
    failure.causes = [] ∧ start ≤ failure.position ∧ failure.position ≤ stop

theorem Lexis.plain_confined (text : Text) (stop : Nat) : Lexis.plain.Confined text stop where
  skip := skipWhile_within
  found _ h := by cases h
  failed _ h := by cases h

namespace Failure

theorem leavesOfAll_eq (failures : List Failure) :
    leavesOfAll failures = failures.flatMap leaves := by
  induction failures with
  | nil => rfl
  | cons failure rest ih => rw [leavesOfAll, ih, List.flatMap_cons]

mutual
/-- The leaves are those of the failures that have no causes, in the order of their levels. -/
theorem leaves_eq_filter : ∀ (depth : Nat) (failure : Failure),
    failure.leaves = ((failure.levels depth).map Prod.snd).filter (·.causes.isEmpty)
  | depth, because reason attempted [] => rfl
  | depth, because reason attempted (cause :: rest) => by
    rw [leaves, levels, List.map_cons, List.filter_cons_of_neg (by simp [causes])]
    exact leavesOfAll_eq_filter (depth + 1) (cause :: rest)

theorem leavesOfAll_eq_filter : ∀ (depth : Nat) (failures : List Failure),
    leavesOfAll failures =
      ((levelsOfAll depth failures).map Prod.snd).filter (·.causes.isEmpty)
  | _, [] => rfl
  | depth, failure :: rest => by
    rw [leavesOfAll, levelsOfAll, List.map_append, List.filter_append,
      leaves_eq_filter depth failure, leavesOfAll_eq_filter depth rest]
end

theorem unstack_eq (stack : List Failure) : unstack stack = stack.flatMap leaves := by
  fun_induction unstack stack with
  | case1 => rfl
  | case2 reason attempted waiting ih => rw [ih, List.flatMap_cons, leaves, List.singleton_append]
  | case3 reason attempted cause rest waiting ih =>
    rw [ih, List.flatMap_append, List.flatMap_cons, List.flatMap_cons, leaves, leavesOfAll_eq]

/-- The stack yields the leaves of the tree of causes, in their order. -/
theorem reasons_eq (failure : Failure) : failure.reasons = failure.leaves := by
  rw [reasons, unstack_eq, List.flatMap_singleton]

theorem position_le_farthestOf {attempted : Int} {causes : List Failure} {cause : Failure}
    (h : cause ∈ causes) : cause.position ≤ farthestOf attempted causes := by
  induction causes with
  | nil => cases h
  | cons first rest ih =>
    rcases List.mem_cons.1 h with rfl | h
    · exact Int.le_max_left _ _
    · exact Int.le_trans (ih h) (Int.le_max_right _ _)

theorem farthestOf_attained (attempted : Int) (causes : List Failure) :
    farthestOf attempted causes = attempted ∨
      ∃ cause ∈ causes, cause.position = farthestOf attempted causes := by
  induction causes with
  | nil => exact .inl rfl
  | cons first rest ih =>
    rw [farthestOf]
    rcases Int.le_total first.position (farthestOf attempted rest) with hle | hle
    · rw [Int.max_eq_right hle]
      exact ih.imp_right fun ⟨cause, hm, he⟩ => ⟨cause, List.mem_cons_of_mem _ hm, he⟩
    · rw [Int.max_eq_left hle]
      exact .inr ⟨first, List.mem_cons_self, rfl⟩

/-- A failure about an offset of a range, which is the farthest of the offsets of its leaves. -/
structure PointsInto (failure : Failure) (start stop : Nat) : Prop where
  start_le : start ≤ failure.position
  le_stop : failure.position ≤ stop
  farthest : (failure.leaves.map position).max? = some failure.position

variable {failure : Failure} {start start' stop : Nat}

/-- A failure that points into a range points into a range that begins earlier. -/
theorem PointsInto.mono (h : failure.PointsInto start' stop) (hs : start ≤ start') :
    failure.PointsInto start stop :=
  { h with start_le := Int.le_trans (Int.ofNat_le.2 hs) h.start_le }

theorem pointsInto_of_causes_eq_nil (hc : failure.causes = []) (hs : start ≤ failure.position)
    (ht : failure.position ≤ stop) : failure.PointsInto start stop := by
  cases failure with
  | because reason attempted causes =>
    cases hc
    exact ⟨hs, ht, rfl⟩

theorem pointsInto_plain {reason : Reason} {position : Nat} (hs : start ≤ position)
    (ht : position ≤ stop) : (because reason position []).PointsInto start stop :=
  pointsInto_of_causes_eq_nil rfl (Int.ofNat_le.2 hs) (Int.ofNat_le.2 ht)

/-- What several attempts from one offset fail with may be the causes of a failure there. -/
theorem pointsInto_because {reason : Reason} {causes : List Failure} (hs : start ≤ stop)
    (h : ∀ cause ∈ causes, cause.PointsInto start stop) :
    (because reason start causes).PointsInto start stop := by
  rcases causes with _ | ⟨first, rest⟩
  · exact pointsInto_plain (Nat.le_refl _) hs
  have hposition : (because reason start (first :: rest)).position =
      farthestOf start (first :: rest) := rfl
  refine ⟨le_farthestOf _ _, farthestOf_le (Int.ofNat_le.2 hs) fun cause hm => (h cause hm).le_stop,
    ?_⟩
  have hleaves :
      (because reason start (first :: rest)).leaves = (first :: rest).flatMap leaves := by
    rw [leaves, leavesOfAll_eq, List.flatMap_cons]
  rw [hleaves, hposition, List.max?_eq_some_iff]
  constructor
  · -- The attempt itself is no farther on than the first cause.
    obtain ⟨cause, hm, he⟩ : ∃ cause ∈ first :: rest,
        cause.position = farthestOf start (first :: rest) := by
      refine (farthestOf_attained start (first :: rest)).elim (fun he => ?_) id
      have hfirst := (h first List.mem_cons_self).start_le
      have hle : first.position ≤ farthestOf start (first :: rest) :=
        position_le_farthestOf List.mem_cons_self
      exact ⟨first, List.mem_cons_self, by omega⟩
    have hmem := (List.max?_eq_some_iff.1 (h cause hm).farthest).1
    rw [he] at hmem
    obtain ⟨leaf, hl, hp⟩ := List.mem_map.1 hmem
    exact List.mem_map.2 ⟨leaf, List.mem_flatMap.2 ⟨cause, hm, hl⟩, hp⟩
  · intro position hp
    obtain ⟨leaf, hl, rfl⟩ := List.mem_map.1 hp
    obtain ⟨cause, hm, hl⟩ := List.mem_flatMap.1 hl
    exact Int.le_trans ((List.max?_eq_some_iff.1 (h cause hm).farthest).2 _
      (List.mem_map_of_mem hl)) (position_le_farthestOf hm)

end Failure

namespace Reader
open Attempt

/-- The failures of a choice are those of its alternatives, one of each. -/
theorem FirstOf.refused {answer : Answers} {rules : List Rule} {start : Nat}
    {failures : List Failure} (ho : FirstOf answer rules start (.ok (.error failures))) :
    List.Forall₂ (fun rule failure => answer rule start (.error (.failure failure))) rules
      failures := by
  generalize ho' : Except.ok (Except.error failures) = out at ho
  induction ho generalizing failures with
  | none =>
    cases ho'
    exact .nil
  | nowhere ha _ ih =>
    cases ho'
    exact .cons ha (ih rfl)
  | _ => cases ho'

section Terminals
variable {r : Reader} {rule : Rule} {start : Nat} {failure : Failure}

theorem matchNewLine_pointsInto (hs : start ≤ r.stop)
    (h : (r.matchNewLine rule start).result = .error (.failure failure)) :
    failure.PointsInto start r.stop := by
  unfold matchNewLine at h
  split at h
  · cases h
  · split at h
    · cases h
    · cases h
      exact Failure.pointsInto_plain (Nat.le_refl _) hs

variable (hooks : r.lexis.Confined r.text r.stop) (hs : start ≤ r.stop)
include hooks hs

theorem significant_pointsInto {f : Nat → Attempt ParseTree}
    (hf : ∀ i, i < r.stop → (f i).result = .error (.failure failure) →
      failure.PointsInto i r.stop)
    (h : (r.significant start >>= f).result = .error (.failure failure)) :
    failure.PointsInto start r.stop := by
  obtain ⟨i, hi, rfl | ⟨hlt, h⟩⟩ := significant_bind_failed h
  · obtain ⟨hle, hstop⟩ := hooks.skip hs hi
    exact Failure.pointsInto_plain hle hstop
  · exact (hf i hlt h).mono (hooks.skip hs hi).1

theorem matchToken_pointsInto (h : (r.matchToken rule start).result = .error (.failure failure)) :
    failure.PointsInto start r.stop := by
  refine significant_pointsInto hooks hs (fun i hi h => ?_) h
  split at h
  · cases h
  · split at h
    · cases h
    · split at h <;> cases h
      exact Failure.pointsInto_plain (Nat.le_sub_one_of_lt hi) (Nat.sub_le _ _)
  · cases h
    exact Failure.pointsInto_plain (Nat.le_refl _) (Nat.le_of_lt hi)

theorem matchIdentifier_pointsInto
    (h : (r.matchIdentifier rule start).result = .error (.failure failure)) :
    failure.PointsInto start r.stop := by
  refine significant_pointsInto hooks hs (fun i hi h => ?_) h
  have hpoints {reason : Reason} : (Failure.because reason i []).PointsInto i r.stop :=
    Failure.pointsInto_plain (Nat.le_refl i) (Nat.le_of_lt hi)
  split at h
  · cases h
  · split at h
    · cases h
      exact hpoints
    · dsimp only at h
      split at h
      · cases h
      · split at h <;> cases h
        exact hpoints

theorem matchLiteral_pointsInto
    (h : (r.matchLiteral rule start).result = .error (.failure failure)) :
    failure.PointsInto start r.stop := by
  unfold matchLiteral matchWord at h
  dsimp only at h
  split at h
  · split at h <;> cases h
  · rename_i hword
    refine significant_pointsInto hooks hs (fun i hi h => ?_) h
    split at h
    · cases h
      exact Failure.pointsInto_plain (Nat.le_refl _) (Nat.le_of_lt hi)
    · rename_i hp
      have hstop := (rest_prefix_bound (by simpa using hp) hword).1
      have hpoints {reason : Reason} := @Failure.pointsInto_plain i r.stop reason _
        (Nat.le_add_right i rule.literal.length) hstop
      split at h
      · cases h
        exact hpoints
      · split at h
        · cases h
        · split at h <;> cases h
          exact hpoints

theorem matchExtension_pointsInto
    (h : (r.matchExtension rule start).result = .error (.failure failure)) :
    failure.PointsInto start r.stop := by
  refine significant_pointsInto hooks hs (fun i hi h => ?_) h
  split at h
  · rename_i halt hextend
    cases h
    obtain ⟨hc, hle, hstop⟩ := hooks.failed hi hextend
    exact Failure.pointsInto_of_causes_eq_nil hc hle hstop
  · cases h
    exact Failure.pointsInto_plain (Nat.le_refl _) (Nat.le_of_lt hi)
  · split at h <;> cases h

end Terminals

section Descent
variable {r : Reader} {rule : Rule} {start : Nat}

def Confines (r : Reader) (start offset : Nat) : Prop :=
  start ≤ r.stop → start ≤ offset ∧ offset ≤ r.stop

theorem Confines.refl (a : Nat) : r.Confines a a := fun h => ⟨Nat.le_refl a, h⟩

/-- An offset that is confined leads to one that is confined as well. -/
theorem Confines.trans {a b c : Nat} (hab : r.Confines a b) (hbc : r.Confines b c) :
    r.Confines a c := by
  unfold Confines at *
  omega

theorem Placed.confines (hooks : r.lexis.Confined r.text r.stop) {m : Match}
    (hp : r.Placed rule start m) : r.Confines start m.stop := by
  intro hs
  cases hp with
  | nothing => exact ⟨Nat.le_refl _, hs⟩
  | newLine hlt => exact ⟨Nat.le_succ _, hlt⟩
  | word _ hi hlt hstop => exact ⟨Nat.le_trans (hooks.skip hs hi).1 (Nat.le_of_lt hlt), hstop⟩
  | extension hi hlt hf =>
    have hle := (hooks.skip hs hi).1
    have hfound := hooks.found hlt hf
    dsimp only
    omega

theorem run_confines (hooks : r.lexis.Confined r.text r.stop) (depth : Nat)
    {busy : List (Nat × Rule)} {tree : ParseTree}
    (h : (r.run depth busy rule start).result = .ok tree) : r.Confines start tree.stop :=
  run_builds (fun _ start tree => r.Confines start tree.stop)
    (fun _ _ _ ho => ho.builds.leads .refl .trans (fun _ _ tree ha => ha tree rfl)
      fun _ hp => hp.confines hooks) depth h

theorem Yields.pointsInto {answer : Answers} (hooks : r.lexis.Confined r.text r.stop)
    (hs : start ≤ r.stop)
    (hc : ∀ rule start tree, answer rule start (.ok tree) → r.Confines start tree.stop)
    (h : ∀ rule start failure, start ≤ r.stop → answer rule start (.error (.failure failure)) →
      failure.PointsInto start r.stop)
    {failure : Failure} (ho : Yields answer r rule start (.error (.failure failure))) :
    failure.PointsInto start r.stop := by
  generalize ho' : (Except.error (.failure failure) : Except Halt ParseTree) = out at ho
  cases ho with
  | literal => exact matchLiteral_pointsInto hooks hs ho'.symm
  | anyToken => exact matchToken_pointsInto hooks hs ho'.symm
  | anyIdentifier => exact matchIdentifier_pointsInto hooks hs ho'.symm
  | newLine => exact matchNewLine_pointsInto hs ho'.symm
  | undefined =>
    cases ho'
    exact Failure.pointsInto_plain (Nat.le_refl _) hs
  | extension => exact matchExtension_pointsInto hooks hs ho'.symm
  | reference _ ha => exact h _ _ _ hs (ho' ▸ ha)
  | sequenceHalt ht =>
    cases ho'
    -- the part that fails may start beyond the sequence
    obtain ⟨part, start', hp, ha⟩ := ht.halted
    obtain ⟨hle, hstop⟩ := hp.leads Confines.refl .trans hc hs
    exact (h _ _ _ hstop ha).mono hle
  | noChoice hf =>
    cases ho'
    refine Failure.pointsInto_because hs fun cause hm => ?_
    obtain ⟨_, _, ha⟩ := hf.failures cause hm
    exact h _ _ _ hs ha
  | choiceHalt hf =>
    cases ho'
    obtain ⟨_, _, ⟨⟩, _⟩ := hf.halted
  | repetitionHalt hg =>
    cases ho'
    obtain ⟨_, _, ⟨⟩, _⟩ := hg.halted
  | _ => cases ho'

/-- What a run fails with points into its range. -/
theorem run_pointsInto (hooks : r.lexis.Confined r.text r.stop) :
    ∀ (depth : Nat) {busy : List (Nat × Rule)} {rule : Rule} {start : Nat} {failure : Failure},
      start ≤ r.stop → (r.run depth busy rule start).result = .error (.failure failure) →
      failure.PointsInto start r.stop
  | 0, _, _, _, _, _, h => by cases h
  | depth + 1, busy, rule, start, failure, hs, h => by
    by_cases hb : (start, rule) ∈ busy
    · rw [run_busy hb] at h
      cases h
      exact Failure.pointsInto_plain (Nat.le_refl _) hs
    · exact (h ▸ run_yields hb).pointsInto hooks hs (fun _ _ _ => run_confines hooks depth)
        fun _ _ _ hs' => run_pointsInto hooks depth hs'

/-- A choice that fails has one cause for each alternative, in their order. -/
theorem run_choice_failed {depth : Nat} {busy : List (Nat × Rule)} {alternatives : List Rule}
    {o : Origin} {failure : Failure} (hb : (start, .choice alternatives o) ∉ busy)
    (h : (r.run (depth + 1) busy (.choice alternatives o) start).result =
      .error (.failure failure)) : ∃ causes,
      failure = .because (.noAlternative (Rule.choice alternatives o).describe) start causes ∧
      List.Forall₂ (fun alternative cause =>
        (r.run depth ((start, .choice alternatives o) :: busy) alternative start).result =
          .error (.failure cause)) alternatives causes := by
  have ho := h ▸ run_yields hb
  generalize ho' : (Except.error (.failure failure) : Except Halt ParseTree) = out at ho
  cases ho with
  | choice => cases ho'
  | noChoice hf =>
    cases ho'
    exact ⟨_, rfl, hf.refused⟩
  | choiceHalt hf =>
    cases ho'
    obtain ⟨_, _, ⟨⟩, _⟩ := hf.halted

end Descent
end Reader

theorem Lexis.Confined.stays {lexis : Lexis} {text : Text}
    (hooks : lexis.Confined text text.length) : lexis.Stays (fun _ => True) text where
  skip {start} hs := by
    cases h : lexis.skip text start text.length with
    | error cause => trivial
    | ok i => exact (hooks.skip hs h).2
  extend rule start hs := by
    cases h : lexis.extend rule text start text.length with
    | error halt =>
      cases halt with
      | abort cause => exact .inr trivial
      | failure failure =>
        obtain ⟨-, hle, hstop⟩ := hooks.failed hs h
        exact ⟨by omega, hstop⟩
    | ok found? =>
      cases found? with
      | none => trivial
      | some found =>
        obtain ⟨hle, hfound⟩ := hooks.found hs h
        exact ⟨by omega, hfound⟩

/-- With hooks that stay within the range that they are given, every failure of a match points into
the range of that match, at the farthest of its reasons, the leaves of its tree of causes; a choice
that fails has one cause for each alternative. So what a whole parse fails with has a line and a
column of the text, and a picture of them. -/
theorem Language.failures_point (language : Language) (text : Text)
    (hooks : ∀ stop ≤ text.length, language.lexis.Confined text stop) :
    (∀ stop ≤ text.length, ∀ depth busy rule start farthest failure, start ≤ stop →
      ((Reader.run ⟨language.grammar, language.lexis, text, stop⟩ depth busy rule start).outcome
        farthest).1 = .error (.failure failure) →
      failure.PointsInto start stop ∧ failure.reasons = failure.leaves ∧
      failure.leaves = ((failure.levels 0).map Prod.snd).filter (·.causes.isEmpty) ∧
      ∀ alternatives o, rule = .choice alternatives o → (start, rule) ∉ busy → ∃ causes,
        failure = .because (.noAlternative rule.describe) start causes ∧
        List.Forall₂ (fun alternative cause =>
          (Reader.run ⟨language.grammar, language.lexis, text, stop⟩ (depth - 1)
            ((start, rule) :: busy) alternative start).result = .error (.failure cause))
          alternatives causes) ∧
    ∀ start filename d, language.parse start text filename = .error (.failed d) →
      1 ≤ d.position.line ∧ d.position.line ≤ d.source.lineStarts.length ∧ 1 ≤ d.position.column ∧
      ∃ picture, d.complaint? =
        some (d.source.headline d.failure.position d.failure.message ++ "\n" ++ picture) := by
  constructor
  · intro stop hstop depth busy rule start farthest failure hs h
    rw [(Reader.run_steady _ depth busy rule start).outcome_fst] at h
    refine ⟨Reader.run_pointsInto (hooks stop hstop) depth hs h, failure.reasons_eq,
      failure.leaves_eq_filter 0, ?_⟩
    rintro alternatives o rfl hb
    cases depth with
    | zero => cases h
    | succ depth => exact Reader.run_choice_failed hb h
  · intro start filename d h
    obtain ⟨_, ⟨⟩, hsource, hle, -⟩ | ⟨_, ⟨⟩, _⟩ :=
      Language.parse_error (hooks text.length (Nat.le_refl _)).stays h
    obtain ⟨i, hi⟩ := Int.eq_ofNat_of_zero_le hle
    have hline : d.source.firstLine = 1 := hsource ▸ rfl
    have htab : d.source.tabWidth = 2 := hsource ▸ rfl
    have hwithin := d.source.position_within (by omega) i
    rw [Diagnosis.position, Diagnosis.complaint?, hi]
    exact ⟨by omega, by omega, hwithin.2.2, d.source.complaint?_natCast i _ _⟩

def pairRule : Rule :=
  let written := "'a' 'b' | 'a' 'c'".toList
  let part (start stop : Nat) : Origin := ⟨start, stop, false, none, written⟩
  .choice [.sequence [.leaf .literal (part 0 3), .leaf .literal (part 4 7)] (part 0 7),
    .sequence [.leaf .literal (part 10 13), .leaf .literal (part 14 17)] (part 10 17)] (part 0 17)

def pairLanguage : Language where
  grammar := .ofList [("Pair", some pairRule)]
  lexis := .plain

/-- Both alternatives get as far as the letter after the `a`. -/
theorem pair_failure_points : ∃ failure causes d picture,
    ((pairLanguage.reader "a d".toList).run 3 [] pairRule 0).outcome 0 =
      (.error (.failure failure), 1) ∧
    failure = .because (.noAlternative pairRule.describe) 0 causes ∧ causes.length = 2 ∧
    failure.reasons.map Failure.position = [2, 2] ∧ failure.PointsInto 0 3 ∧
    pairLanguage.parse "Pair" "a d".toList none = .error (.failed d) ∧ d.position = ⟨1, 3⟩ ∧
    d.complaint? = some (d.source.headline 2 d.failure.message ++ "\n" ++ picture) := by
  obtain ⟨hmatch, hparse⟩ := Language.failures_point pairLanguage "a d".toList
    fun _ _ => Lexis.plain_confined _ _
  have hrun : ((pairLanguage.reader "a d".toList).run 3 [] pairRule 0).outcome 0 =
      (.error (.failure _), 1) := rfl
  have hfailed : pairLanguage.parse "Pair" "a d".toList none = .error (.failed _) := rfl
  obtain ⟨hpoints, hreasons, -, -⟩ := hmatch 3 (by decide) 3 [] pairRule 0 0 _ (by decide)
    (congrArg Prod.fst hrun)
  obtain ⟨-, -, -, picture, hp⟩ := hparse "Pair" none _ hfailed
  refine ⟨_, _, _, picture, hrun, rfl, rfl, ?_, hpoints, hfailed, rfl, hp⟩
  rw [hreasons]
  rfl

end OrderedBnf
