import OrderedBnf.Proofs.Coverage
import OrderedBnf.Proofs.CycleGuard

/-! Matches by what is left of the text before and after them, in place of offsets. -/
namespace OrderedBnf.Reader

def offset (r : Reader) (left : Text) : Nat := r.text.length - left.length

section Answered
variable (r : Reader) (answer : Answers)

/-- Under a way of answering, a rule matches what one remainder has before another. -/
structure TakesBy (rule : Rule) (left left' : Text) (tree : ParseTree) : Prop where
  ends : answer rule (r.offset left) (.ok tree)
  stop : tree.stop = r.offset left'
  suffix : left' <:+ left

/-- A rule fails on a remainder; a failure may be recovered from. -/
def RefusesBy (rule : Rule) (left : Text) : Prop :=
  ∃ failure, answer rule (r.offset left) (.error (.failure failure))

inductive TakesAllBy : List Rule → Text → Text → List ParseTree → Prop
  | nil {left} : TakesAllBy [] left left []
  | cons {part rest left middle left' tree trees} : r.TakesBy answer part left middle tree →
      TakesAllBy rest middle left' trees → TakesAllBy (part :: rest) left left' (tree :: trees)

inductive TakesRoundsBy (body : Rule) : Text → Text → List ParseTree → Prop
  | done {left} : r.RefusesBy answer body left → TakesRoundsBy body left left []
  | round {left middle left' tree trees} : r.TakesBy answer body left middle tree →
      middle.length < left.length → TakesRoundsBy body middle left' trees →
      TakesRoundsBy body left left' (tree :: trees)

end Answered

section Ending
variable (r : Reader)

abbrev Takes : Rule → Text → Text → ParseTree → Prop := r.TakesBy (Ends r)

abbrev Refuses : Rule → Text → Prop := r.RefusesBy (Ends r)

abbrev TakesAll : List Rule → Text → Text → List ParseTree → Prop := r.TakesAllBy (Ends r)

abbrev TakesRounds : Rule → Text → Text → List ParseTree → Prop := r.TakesRoundsBy (Ends r)

end Ending

inductive EndsAt (r : Reader) : Text → Text → List ParseTree → Prop
  | nil {left} : EndsAt r left left []
  | cons {left middle left' tree trees} : tree.stop = r.offset middle → middle <:+ left →
      EndsAt r middle left' trees → EndsAt r left left' (tree :: trees)

variable {r : Reader} {answer answer' : Answers} {rule body : Rule}
  {rules parts before after : List Rule} {o : Origin}
  {left middle left' : Text} {tree : ParseTree} {trees : List ParseTree}

theorem offset_mono (h : left' <:+ left) : r.offset left ≤ r.offset left' :=
  Nat.sub_le_sub_left h.length_le _

theorem offset_append {word : Text} (h : word ++ left <:+ r.text) :
    r.offset left = r.offset (word ++ left) + word.length := by
  have hle := h.length_le
  rw [List.length_append] at hle
  rw [offset, offset, List.length_append]
  omega

theorem drop_offset (h : left <:+ r.text) : r.text.drop (r.offset left) = left :=
  (List.suffix_iff_eq_drop.1 h).symm

/-- A word that the text goes on with stands at its offset. -/
theorem window_offset {word : Text} (h : word ++ left <:+ r.text) :
    r.text.window (r.offset (word ++ left)) (r.offset left) = word := by
  rw [Text.window, offset_append h, Nat.add_sub_cancel_left, drop_offset h, List.take_left]

theorem TakesAllBy.suffix (h : r.TakesAllBy answer parts left left' trees) : left' <:+ left := by
  induction h with
  | nil => exact List.suffix_refl _
  | cons ht _ ih => exact ih.trans ht.suffix

theorem TakesRoundsBy.suffix (h : r.TakesRoundsBy answer body left left' trees) :
    left' <:+ left := by
  induction h with
  | done => exact List.suffix_refl _
  | round ht _ _ ih => exact ih.trans ht.suffix

section Transfer
variable (himp : ∀ ⦃rule start out⦄, answer rule start out → answer' rule start out)
include himp

theorem TakesBy.imp (h : r.TakesBy answer rule left left' tree) :
    r.TakesBy answer' rule left left' tree :=
  ⟨himp h.ends, h.stop, h.suffix⟩

theorem RefusesBy.imp (h : r.RefusesBy answer rule left) : r.RefusesBy answer' rule left :=
  Exists.imp (fun _ ha => himp ha) h

end Transfer

theorem TakesAllBy.inTurn (h : r.TakesAllBy answer parts left left' trees) :
    InTurn answer parts (r.offset left) (.ok trees) := by
  induction h with
  | nil => exact .done
  | cons ht _ ih => exact .next ht.ends (ht.stop ▸ ih)

theorem TakesRoundsBy.again (h : r.TakesRoundsBy answer body left left' trees)
    (hl : left <:+ r.text) : Again answer (r.offset left) body (.ok trees) := by
  induction h with
  | done hr => exact .failed hr.choose_spec
  | round ht hlt _ ih =>
    have hle := hl.length_le
    refine .round ht.ends ?_ (ht.stop ▸ ih (ht.suffix.trans hl))
    rw [ht.stop, offset, offset]
    omega

theorem TakesAllBy.endsAt (h : r.TakesAllBy answer parts left left' trees) :
    r.EndsAt left left' trees := by
  induction h with
  | nil => exact .nil
  | cons ht _ ih => exact .cons ht.stop ht.suffix ih

theorem TakesRoundsBy.endsAt (h : r.TakesRoundsBy answer body left left' trees) :
    r.EndsAt left left' trees := by
  induction h with
  | done => exact .nil
  | round ht _ _ ih => exact .cons ht.stop ht.suffix ih

theorem EndsAt.foldl_stop (h : r.EndsAt left left' trees) :
    (trees.map ParseTree.stop).foldl max (r.offset left) = r.offset left' := by
  induction h with
  | nil => rfl
  | cons hs hm _ ih => rw [List.map_cons, List.foldl_cons, hs, Nat.max_eq_right (offset_mono hm), ih]

/-- A node over trees one after another ends where the last of them does. -/
theorem EndsAt.spanning_stop (kind : Kind) (rule : Rule) {branches : List (Option ParseTree)}
    (h : r.EndsAt left left' (branches.filterMap id)) :
    (ParseTree.spanning kind rule (r.offset left) branches).stop = r.offset left' := by
  rw [ParseTree.spanning_stop_eq, h.foldl_stop]
  intro first rest he
  rw [he] at h
  cases h with
  | cons hs hm => exact hs ▸ offset_mono hm

section Taking
variable (close : r.Closes answer answer')
include close

theorem takes_reference (hb : r.grammar.body? (Rule.leaf .reference o).target = some (some body))
    (h : r.TakesBy answer body left left' tree) :
    r.TakesBy answer' (.leaf .reference o) left left' tree :=
  ⟨close (.reference hb h.ends), h.stop, h.suffix⟩

/-- A sequence takes what its parts take in turn. -/
theorem takes_sequence (h : r.TakesAllBy answer parts left left' trees) :
    r.TakesBy answer' (.sequence parts o) left left'
      (.spanning .sequence (.sequence parts o) (r.offset left) (trees.map some)) := by
  refine ⟨close (.sequence h.inTurn), EndsAt.spanning_stop _ _ ?_, h.suffix⟩
  rw [List.filterMap_map, Function.id_comp, List.filterMap_some]
  exact h.endsAt

omit close in
theorem firstOf_later (h : ∀ rule ∈ before, r.RefusesBy answer rule left)
    {places : List (Option ParseTree)}
    (hf : FirstOf answer rules (r.offset left) (.ok (.ok places))) :
    FirstOf answer (before ++ rules) (r.offset left)
      (.ok (.ok (before.map (fun _ => none) ++ places))) := by
  induction before with
  | nil => exact hf
  | cons rule before ih =>
    obtain ⟨failure, hr⟩ := h rule List.mem_cons_self
    exact .later hr (ih fun rule hm => h rule (List.mem_cons_of_mem _ hm))

/-- A choice takes what one alternative does, where those before it refuse. -/
theorem takes_choice (hbefore : ∀ rule ∈ before, r.RefusesBy answer rule left)
    (h : r.TakesBy answer rule left left' tree) :
    r.TakesBy answer' (.choice (before ++ rule :: after) o) left left'
      (.spanning .choice (.choice (before ++ rule :: after) o) (r.offset left)
        (before.map (fun _ => none) ++ some tree :: after.map fun _ => none)) := by
  refine ⟨close (.choice (firstOf_later hbefore (.here h.ends))), EndsAt.spanning_stop _ _ ?_,
    h.suffix⟩
  rw [filterMap_single]
  exact .cons h.stop h.suffix .nil

theorem takes_present (h : r.TakesBy answer body left left' tree) :
    r.TakesBy answer' (.optional body o) left left'
      (.spanning .optional (.optional body o) (r.offset left) [some tree]) :=
  ⟨close (.present h.ends), EndsAt.spanning_stop _ _ (.cons h.stop h.suffix .nil), h.suffix⟩

theorem takes_absent (h : r.RefusesBy answer body left) :
    r.TakesBy answer' (.optional body o) left left
      (.spanning .optional (.optional body o) (r.offset left) []) :=
  ⟨close (.absent h.choose_spec), EndsAt.spanning_stop _ _ .nil, List.suffix_refl _⟩

/-- A repetition takes rounds up to where its body refuses. -/
theorem takes_repetition (h : r.TakesRoundsBy answer body left left' trees) (hl : left <:+ r.text) :
    r.TakesBy answer' (.repetition body o) left left'
      (.spanning .repetition (.repetition body o) (r.offset left) (trees.map some)) := by
  refine ⟨close (.repetition (h.again hl)), EndsAt.spanning_stop _ _ ?_, h.suffix⟩
  rw [List.filterMap_map, Function.id_comp, List.filterMap_some]
  exact h.endsAt

end Taking

section Refusing
variable (close : r.Closes answer answer')
include close

theorem refuses_reference
    (hb : r.grammar.body? (Rule.leaf .reference o).target = some (some body))
    (h : r.RefusesBy answer body left) : r.RefusesBy answer' (.leaf .reference o) left :=
  ⟨_, close (.reference hb h.choose_spec)⟩

omit close in
theorem TakesAllBy.halted (h : r.TakesAllBy answer parts left middle trees)
    (hr : r.RefusesBy answer rule middle) : ∃ failure,
      InTurn answer (parts ++ rule :: rules) (r.offset left) (.error (.failure failure)) := by
  obtain ⟨failure, hr⟩ := hr
  refine ⟨failure, ?_⟩
  induction h with
  | nil => exact .halt hr
  | cons ht _ ih => exact .nextHalt ht.ends (ht.stop ▸ ih hr)

/-- A sequence fails where one of its parts does after those before it have matched. -/
theorem refuses_after (h : r.TakesAllBy answer parts left middle trees)
    (hr : r.RefusesBy answer rule middle) :
    r.RefusesBy answer' (.sequence (parts ++ rule :: rules) o) left := by
  obtain ⟨failure, h⟩ := h.halted hr
  exact ⟨failure, close (.sequenceHalt h)⟩

theorem refuses_first (h : r.RefusesBy answer rule left) :
    r.RefusesBy answer' (.sequence (rule :: rules) o) left :=
  refuses_after close .nil h

omit close in
/-- A sequence fails where the rest of it does after its first part has matched. -/
theorem refuses_rest {o' : Origin} (ht : r.Takes rule left middle tree)
    (h : r.Refuses (.sequence rules o') middle) :
    r.Refuses (.sequence (rule :: rules) o) left := by
  obtain ⟨failure, h⟩ := h
  refine ⟨failure, .intro (.sequenceHalt (.nextHalt ht.ends (ht.stop ▸ ?_)))⟩
  cases h with
  | intro h =>
    cases h with
    | sequenceHalt h => exact h

/-- A choice refuses a text that all of its alternatives refuse. -/
theorem refuses_choice (h : ∀ rule ∈ rules, r.RefusesBy answer rule left) :
    r.RefusesBy answer' (.choice rules o) left := by
  have hfirst : ∃ failures,
      FirstOf answer rules (r.offset left) (.ok (.error failures)) := by
    induction rules with
    | nil => exact ⟨[], .none⟩
    | cons rule rules ih =>
      obtain ⟨failure, hr⟩ := h rule List.mem_cons_self
      obtain ⟨failures, hrest⟩ := ih fun rule hm => h rule (List.mem_cons_of_mem _ hm)
      exact ⟨_, .nowhere hr hrest⟩
  exact ⟨_, close (.noChoice hfirst.choose_spec)⟩

end Refusing
end OrderedBnf.Reader
