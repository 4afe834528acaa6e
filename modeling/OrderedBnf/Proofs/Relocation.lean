import OrderedBnf.Proofs.Compiling

/-! A stretch compiles alike wherever it stands: only the ranges of the nodes move with it. -/
namespace OrderedBnf

def Origin.placed (text : Text) (offset : Nat) (o : Origin) : Origin :=
  { o with start := o.start + offset, stop := o.stop + offset, text }

namespace Rule

mutual
def placed (text : Text) (offset : Nat) : Rule → Rule
  | leaf form o => leaf form (o.placed text offset)
  | sequence rules o => sequence (placedAll text offset rules) (o.placed text offset)
  | choice rules o => choice (placedAll text offset rules) (o.placed text offset)
  | optional body o => optional (placed text offset body) (o.placed text offset)
  | repetition body o => repetition (placed text offset body) (o.placed text offset)

def placedAll (text : Text) (offset : Nat) : List Rule → List Rule
  | [] => []
  | rule :: rest => placed text offset rule :: placedAll text offset rest
end

section Placing
variable (text : Text) (offset : Nat)

theorem placed_start (rule : Rule) : (rule.placed text offset).start = rule.start + offset := by
  cases rule <;> rfl

theorem placed_stop (rule : Rule) : (rule.placed text offset).stop = rule.stop + offset := by
  cases rule <;> rfl

theorem stops_placedAll (rules : List Rule) :
    (placedAll text offset rules).map stop = (rules.map stop).map (· + offset) := by
  induction rules with
  | nil => rfl
  | cons rule rest ih =>
    rw [placedAll, List.map_cons, ih, placed_stop, List.map_cons, List.map_cons]

theorem foldl_max_add (offset : Nat) (stops : List Nat) : ∀ a : Nat,
    (stops.map (· + offset)).foldl max (a + offset) = stops.foldl max a + offset := by
  induction stops with
  | nil => exact fun _ => rfl
  | cons b stops ih =>
    intro a
    rw [List.map_cons, List.foldl_cons, List.foldl_cons, Nat.add_max_add_right, ih]

theorem join_placed (source : Text) (cut : Cut) (left right : Rule) :
    (join source cut left right).placed text offset =
      join text cut (left.placed text offset) (right.placed text offset) := by
  have horigin (rest : List Rule) :
      (Origin.mk left.start (((left :: rest).map stop).foldl max 0) false none source).placed
        text offset = Origin.mk (left.placed text offset).start
          (((placedAll text offset (left :: rest)).map stop).foldl max 0) false none text := by
    rw [stops_placedAll, List.map_cons, List.map_cons, List.foldl_cons, List.foldl_cons,
      Nat.zero_max, Nat.zero_max, foldl_max_add, placed_start]
    rfl
  cases cut with
  | choice => cases right <;> exact congrArg (Rule.choice _) (horigin _)
  | sequence => cases right <;> exact congrArg (Rule.sequence _) (horigin _)

theorem bracket_placed (source : Text) (s : Stretch) (opening : Char) (body : Rule) :
    (bracket source s opening body).placed text offset =
      bracket text ⟨s.start + offset, s.chars⟩ opening (body.placed text offset) := by
  have horigin : (Origin.mk s.start s.stop false none source).placed text offset =
      Origin.mk (s.start + offset) (Stretch.mk (s.start + offset) s.chars).stop false none
        text := by
    rw [Origin.placed, Stretch.stop, Stretch.stop, Nat.add_right_comm]
  unfold bracket
  by_cases hgroup : opening = '('
  · simp only [if_pos hgroup]
    cases body with
    | leaf => rfl
    | sequence => exact congrArg (Rule.sequence _) horigin
    | choice => exact congrArg (Rule.choice _) horigin
    | optional => exact congrArg (Rule.optional _) horigin
    | repetition => exact congrArg (Rule.repetition _) horigin
  · simp only [if_neg hgroup]
    split
    · exact congrArg (Rule.optional _) horigin
    · exact congrArg (Rule.repetition _) horigin

end Placing
end Rule

/-- Whether and where a search finds a cut does not depend on where the stretch starts. -/
theorem cutFrom_first {first i depth : Nat} {quote : Option Char} {blank : Option Nat}
    {chars : Text} {cut : Option Cut} (h : cutFrom first i depth quote blank chars = .ok cut)
    (first' : Nat) : cutFrom first' i depth quote blank chars = .ok cut := by
  fun_induction cutFrom first i depth quote blank chars with
  | _ => rw [cutFrom.eq_def]; grind

namespace Stretch

def shift (offset : Nat) (s : Stretch) : Stretch := ⟨s.start + offset, s.chars⟩

variable {offset : Nat} {s : Stretch}

theorem cut?_shift {cut : Option Cut} (h : (s.shift offset).cut? = .ok cut) : s.cut? = .ok cut :=
  cutFrom_first h s.start

theorem trim_shift : (s.shift offset).trim = s.trim.shift offset :=
  congrArg (Stretch.mk · _) (Nat.add_right_comm _ _ _)

theorem after_shift (cut : Cut) : (s.shift offset).after cut = (s.after cut).shift offset := by
  rw [after, shift, shift, after, Nat.add_right_comm s.start, Nat.add_right_comm (s.start + _)]

theorem inner_shift : (s.shift offset).inner = s.inner.shift offset :=
  congrArg (Stretch.mk · _) (Nat.add_right_comm _ _ _)

end Stretch

namespace Rule

/-- A stretch compiles alike where it stands in one text and in another. -/
theorem Compiled.moved {text : Text} {offset : Nat} {t : Stretch} {rule : Rule}
    (h : Compiled text t rule) (source : Text) : ∀ s, t = s.shift offset →
      ∃ again, Compiled source s again ∧ again.placed text offset = rule := by
  induction h with
  | @leaf t form hc hword =>
    rintro s rfl
    refine ⟨_, .leaf (Stretch.cut?_shift hc) hword, ?_⟩
    rw [placed, Origin.placed, Stretch.stop, Stretch.stop, Stretch.shift, Nat.add_right_comm]
  | bracket hc hs ho hne _ ih =>
    rintro s rfl
    rw [Stretch.inner_shift, Stretch.trim_shift] at hne
    obtain ⟨body, hbody, rfl⟩ := ih s.inner.trim (by rw [Stretch.inner_shift, Stretch.trim_shift])
    exact ⟨_, .bracket (Stretch.cut?_shift hc) hs ho hne hbody, bracket_placed ..⟩
  | @cut t cut _ _ hc _ _ ihl ihr =>
    rintro s rfl
    obtain ⟨left, hl, rfl⟩ := ihl (s.before cut).trim
      (@Stretch.trim_shift offset (s.before cut))
    obtain ⟨right, hr, rfl⟩ := ihr (s.after cut).trim
      (by rw [Stretch.after_shift, Stretch.trim_shift])
    exact ⟨_, .cut (Stretch.cut?_shift hc) hl hr, join_placed ..⟩

/-- A rule that is built as its stretch is cut is what the stretch is compiled to. -/
theorem Compiled.compileStretch {text : Text} {s : Stretch} {rule : Rule}
    (h : Compiled text s rule) : compileStretch text s = .ok rule := by
  induction h with
  | leaf hc hword => exact compileStretch_leafWord hc hword
  | bracket hc hs ho hne _ ih => exact compileStretch_bracket hc hs ho hne ih
  | cut hc _ _ ihl ihr => exact compileStretch_cut hc ihl ihr

end Rule
end OrderedBnf
