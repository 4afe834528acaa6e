import OrderedBnf.Proofs.CarryingRules

/-! Expressions of the tiny language carried over to the instrumented program. -/
namespace OrderedBnf.StatementTrace
open Reader Comment

def closers : List Head := [.word [')'], .word [';'], .word [',']]

def afterTerm : List Head :=
  [.word ['=', '='], .word ['<'], .word ['+'], .word ['-']] ++ closers

def afterFactor : List Head := [.word ['*'], .word ['/']] ++ afterTerm

def operands : List Head := .word ['('] :: openings.flatMap fun p => p.2.map fun c => .word [c]

def Operand (left : Text) : Prop :=
  Begins operands left ∨ Names (Begins (.word ['('] :: afterFactor)) left

variable {text text' : Text} {call : String} {size : Nat} {left : Text}

theorem Operand.begins (h : Operand left) : Begins (.name :: operands) left := by
  rcases h with h | h
  · exact h.mono (List.subset_cons_self _ _)
  · exact h.begins.mono (List.cons_subset_cons _ (List.nil_subset _))

/-- An identifier that nothing is passed to is no call. -/
theorem refusesAs_call (h : Names (Begins afterFactor) left) (hs : left <:+ text') :
    RefusesAs text' (.rule "Call") left :=
  refusesAs_rule rfl (refusesAs_named h hs fun _ hrest => refusesAs (by decide) hrest)

/-- A rule for one thing or more of a kind, with a mark between them. -/
theorem carriesAs_separated {name : String} {mark body : Sketch} {after : List Head}
    {before : Text → Prop} (marks : List Head)
    (h : CarriesAs text text' call size none body (Begins (marks ++ after)) before)
    (hmark : CarriesAs text text' call size none mark before (Begins marks))
    (hs : sketches.lookup name =
      some (some (.sequence [body, .repetition (.sequence [mark, body])])))
    (hn : some name ≠ some "Statement")
    (hend : after.all (refuses 12 (.sequence [mark, body]) ·)) :
    CarriesAs text text' call size none (.rule name) (Begins after) before := by
  have hround : CarriesAs text text' call size none (.sequence [mark, body])
      (Begins (marks ++ after)) (Begins marks) :=
    carriesAs_sequence untitled hmark (passesAllAs_cons h.passes passesAllAs_nil)
  have hall (left : Text) (hl : Begins marks left ∨ Begins after left) :
      Begins (marks ++ after) left :=
    hl.elim (·.mono (List.subset_append_left _ _)) (·.mono (List.subset_append_right _ _))
  exact carriesAs_rule hs (carriesAs_sequence hn h (passesAllAs_cons
    (passesAs_repetition untitled hround hall (fun left hl => refusesAs hend hl) hall)
    passesAllAs_nil))

/-- A rule for operands with operators between them. -/
theorem carriesAs_operators {name : String} {body : Sketch} {after : List Head}
    {before : Text → Prop} (words : List Text)
    (h : CarriesAs text text' call size none body (Begins (words.map .word ++ after)) before)
    (hs : sketches.lookup name = some (some (.sequence
      [body, .repetition (.sequence [.choice (words.map .word), body])])))
    (hn : some name ≠ some "Statement") (hne : ∀ w ∈ words, w ≠ [])
    (hp : words.Pairwise fun w w' => refuses 12 (.word w) (.word w'))
    (hend : after.all (refuses 12 (.sequence [.choice (words.map .word), body]) ·)) :
    CarriesAs text text' call size none (.rule name) (Begins after) before := by
  have hordered : OrderedAs text text' call size before (Begins (words.map .word))
      (([] : List Text).map .word) (words.map .word) :=
    orderedAs_words hne (fun w hw => List.mem_map_of_mem hw) hp
  have hchoice : CarriesAs text text' call (size + 1) none (.choice (words.map .word)) before
      (Begins (words.map .word)) := carriesAs_choice untitled hordered
  exact carriesAs_separated _ h (hchoice.mono (Nat.le_succ size)) hs hn hend

section Rules
variable (h : CarriesAs text text' call size none (.rule "Expression") (Begins closers) Operand)
include h

theorem carriesAs_arguments :
    CarriesAs text text' call size none (.rule "Arguments") (Begins [.word [')']]) Operand :=
  carriesAs_separated [.word [',']] (h.before_mono (by decide)) carriesAs_word rfl (by decide)
    (by decide)

theorem carriesAs_call : CarriesAs text text' call size none (.rule "Call") (Begins afterFactor)
    (Names (Begins [.word ['(']])) := by
  have harguments : PassesAs text text' call size none (.optional (.rule "Arguments"))
      (Begins [.word [')']]) fun _ => True :=
    passesAs_optional untitled (carriesAs_arguments h) (by decide)
  exact carriesAs_rule rfl (carriesAs_sequence (by decide) carriesAs_name
    (passesAllAs_word (passesAllAs_cons harguments
      (passesAllAs_word passesAllAs_nil))))

theorem carriesAs_parenthesized : CarriesAs text text' call size none
    (.sequence [.word ['('], .rule "Expression", .word [')']]) (Begins afterFactor)
    (Begins [.word ['(']]) :=
  carriesAs_sequence untitled carriesAs_word (passesAllAs_cons (h.before_mono (by decide)).passes
    (passesAllAs_word passesAllAs_nil))

theorem carriesAs_factor : CarriesAs text text' call (size + 1) none (.rule "Factor")
    (Begins afterFactor) Operand := by
  refine carriesAs_rule rfl (carriesAs_choice (by decide) ⟨⟨_, carriesAs_extension rfl rfl, ?_⟩,
    ⟨_, carriesAs_extension rfl rfl, ?_⟩, ⟨_, carriesAs_call h, ?_⟩, ⟨_, carriesAs_name, ?_⟩,
    ⟨_, carriesAs_parenthesized h, ?_⟩, trivial⟩)
  · exact fun left hl _ => ⟨.inl (hl.mono (by decide)), nofun⟩
  · exact fun left hl hs =>
      ⟨.inl (hl.mono (by decide)), refusesAs_all (by decide) hl hs⟩
  · exact fun left hl hs => ⟨.inr (hl.imp fun _ hrest => hrest.mono (by decide)),
      refusesAs_all (by decide) hl.begins hs⟩
  · refine fun left hl hs => ⟨.inr (hl.imp fun _ hrest => hrest.mono (by decide)),
      fun sketch hm => ?_⟩
    rcases List.mem_append.1 hm with hm | hm
    · exact refusesAs_all (by decide) hl.begins hs sketch hm
    · rw [List.mem_singleton.1 hm]
      exact refusesAs_call hl hs
  · exact fun left hl hs =>
      ⟨.inl (hl.mono (by decide)), refusesAs_all (by decide) hl hs⟩

theorem carriesAs_term : CarriesAs text text' call (size + 1) none (.rule "Term")
    (Begins afterTerm) Operand :=
  carriesAs_operators [['*'], ['/']] (carriesAs_factor h) rfl (by decide) (by decide) (by decide)
    (by decide)

end Rules

/-- An expression is carried in front of a closer, and begins with an operand. -/
theorem carriesAs_expression (size : Nat) :
    CarriesAs text text' call size none (.rule "Expression") (Begins closers) Operand := by
  induction size with
  | zero => exact carriesAs_zero
  | succ size ih =>
    exact carriesAs_operators [['=', '='], ['<'], ['+'], ['-']] (carriesAs_term ih) rfl (by decide)
      (by decide) (by decide) (by decide)

end OrderedBnf.StatementTrace
