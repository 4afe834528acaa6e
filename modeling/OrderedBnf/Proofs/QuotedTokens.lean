import Mathlib.Data.List.Induction
import OrderedBnf.Proofs.Completeness
import OrderedBnf.Proofs.Quoting
import OrderedBnf.Proofs.Relocation

/-! What a token is written as. Of a literal only the first and the last character are looked at, so
a token is a quotation, or a text from one quotation to another with the same marks. -/
namespace OrderedBnf

/-- A text between two marks, of which the second is the first that stands without a backslash. -/
def Quoted (mark : Char) (word : Text) : Prop :=
  ∃ body, Escaped mark body ∧ word = mark :: (body ++ [mark])

theorem Escaped.append {mark : Char} {u v : Text} (hu : Escaped mark u) (hv : Escaped mark v) :
    Escaped mark (u ++ v) := by
  induction hu with
  | nil => exact hv
  | plain hm hs _ ih => exact .plain hm hs ih
  | escape _ ih => exact .escape ih

namespace Place
variable {depth depth' : Nat} {mark : Char} {text : Text}

/-- A reader who gets out of a quotation has passed the mark that closes it. -/
theorem closing_mark : ∀ {text : Text}, (inside depth mark).after text = outside depth' →
    ∃ body rest, Escaped mark body ∧ text = body ++ mark :: rest ∧
      (outside depth).after rest = outside depth'
  | c :: rest, h => by
    by_cases hs : c = '\\'
    · cases rest with
      | nil => simp [step, hs] at h
      | cons d rest =>
        obtain ⟨body, rest', hbody, rfl, hrest⟩ := @closing_mark rest (by simpa [step, hs] using h)
        exact ⟨c :: d :: body, rest', hs ▸ .escape hbody, rfl, hrest⟩
    · by_cases hm : c = mark
      · subst hm
        exact ⟨[], rest, .nil, rfl, by simpa [step, hs] using h⟩
      · obtain ⟨body, rest', hbody, rfl, hrest⟩ :=
          @closing_mark rest (by simpa [step, hs, hm] using h)
        exact ⟨c :: body, rest', .plain hm hs hbody, rfl, hrest⟩

theorem stepOutside_inside {c : Char} (h : stepOutside depth c = inside depth' mark) :
    c = mark ∧ depth = depth' := by
  unfold stepOutside at h
  grind

theorem stepOutside_ne_escaped {c : Char} : stepOutside depth c ≠ escaped depth' mark := by
  unfold stepOutside
  grind

def Opened (start : Nat) : Place → Text → Prop
  | inside depth mark, text => ∃ glue body, text = glue ++ mark :: body ∧ Escaped mark body ∧
      (outside start).after glue = outside depth
  | escaped depth mark, text => ∃ glue body, text = glue ++ mark :: (body ++ ['\\']) ∧
      Escaped mark body ∧ (outside start).after glue = outside depth
  | outside _, _ | lost, _ => True

theorem opened_step {start : Nat} {place : Place} (hplace : (outside start).after text = place)
    (h : Opened start place text) (c : Char) : Opened start (place.step c) (text ++ [c]) := by
  cases place with
  | outside d =>
    rw [step]
    cases hstep : stepOutside d c with
    | inside depth mark =>
      obtain ⟨rfl, rfl⟩ := stepOutside_inside hstep
      exact ⟨text, [], rfl, .nil, hplace⟩
    | escaped => exact absurd hstep stepOutside_ne_escaped
    | _ => trivial
  | inside d m =>
    obtain ⟨glue, body, rfl, hbody, hglue⟩ := h
    by_cases hs : c = '\\'
    · rw [step, if_pos hs]
      exact ⟨glue, body, by simp [hs], hbody, hglue⟩
    · by_cases hm : c = m
      · rw [step, if_neg hs, if_pos hm]
        trivial
      · rw [step, if_neg hs, if_neg hm]
        exact ⟨glue, body ++ [c], by simp, hbody.append (.plain hm hs .nil), hglue⟩
  | escaped d m =>
    obtain ⟨glue, body, rfl, hbody, hglue⟩ := h
    exact ⟨glue, body ++ ['\\', c], by simp, hbody.append (.escape .nil), hglue⟩
  | lost => trivial

theorem opened (start : Nat) (text : Text) :
    Opened start ((outside start).after text) text := by
  induction text using List.reverseRecOn with
  | nil => trivial
  | append_singleton text c ih =>
    rw [after_append]
    exact opened_step rfl ih c

/-- A text that leaves no quotation open and ends in a mark ends in a quotation. -/
theorem ends_quoted (hmark : isQuote mark) (h : (outside 0).after (text ++ [mark]) = outside 0) :
    ∃ glue last, text ++ [mark] = glue ++ last ∧ Quoted mark last ∧
      (outside 0).after glue = outside 0 := by
  rw [after_append] at h
  cases hp : (outside 0).after text with
  | inside d m =>
    rw [hp, after_cons, after_nil] at h
    obtain ⟨rfl, rfl⟩ : mark = m ∧ d = 0 := by
      rw [step] at h
      split at h
      · cases h
      · split at h
        · exact ⟨‹_›, by simpa using h⟩
        · cases h
    have hopened := opened 0 text
    rw [hp] at hopened
    obtain ⟨glue, body, rfl, hbody, hglue⟩ := hopened
    exact ⟨glue, mark :: (body ++ [mark]), by simp, ⟨body, hbody, rfl⟩, hglue⟩
  | outside d =>
    rw [hp] at h
    cases (step_quote hmark).symm.trans h
  | escaped d m =>
    rw [hp] at h
    cases h
  | lost =>
    rw [hp] at h
    cases h

end Place

open Place

/-- A quotation, or two with the same marks at the ends of a text that leaves nothing open between
them. -/
inductive Quotations (mark : Char) : Text → Prop
  | one {word} : Quoted mark word → Quotations mark word
  | two {first glue last} : Quoted mark first → (outside 0).after glue = outside 0 →
      Quoted mark last → Quotations mark (first ++ (glue ++ last))

inductive Stretch.Meets (whole : Stretch) : Stretch → Prop
  | self : Meets whole whole
  | before {s cut} : Meets whole s → s.cut? = .ok (some cut) → Meets whole (s.before cut).trim
  | after {s cut} : Meets whole s → s.cut? = .ok (some cut) → Meets whole (s.after cut).trim
  | inner {s opening closing inner} : Meets whole s → s.cut? = .ok none →
      s.chars = opening :: (inner ++ [closing]) → closingOf? opening = some closing →
      Meets whole s.inner.trim

theorem Opaque.not_opening {form : Leaf} {c : Char} {rest : Text} (h : Opaque form (c :: rest)) :
    closingOf? c = none := by
  have hname (h : isIdentifier (c :: rest)) : closingOf? c = none := by
    obtain ⟨d, rest', he, hd, -⟩ := head_of_identifier h
    exact (List.cons.inj he).1 ▸ hd
  cases h with
  | literal hmark => exact closingOf?_quote hmark
  | reserved h => exact hname (reserved_identifier h)
  | reference h => exact hname h

namespace Rule
variable {text : Text} {s whole : Stretch} {rule node : Rule}

/-- All that is met compiles, if the whole does. -/
theorem Compiled.part (h : Compiled text whole rule) (hs : whole.Meets s) :
    ∃ part, Compiled text s part := by
  induction hs with
  | self => exact ⟨rule, h⟩
  | before _ hc ih =>
    obtain ⟨part, hpart⟩ := ih
    cases hpart with
    | cut hc' hl _ =>
      cases hc.symm.trans hc'
      exact ⟨_, hl⟩
    | leaf hc' _ => cases hc.symm.trans hc'
    | bracket hc' _ _ _ _ => cases hc.symm.trans hc'
  | after _ hc ih =>
    obtain ⟨part, hpart⟩ := ih
    cases hpart with
    | cut hc' _ hr =>
      cases hc.symm.trans hc'
      exact ⟨_, hr⟩
    | leaf hc' _ => cases hc.symm.trans hc'
    | bracket hc' _ _ _ _ => cases hc.symm.trans hc'
  | inner _ hc hs ho ih =>
    obtain ⟨part, hpart⟩ := ih
    cases hpart with
    | bracket _ _ _ _ hbody => exact ⟨_, hbody⟩
    | leaf _ hword =>
      rw [hs] at hword
      cases ho.symm.trans hword.not_opening
    | cut hc' _ _ => cases hc.symm.trans hc'

theorem quotations_of_leaf (hc : s.cut? = .ok none) (hword : Opaque .literal s.chars) :
    ∃ mark, isQuote mark ∧ Quotations mark s.chars := by
  have hclosed : (outside 0).after s.chars = outside 0 := cutFrom_after hc (by simp)
  generalize s.chars = word at *
  cases hword with
  | @literal mark chars hmark =>
    refine ⟨mark, hmark, ?_⟩
    rw [after_cons, step_quote hmark] at hclosed
    obtain ⟨body, rest, hbody, hchars, hrest⟩ := closing_mark hclosed
    have hfirst : Quoted mark (mark :: (body ++ [mark])) := ⟨body, hbody, rfl⟩
    have hword : mark :: (chars ++ [mark]) = mark :: (body ++ [mark]) ++ rest := by
      rw [hchars]
      simp
    rcases List.eq_nil_or_concat' rest with rfl | ⟨rest, c, rfl⟩
    · rw [hword, List.append_nil]
      exact .one hfirst
    · obtain ⟨-, hlast⟩ := List.append_inj' (show mark :: chars ++ [mark] =
        mark :: (body ++ [mark]) ++ rest ++ [c] from hword.trans (List.append_assoc _ _ _).symm) rfl
      obtain rfl := (List.cons.inj hlast).1
      obtain ⟨glue, last, hglue, hlast, hopen⟩ := ends_quoted hmark hrest
      rw [hword, hglue]
      exact .two hfirst hopen hlast
  | reserved h => exact absurd rfl (reserved?_form h).1

theorem compileStretch_malformed {mark : Char} {rest : Text} (hc : s.cut? = .ok none)
    (hs : s.chars = mark :: rest) (hmark : isQuote mark) (hlast : s.chars.getLast? ≠ some mark) :
    compileStretch text s = .error ((Fault.malformedLiteral s.chars).atOffset s.start) := by
  have hne : s.chars ≠ [] := hs ▸ List.cons_ne_nil _ _
  have hlast : s.chars.getLast hne ≠ mark := by
    intro h
    exact hlast (by rw [List.getLast?_eq_some_getLast hne, h])
  rw [compileStretch_leaf hc hs (closingOf?_quote hmark)]
  simp [compileLeaf, hmark, hlast]

/-- Every token of what compiles is written as a quotation, or as a text from one quotation to
another with the same marks. Of the uncut stretches that compiling meets, one that starts with a
quotation and goes on compiles if and only if it ends in the same mark, and is then one token; else
it is malformed and the text does not compile. -/
theorem compile_tokens (text : Text) :
    (∀ rule, compile text = .ok rule → ∀ node ∈ rule.nodes, node.kind = .token →
      ∃ mark, isQuote mark ∧ Quotations mark node.writtenAs) ∧
    ∀ s mark first rest, (Stretch.mk 0 text).trim.Meets s → s.cut? = .ok none → isQuote mark →
      Quoted mark first → s.chars = first ++ rest →
      (rest = [] ∨ rest.getLast? = some mark → compileStretch text s =
        .ok (.leaf .literal ⟨s.start, s.stop, false, none, text⟩)) ∧
      (rest ≠ [] → rest.getLast? ≠ some mark → compileStretch text s =
        .error ((Fault.malformedLiteral s.chars).atOffset s.start) ∧
          ∃ error, compile text = .error error) := by
  refine ⟨fun rule h node hn hk => ?_, ?_⟩
  · obtain ⟨-, hcompiled⟩ := compile_ok h
    have hw : (Stretch.mk 0 text).trim.Within text := Stretch.Within.trim ⟨[], [], by simp, rfl⟩
    obtain ⟨o, rfl⟩ := leaf_of_kind .literal hk
    obtain ⟨s, hc, hword, hs⟩ := hcompiled.leaf_word hw hn
    rw [hs]
    exact quotations_of_leaf hc hword
  · rintro s mark _ rest hmeets hc hmark ⟨body, hbody, rfl⟩ hs
    refine ⟨?_, fun hne hlast => ?_⟩
    · rintro (rfl | hlast)
      · exact compileStretch_literal hc (hs.trans (List.append_nil _)) hmark
      · obtain ⟨rest, rfl⟩ := List.getLast?_eq_some_iff.1 hlast
        have hs : s.chars = mark :: (body ++ mark :: rest ++ [mark]) := by simp [hs]
        exact compileStretch_literal hc hs hmark
    · have hlast : s.chars.getLast? ≠ some mark := by
        rwa [hs, List.getLast?_append_of_ne_nil _ hne]
      have herror : compileStretch text s = _ := compileStretch_malformed hc hs hmark hlast
      refine ⟨herror, ?_⟩
      cases h : compile text with
      | error error => exact ⟨error, rfl⟩
      | ok rule =>
        obtain ⟨part, hpart⟩ := (compile_ok h).2.part hmeets
        cases herror.symm.trans hpart.compileStretch

/-- A choice with two quotations glued together, and a quotation with a letter after it. -/
theorem glued_tokens :
    (∃ rule, compile "'a'|'b''c'".toList = .ok rule ∧ ∀ node ∈ rule.nodes, node.kind = .token →
      ∃ mark, isQuote mark ∧ Quotations mark node.writtenAs) ∧
    compileStretch "'b''c'".toList ⟨0, "'b''c'".toList⟩ =
      .ok (.leaf .literal ⟨0, 6, false, none, "'b''c'".toList⟩) ∧
    ∃ error, compile "'a'x".toList = .error error := by
  have hquoted (c : Char) (hm : c ≠ '\'') (hs : c ≠ '\\') : Quoted '\'' ['\'', c, '\''] :=
    ⟨[c], .plain hm hs .nil, rfl⟩
  refine ⟨?_, ?_, ?_⟩
  · have h : compile "'a'|'b''c'".toList = .ok (.choice
        [.leaf .literal ⟨0, 3, false, none, "'a'|'b''c'".toList⟩,
          .leaf .literal ⟨4, 10, false, none, "'a'|'b''c'".toList⟩]
        ⟨0, 10, false, none, "'a'|'b''c'".toList⟩) := by decide +kernel
    exact ⟨_, h, (compile_tokens _).1 _ h⟩
  · exact ((compile_tokens "'b''c'".toList).2 _ '\'' "'b'".toList "'c'".toList .self (by decide) rfl
      (hquoted 'b' (by decide) (by decide)) rfl).1 (.inr rfl)
  · exact (((compile_tokens "'a'x".toList).2 _ '\'' "'a'".toList "x".toList .self (by decide) rfl
      (hquoted 'a' (by decide) (by decide)) rfl).2 (by decide) (by decide)).2

/-- Two quotations without anything between them are one token, which is no quotation. -/
theorem glued_token_not_quoted :
    compile "'a''b'".toList = .ok (.leaf .literal ⟨0, 6, false, none, "'a''b'".toList⟩) ∧
      ∀ mark, ¬ Quoted mark "'a''b'".toList := by
  refine ⟨by decide +kernel, ?_⟩
  rintro mark ⟨body, hbody, he⟩
  obtain ⟨rfl, he⟩ := List.cons.inj he
  replace he : "a''b".toList ++ ['\''] = body ++ ['\''] := he
  obtain rfl := (List.append_inj' he rfl).1
  cases hbody with
  | plain _ _ hbody =>
    cases hbody with
    | plain hm => exact hm rfl

end Rule
end OrderedBnf
