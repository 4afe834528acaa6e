import OrderedBnf.Proofs.CarryingStatements

/-! An instrumented program is a program again: the same one, with each statement in a block after
the call that announces it. -/
namespace OrderedBnf

namespace StatementTrace
open Reader Comment

def Trailing (left : Text) : Prop :=
  ∀ i, skipFrom (i + left.length) i .nothing left = .ok (i + left.length)

variable {text text' left : Text} {call : String} {size : Nat}

theorem carriesAs_parameters : CarriesAs text text' call size none (.rule "Parameters")
    (Begins [.word [')']]) (Names (Begins [.word [','], .word [')']])) :=
  carriesAs_separated [.word [',']] carriesAs_name carriesAs_word rfl (by decide)
    (by decide)

theorem carriesAs_function (hcall : language.lexis.IsName call.toList) {after : Text → Prop} :
    CarriesAs text text' call size none (.rule "Function") after
      (Begins [.word "function".toList]) := by
  have hparameters : PassesAs text text' call size none (.optional (.rule "Parameters"))
      (Begins [.word [')']]) fun _ => True :=
    passesAs_optional untitled carriesAs_parameters (by decide)
  have hblock : CarriesAs text text' call size none (.rule "Block") after (Begins [.word ['{']]) :=
    (carriesAs_block (carriesAs_statement hcall)).anywhere
  exact carriesAs_rule rfl (carriesAs_sequence (by decide) carriesAs_word
    (passesAllAs_cons carriesAs_name.passes (passesAllAs_word
      (passesAllAs_cons hparameters (passesAllAs_word
        (passesAllAs_cons hblock.passes passesAllAs_nil))))))

theorem trailing_drop {i stop : Nat} (hi : i ≤ text.length)
    (h : language.lexis.skip text i text.length = .ok stop) (hstop : text.length ≤ stop) :
    Trailing (text.drop i) := by
  have hle := ((CurlyBrace.advances grammar text).skip hi h).2
  have hlength : i + (text.drop i).length = text.length := by
    rw [List.length_drop]
    omega
  have hfrom : skipFrom text.length i .nothing (text.drop i) = .ok text.length := by
    rw [Nat.le_antisymm hle hstop] at h
    rwa [← text.window_length]
  exact fun j => skipFrom_end hfrom hlength rfl

/-- What trails behind a program is skipped up to the end of the text. -/
theorem Trailing.skip (h : Trailing left) (hs : left <:+ text') :
    language.lexis.skip text' ((language.reader text').offset left) text'.length =
      .ok text'.length := by
  have hlength : (language.reader text').offset left + left.length = text'.length :=
    Nat.sub_add_cancel hs.length_le
  have hleft : text'.window ((language.reader text').offset left) text'.length = left :=
    (text'.window_length _).trans (drop_offset hs)
  change skipFrom _ _ _ _ = _
  rw [hleft, ← hlength]
  exact h _

/-- No function is left in what is skipped to its end. -/
theorem Trailing.refuses (h : Trailing left) (hs : left <:+ text') :
    RefusesAs text' (.rule "Function") left := by
  intro title rule his
  obtain ⟨o, rfl, htarget⟩ := Rule.is_rule his
  obtain ⟨body, hb, hbody⟩ :=
    body?_of_sketch (show sketches.lookup "Function" = some (some _) from rfl)
  obtain ⟨parts, o', rfl, -, hparts⟩ := Rule.is_sequence hbody
  obtain ⟨first, parts, rfl, hfirst, -⟩ := Rule.areAll_cons hparts
  obtain ⟨o'', rfl, hword⟩ := Rule.is_word hfirst
  exact refuses_reference Ends.closes (htarget ▸ hb) (refuses_first Ends.closes
    (refuses_literal_at_end Ends.closes (h.skip hs) (Nat.le_refl _) (hword ▸ by decide)))

theorem passesAs_program (hcall : language.lexis.IsName call.toList) :
    PassesAs text text' call (size + 1) (some "Program") (.repetition (.rule "Function")) Trailing
      fun _ => True :=
  passesAs_repetition (by decide) (carriesAs_function hcall) (fun _ _ => trivial)
    (fun _ hl hs => hl.refuses hs) fun _ _ => trivial

/-- A program is instrumented by spelling its tree in place of it. -/
theorem instrument_spelled {tree : ParseTree} (h : language.parse "Program" text none = .ok tree) :
    ∃ result, instrument text call = .ok result ∧
      result.text = text.take tree.start ++ (spelled text call [] tree ++ text.drop tree.stop) ∧
      result.places = (announced call [] tree).map fun (start : Nat) =>
        Source.position { content := text } start := by
  obtain ⟨body, hb, hrun, -⟩ := Language.parse_ok h
  have hooks := CurlyBrace.advances grammar text
  have hfits := run_fits (r := language.reader text) hooks _ hrun (Nat.zero_le _)
  refine instrument_ok h (hfits.sits hooks (Nat.zero_le _)).nested ?_
  obtain ⟨program, hb', hprogram⟩ :=
    body?_of_sketch (show sketches.lookup "Program" = some (some _) from rfl)
  cases hb'.symm.trans hb
  obtain ⟨function, o, rfl, hname, -⟩ := Rule.is_repetition hprogram
  obtain ⟨m, trees, rfl, -, hr, -⟩ := fits_repetition hfits
  exact unannounced hr (hname ▸ by decide)

/-- The text that a program is instrumented to is a program too: it has a tree up to nothing but
blanks and comments, and it parses to that tree unless its nesting is too deep. In the tree, each
statement that is no block has become a block of the call that announces it and the statement
itself, with the statements in it treated likewise, and nothing else has changed. The calls are
numbered in the order of the statements, up to their number. -/
theorem instrument_program {tree : ParseTree} (hcall : language.lexis.IsName call.toList)
    (h : language.parse "Program" text none = .ok tree) :
    ∃ result tree', instrument text call = .ok result ∧
      Traced text result.text call 0 tree tree' result.places.length ∧
      (∃ body, language.grammar.body? "Program" = some (some body) ∧
        ((language.reader result.text).attempt body 0).result = .ok tree' ∧
        language.lexis.skip result.text (ParseTree.stop tree') result.text.length =
          .ok result.text.length) ∧
      (language.parse "Program" result.text none = .ok tree' ∨
        ∃ d, language.parse "Program" result.text none = .error (.failed d) ∧
          d.failure.reason = .tooDeep) := by
  obtain ⟨result, hresult, htext, hplaces⟩ := @instrument_spelled text call tree h
  obtain ⟨body, hb, hrun, stop, hskip, hstop⟩ := Language.parse_ok h
  have hooks := CurlyBrace.advances grammar text
  have hfits := run_fits (r := language.reader text) hooks _ hrun (Nat.zero_le _)
  have hwithin := (hfits.sits hooks (Nat.zero_le _)).within
  obtain ⟨program, hb', hprogram⟩ :=
    body?_of_sketch (show sketches.lookup "Program" = some (some _) from rfl)
  cases hb'.symm.trans hb
  have htrailing := trailing_drop hwithin hskip hstop
  have hwhole : text.window 0 tree.start ++ (spelled text call [] tree ++ text.drop tree.stop) =
      result.text := htext.symm
  have hsuffix : text.window 0 tree.start ++ (spelled text call [] tree ++ text.drop tree.stop) <:+
      result.text := hwhole ▸ List.suffix_refl _
  obtain ⟨-, -, tree', ht, htraced⟩ := passesAs_program hcall hprogram
    (Nat.le_succ (sizeOf tree)) hfits (Nat.zero_le _) (.refl _) htrailing hsuffix
  have hstart : (language.reader result.text).offset (text.window 0 tree.start ++
      (spelled text call [] tree ++ text.drop tree.stop)) = 0 := hwhole ▸ Nat.sub_self _
  have hends : Ends (language.reader result.text) body 0 (.ok tree') := hstart ▸ ht.ends
  have hend := htrailing.skip
    ((List.suffix_append _ _).trans ((List.suffix_append _ _).trans hsuffix))
  have hcount : result.places.length = (announced call [] tree).length :=
    hplaces ▸ List.length_map _
  have hskipped := ht.stop ▸ hend
  exact ⟨result, tree', hresult, hcount ▸ htraced, ⟨body, hb, hends.attempt, hskipped⟩,
    Language.parse_of_ends hb hends hskipped⟩

def dangling : Text :=
  "function f(x) \x7b if (x) if (x == 1) return x; else f(2); \x7d".toList

def danglingTraced : Text :=
  ("function f(x) \x7b \x7b trace(1); if (x) \x7b trace(2); if (x == 1) " ++
    "\x7b trace(3); return x; \x7d else \x7b trace(4); f(2); \x7d \x7d \x7d \x7d").toList

theorem dangling_instrumented : ∃ tree result tree',
    language.parse "Program" dangling none = .ok tree ∧
    instrument dangling "trace" = .ok result ∧ result.text = danglingTraced ∧
    Traced dangling danglingTraced "trace" 0 tree tree' 4 ∧
    language.parse "Program" danglingTraced none = .ok tree' := by
  have hcall : language.lexis.IsName "trace".toList :=
    ⟨⟨'t', ['r', 'a', 'c', 'e'], rfl, by decide, List.all_eq_true.1 (by decide)⟩,
      (isKeyword_eq _).trans (by decide)⟩
  obtain ⟨hspelled, hagain⟩ : (language.parse "Program" dangling none).toOption.map (fun tree =>
      (dangling.take tree.start ++ (spelled dangling "trace" [] tree ++ dangling.drop tree.stop),
        (announced "trace" [] tree).length)) = some (danglingTraced, 4) ∧
      (language.parse "Program" danglingTraced none).toOption.isSome := by
    decide +kernel
  cases h : language.parse "Program" dangling none with
  | error =>
    rw [h] at hspelled
    cases hspelled
  | ok tree =>
    rw [h] at hspelled
    obtain ⟨result, hresult, htext, hplaces⟩ := @instrument_spelled dangling "trace" tree h
    obtain ⟨htraced, hnumber⟩ := Prod.mk.inj (Option.some.inj hspelled)
    obtain ⟨result', tree', hresult', ht, -, hparse⟩ :=
      @instrument_program dangling "trace" tree hcall h
    cases hresult.symm.trans hresult'
    rw [htext.trans htraced, hplaces, List.length_map, hnumber] at ht
    rw [htext.trans htraced] at hparse
    rcases hparse with hparse | ⟨d, hd, -⟩
    · exact ⟨tree, result, tree', rfl, hresult, htext.trans htraced, ht, hparse⟩
    · rw [hd] at hagain
      cases hagain

end StatementTrace
end OrderedBnf
