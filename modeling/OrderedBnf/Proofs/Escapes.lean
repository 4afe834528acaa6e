import OrderedBnf.Proofs.Replacing

/-! Any text can be written as a literal. Between the marks a backslash stands before every
backslash and every mark of the text, and may stand before any other character. -/
namespace OrderedBnf

inductive Escapes (mark : Char) : Text → Text → Prop
  | nil : Escapes mark [] []
  | plain {c text body} : c ≠ mark → c ≠ '\\' → Escapes mark text body →
      Escapes mark (c :: text) (c :: body)
  | escape {c text body} : Escapes mark text body → Escapes mark (c :: text) ('\\' :: c :: body)

namespace Escapes
variable {mark : Char} {text body : Text}

theorem exists_body (mark : Char) (text : Text) : ∃ body, Escapes mark text body := by
  induction text with
  | nil => exact ⟨[], .nil⟩
  | cons c text ih =>
    obtain ⟨body, h⟩ := ih
    exact ⟨_, .escape h⟩

theorem escaped (h : Escapes mark text body) : Escaped mark body := by
  induction h with
  | nil => exact .nil
  | plain hm hs _ ih => exact .plain hm hs ih
  | escape _ ih => exact .escape ih

/-- Taking the escapes away again leads back to the text. -/
theorem unescape (h : Escapes mark text body) : unescape body = text := by
  induction h with
  | nil => rfl
  | @plain c text body _ hs _ ih =>
    rw [OrderedBnf.unescape.eq_def]
    split
    · rename_i he
      cases he
    · rename_i he
      exact absurd (List.cons.inj he).1 hs
    · rename_i he
      exact absurd (List.cons.inj he).1 hs
    · rename_i he
      obtain ⟨rfl, rfl⟩ := List.cons.inj he
      rw [ih]
  | @escape c text body _ ih => rw [OrderedBnf.unescape, ih]

end Escapes

namespace Rule
open Expression
variable {text : Text}

theorem literal_within {n : Nat} {mark : Char} {body : Text}
    (h : (Stretch.mk n (mark :: (body ++ [mark]))).Within text) :
    (Rule.leaf .literal ⟨n, n + (mark :: (body ++ [mark])).length, false, none, text⟩).literal =
      unescape body := by
  have hinner : (Stretch.mk n (mark :: (body ++ [mark]))).inner = ⟨n + 1, body⟩ := by
    rw [Stretch.inner, List.tail_cons, List.dropLast_concat]
  have hwindow : text.window (n + 1) (n + 1 + body.length) = body :=
    (hinner ▸ h.inner rfl).window
  have hstop : n + (mark :: (body ++ [mark])).length - 1 = n + 1 + body.length := by
    simp only [List.length_cons, List.length_append, List.length_nil]
    omega
  exact congrArg unescape ((congrArg (text.window (n + 1)) hstop).trans hwindow)

/-- A text with blanks around a stretch compiles to what the stretch compiles to. -/
theorem Compiled.compile {rule : Rule} {before piece after : Text}
    (htext : text = before ++ piece ++ after) (h : Compiled text ⟨before.length, piece⟩ rule)
    (ht : Tight piece) (hb : Blanks before) (ha : Blanks after) : compile text = .ok rule := by
  have hfirm := h.firm ht
  have htrim : (Stretch.mk 0 text).trim = ⟨before.length, piece⟩ := by
    rw [htext, hfirm.trim hb ha, Nat.zero_add]
  rw [Rule.compile, htrim, if_neg hfirm.ne_nil]
  exact h.compileStretch

/-- A leaf of what compiles may be written as any other. -/
theorem compile_renewed {rule : Rule} (h : compile text = .ok rule) {form form' : Leaf}
    {o : Origin} (hleaf : Rule.leaf form o ∈ rule.nodes) {word : Text} (hword : Opaque form' word)
    (ht : Tight word) (hcut : (Stretch.mk 0 word).cut? = .ok none) {renewed : Text}
    (hrenewed : renewed = text.take o.start ++ word ++ text.drop o.stop) :
    (Stretch.mk o.start word).Within renewed ∧ ∃ rule', compile renewed = .ok rule' ∧
      Rule.leaf form' ⟨o.start, o.start + word.length, false, none, renewed⟩ ∈ rule'.nodes ∧
      Swapped (.leaf form (Rule.leaf form o).writtenAs) (.leaf form' word) rule.expression
        rule'.expression := by
  obtain ⟨-, hcompiled⟩ := compile_ok h
  have hw : (Stretch.mk 0 text).trim.Within text := Stretch.Within.trim ⟨[], [], by simp, rfl⟩
  obtain ⟨before, after, hb, ha, htext, hoffset⟩ := (Stretch.mk 0 text).trim_parts
  obtain ⟨cut, hc⟩ := hcompiled.exists_cut
  obtain ⟨pre, old, post, hchars, rfl, hrenew⟩ := hcompiled.renewable hw (Stretch.trim_tight _) hleaf
  replace htext : text = before ++ pre ++ old ++ (post ++ after) := by
    rw [← List.append_assoc, List.append_assoc before, List.append_assoc before, ← hchars]
    exact htext
  replace hoffset : (Stretch.mk 0 text).trim.start = before.length := hoffset.trans (Nat.zero_add _)
  have hstart : (Stretch.mk 0 text).trim.start + pre.length = (before ++ pre).length := by
    rw [hoffset, List.length_append]
  rw [hstart] at hrenewed ⊢
  have hold : text.window (before ++ pre).length ((before ++ pre).length + old.length) = old := by
    rw [htext, Text.window_append_left]
  replace hrenewed : renewed = before ++ (pre ++ word ++ post) ++ after := by
    rw [hrenewed, htext, List.append_assoc (before ++ pre), List.take_left, ← List.length_append,
      ← List.append_assoc (before ++ pre), List.drop_left]
    simp
  obtain ⟨rule', hrule'⟩ := hrenew hc hword ht hcut ⟨before, after, hrenewed, rfl⟩
  have hleaf' := hrule'.leaf
  rw [← List.length_append] at hleaf'
  refine ⟨⟨before ++ pre, post ++ after, by rw [hrenewed]; simp, rfl⟩, rule',
    hrule'.compiled.compile hrenewed hrule'.tight hb ha, hleaf', ?_⟩
  rw [writtenAs]
  exact hold.symm ▸ hrule'.swapped

end Rule

/-- A terminal alone is compiled to its leaf. -/
theorem Terminal.compile {form : Leaf} {word : Text} (h : Terminal form word) :
    Rule.compile word = .ok (.leaf form ⟨0, word.length, false, none, word⟩) := by
  have hcompiled : Rule.Compiled word ⟨0, word⟩ (.leaf form ⟨0, 0 + word.length, false, none, word⟩) :=
    .leaf h.unseen.not_cut h.toOpaque
  have hwhole := @Rule.Compiled.compile word _ [] word [] (by simp) hcompiled h.firm.tight Blanks.nil
    Blanks.nil
  rwa [Nat.zero_add] at hwhole

/-- Every text is written between two marks of either kind, and however it is, that compiles to one
token over all of it, whose literal is the text. So it does in place of any leaf of any expression:
the rest compiles as before. -/
theorem Rule.compile_escapes {mark : Char} (hmark : isQuote mark) (text : Text) :
    (∃ body, Escapes mark text body) ∧ ∀ body word, Escapes mark text body →
      word = mark :: (body ++ [mark]) →
        (∃ rule, compile word = .ok rule ∧
          rule = .leaf .literal ⟨0, word.length, false, none, word⟩ ∧ rule.literal = text) ∧
        ∀ source rule form o, compile source = .ok rule → Rule.leaf form o ∈ rule.nodes →
          ∀ renewed, renewed = source.take o.start ++ word ++ source.drop o.stop →
            ∃ rule' leaf, compile renewed = .ok rule' ∧ leaf ∈ rule'.nodes ∧
              leaf = .leaf .literal ⟨o.start, o.start + word.length, false, none, renewed⟩ ∧
              leaf.literal = text ∧
              Expression.Swapped (.leaf form (Rule.leaf form o).writtenAs) (.leaf .literal word)
                rule.expression rule'.expression := by
  refine ⟨Escapes.exists_body mark text, ?_⟩
  rintro body _ hbody rfl
  have hword : Terminal .literal (mark :: (body ++ [mark])) := .literal hmark hbody.escaped
  refine ⟨⟨_, hword.compile, rfl, ?_⟩, ?_⟩
  · have hw : (Stretch.mk 0 (mark :: (body ++ [mark]))).Within (mark :: (body ++ [mark])) :=
      ⟨[], [], by simp, rfl⟩
    have hliteral := literal_within hw
    rw [Nat.zero_add] at hliteral
    exact hliteral.trans hbody.unescape
  · intro source rule form o hrule hleaf renewed hrenewed
    obtain ⟨hw, rule', hrule', hleaf', hswapped⟩ :=
      compile_renewed hrule hleaf hword.toOpaque hword.firm.tight hword.unseen.not_cut hrenewed
    exact ⟨rule', _, hrule', hleaf', rfl, (literal_within hw).trans hbody.unescape, hswapped⟩

/-- A backslash, a quotation mark and a bar, quoted within an optional part; the bar needs no
backslash and has one. -/
theorem Rule.quoted_bar_compiles :
    let word := "'\\\\\\'\\|'".toList
    (∃ rule, Rule.compile word = .ok rule ∧ rule.literal = "\\'|".toList) ∧
      ∃ rule leaf, Rule.compile ("a [".toList ++ word ++ " | b]".toList) = .ok rule ∧
        leaf ∈ rule.nodes ∧ leaf.writtenAs = word ∧ leaf.literal = "\\'|".toList := by
  intro word
  have hbody : Escapes '\'' "\\'|".toList "\\\\\\'\\|".toList := .escape (.escape (.escape .nil))
  let text := "a [c | b]".toList
  let origin (start stop : Nat) : Origin := ⟨start, stop, false, none, text⟩
  let name (start : Nat) : Rule := .leaf .reference (origin start (start + 1))
  have h : Rule.compile text = .ok (.sequence [name 0, .optional (.choice [name 3, name 7]
      (origin 3 8)) (origin 2 9)] (origin 0 9)) := by decide +kernel
  have hleaf : name 3 ∈ Rule.nodes (.sequence [name 0, .optional (.choice [name 3, name 7]
      (origin 3 8)) (origin 2 9)] (origin 0 9)) := by decide +kernel
  obtain ⟨-, hwrite⟩ := Rule.compile_escapes (show isQuote '\'' from rfl) "\\'|".toList
  obtain ⟨⟨rule, hrule, -, hliteral⟩, hplace⟩ := hwrite _ word hbody rfl
  obtain ⟨rule', leaf, hrule', hmem, rfl, hliteral', -⟩ := hplace _ _ _ _ h hleaf _ rfl
  exact ⟨⟨rule, hrule, hliteral⟩, rule', _, hrule', hmem, by decide +kernel, hliteral'⟩

end OrderedBnf
