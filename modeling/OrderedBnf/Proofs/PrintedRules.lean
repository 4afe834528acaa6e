import OrderedBnf.Proofs.LoadedRules
import OrderedBnf.Proofs.NotationAtoms
import OrderedBnf.Proofs.Printing

/-! Rules printed one on a line, and the grammar that is loaded from them. -/
namespace OrderedBnf
open MetaGrammar (Word)

/-- A rule before it is written down: its name, and what it says unless it is left empty. -/
structure Definition where
  name : Text
  body : Option Expression

def Plain (form : Leaf) (word : Text) : Prop :=
  Word form word ∧ ∀ c ∈ word, isLineBreak c = false

namespace Definition

def tail (d : Definition) : Text := d.body.elim [] fun e => ' ' :: e.printed

def printed (d : Definition) : Text := d.name ++ ':' :: d.tail

def signs (d : Definition) : List Sign := d.body.elim [] Expression.signs

def mentions (d : Definition) : List Text := d.body.elim [] Expression.mentions

/-- A rule with a name that is no reserved word, and with words for a line. -/
structure Proper (d : Definition) : Prop where
  isName : MetaGrammar.language.lexis.IsName d.name
  body : ∀ e ∈ d.body, e.Proper Plain

end Definition

variable {d : Definition} {ds : List Definition} {e : Expression} {number line : Nat}
  {title : String} {body : List Text}

section Compiling

theorem blanks_space : Blanks [' '] := List.forall_mem_singleton.2 rfl

theorem Spread.laid_single {depth : Nat} {level : Level} {es : List Expression} {text : Text}
    (h : Spread Plain .single depth level es text) : Laid Terminal level es text := by
  have hblanks {gap : Text} (h : gap = [' ']) : gap ≠ [] ∧ Blanks gap := by
    subst h
    exact ⟨List.cons_ne_nil _ _, blanks_space⟩
  exact (h.imp (fun _ _ h => Word.terminal h.1) ⟨id, id, id, id⟩ (Nat.le_refl _)).laid
    ⟨hblanks, fun h => (hblanks h).2, fun h => (hblanks h).2, fun h => (hblanks h).2⟩

theorem Expression.Proper.laid (h : e.Proper Plain) : Laid Terminal .choice [e] e.printed :=
  (Expression.loosest h.spread).laid_single

/-- A printed expression compiles to what it was printed from. -/
theorem compile_printed (h : e.Proper Plain) :
    ∃ rule, Rule.compile e.printed = .ok rule ∧ rule.expression = e.spliced := by
  have htrim := h.laid.firm.trim Blanks.nil Blanks.nil 0
  rw [List.nil_append, List.append_nil] at htrim
  obtain ⟨rule, hrule, he⟩ := @Laid.compiles e.printed _ _ _ h.laid [] [] (by simp)
  refine ⟨rule, ?_, he⟩
  rw [Rule.compile, htrim, if_neg h.laid.firm.ne_nil]
  exact hrule

end Compiling

section Lines

theorem lineBreak_blank {c : Char} (h : isLineBreak c) : isBlank c := by
  simp only [isLineBreak, isBlank, Bool.or_eq_true, Bool.and_eq_true, decide_eq_true_eq] at h ⊢
  omega

theorem not_lineBreak {c : Char} (h : isBlank c = false) : isLineBreak c = false := by
  rw [← Bool.not_eq_true] at h ⊢
  exact fun hc => h (lineBreak_blank hc)

/-- The characters of an expression are those of its words, of its brackets and bars, and of what
stands between them. -/
theorem Spread.forall_mem {terminal : Leaf → Text → Prop} {spacing : Spacing} {depth : Nat}
    {level : Level} {es : List Expression} {text : Text} {p : Char → Prop}
    (h : Spread terminal spacing depth level es text)
    (hword : ∀ form word, terminal form word → ∀ c ∈ word, p c)
    (hgap : spacing.Le ⟨(∀ c ∈ ·, p c), (∀ c ∈ ·, p c), (∀ c ∈ ·, p c), (∀ c ∈ ·, p c)⟩)
    (hmark : ∀ c ∈ ['(', ')', '[', ']', '\x7b', '\x7d', '|'], p c) : ∀ c ∈ text, p c := by
  induction h with
  | leaf h => exact hword _ _ h
  | enclosed henc hb _ ha ih =>
    have hinner := List.forall_mem_append.2 ⟨List.forall_mem_append.2 ⟨hgap.within hb, ih⟩,
      hgap.within ha⟩
    cases henc <;> exact List.forall_mem_cons.2 ⟨hmark _ (by simp), List.forall_mem_append.2
      ⟨hinner, List.forall_mem_singleton.2 (hmark _ (by simp))⟩⟩
  | alone _ ih | several _ _ ih => exact ih
  | cons _ hb _ ih ih' =>
    refine List.forall_mem_append.2 ⟨List.forall_mem_append.2 ⟨ih, ?_⟩, ih'⟩
    cases hb with
    | apart h => exact hgap.apart h
    | bar hb ha => exact List.forall_mem_append.2 ⟨hgap.beforeBar hb,
        List.forall_mem_cons.2 ⟨hmark _ (by simp), hgap.afterBar ha⟩⟩

theorem unbroken_printed (h : e.Proper Plain) : ∀ c ∈ e.printed, isLineBreak c = false := by
  have hspace {gap : Text} (h : gap = [' ']) : ∀ c ∈ gap, isLineBreak c = false := by
    subst h
    exact List.forall_mem_singleton.2 rfl
  exact h.spread.forall_mem (fun _ _ hword => hword.2) ⟨hspace, hspace, hspace, hspace⟩
    (by simp [isLineBreak])

end Lines

namespace Definition

structure Stands (d : Definition) (block : Block) : Prop where
  name : block.name = String.ofList d.name
  body : block.body = d.body.elim [] Expression.printed

theorem trim_tail (h : d.Proper) :
    Text.trim isBlank d.tail = d.body.elim [] Expression.printed := by
  rw [tail]
  cases hbody : d.body with
  | none => rfl
  | some e =>
    have htrim := (h.body e hbody).laid.firm.trim blanks_space Blanks.nil 0
    rw [List.append_nil] at htrim
    exact congrArg Stretch.chars htrim

theorem Proper.identifier (h : d.Proper) : isIdentifier d.name :=
  MetaGrammar.isIdentifier_of_isName h.isName

theorem Proper.start (h : d.Proper) : ∃ c rest, d.printed = c :: rest ∧ isIdentifierStart c := by
  obtain ⟨c, rest, hname, hc, -⟩ := h.isName.start
  exact ⟨c, rest ++ ':' :: d.tail, by rw [printed, hname]; rfl, hc⟩

/-- A printed rule is one line. -/
theorem Proper.unbroken (h : d.Proper) : ∀ c ∈ d.printed, isLineBreak c = false := by
  refine List.forall_mem_append.2 ⟨fun c hc => ?_, List.forall_mem_cons.2 ⟨rfl, ?_⟩⟩
  · exact not_lineBreak (not_blank_of_identifierChar (identifierChar_of_identifier h.identifier c hc))
  · rw [tail]
    cases hbody : d.body with
    | none => exact fun _ hc => absurd hc List.not_mem_nil
    | some e => exact List.forall_mem_cons.2 ⟨rfl, unbroken_printed (h.body e hbody)⟩

/-- A printed rule ends in a character of its own. -/
theorem Proper.last (h : d.Proper) : ∃ rest c, d.printed = rest ++ [c] ∧ isBlank c = false := by
  rw [printed, tail]
  cases hbody : d.body with
  | none => exact ⟨d.name, ':', rfl, rfl⟩
  | some e =>
    obtain ⟨rest, c, he, hc⟩ := (h.body e hbody).laid.firm.last
    exact ⟨d.name ++ ':' :: ' ' :: rest, c, by simp [he], hc⟩

/-- A printed definition has its name as the title. -/
theorem Proper.titled (h : d.Proper) :
    titleOf? d.printed = some (String.ofList d.name, d.tail.trimRight isBlank) :=
  MetaGrammar.titleOf?_head h.identifier d.tail

theorem Proper.stands (h : d.Proper) (line : Nat) :
    d.Stands (Block.ofLines (String.ofList d.name) line [d.tail.trimRight isBlank]) where
  name := rfl
  body := (Text.trim_trimRight isBlank d.tail).trans (trim_tail h)

end Definition

section Blocks

theorem Definition.Stands.sound {block : Block} (h : d.Stands block) (hd : d.Proper) :
    block.Sound := by
  rw [Block.Sound, h.body]
  cases hbody : d.body with
  | none => exact .inl rfl
  | some e =>
    obtain ⟨rule, hrule, -⟩ := compile_printed (hd.body e hbody)
    exact .inr ⟨rule, hrule⟩

end Blocks

namespace Definition

/-- The entry that a rule becomes: whatever is gathered from the rule is gathered from its body. -/
structure Becomes (d : Definition) (entry : Entry) : Prop where
  name : entry.name = String.ofList d.name
  gathers {α : Type} (g : Gathering α) :
    entry.body.elim [] (fun rule => rule.expression.gather g) = d.body.elim [] (Expression.gather g)

/-- The nodes of a loaded definition have the signs of its expression. -/
theorem Becomes.signs {entry : Entry} (h : d.Becomes entry) :
    (entry.body.elim [] Rule.nodes).filterMap Rule.sign? = d.signs := by
  have hgathers := h.gathers ⟨fun _ word => [Sign.word word], [.optional], [.repetition]⟩
  rw [Definition.signs]
  refine Eq.trans ?_ hgathers
  cases entry.body with
  | none => rfl
  | some rule => exact (Rule.signs_expression rule).symm

/-- A loaded definition mentions what its expression does. -/
theorem Becomes.mentions {entry : Entry} (h : d.Becomes entry) :
    entry.body.elim [] Rule.mentions = d.mentions.map String.ofList := by
  have hgathers := h.gathers ⟨fun form word => if form = .reference then [word] else [], [], []⟩
  rw [Definition.mentions]
  refine Eq.trans ?_ (congrArg (List.map String.ofList) hgathers)
  cases entry.body with
  | none => rfl
  | some rule => exact Rule.mentions_expression rule

end Definition

section Loading
variable {blocks : List Block} {entries : List Entry}

end Loading
end OrderedBnf
