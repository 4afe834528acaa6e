import Mathlib.Data.List.Chain
import OrderedBnf.Proofs.Completeness
import OrderedBnf.Proofs.Decompiling

/-! The brackets and bars of an expression that compiles, apart from those within its literals: each
bracket is closed by one of its own kind, and something stands on each side of a bar. -/
namespace OrderedBnf

def isBracket (c : Char) : Bool := (closingOf? c).isSome || isClosing c

def opens (c : Char) : Bool := (closingOf? c).isSome || c = '|'

def closes (c : Char) : Bool := isClosing c || c = '|'

inductive Matched : Text → Prop
  | nil : Matched []
  | pair {opening closing inner rest} : closingOf? opening = some closing → Matched inner →
      Matched rest → Matched (opening :: (inner ++ closing :: rest))

theorem Matched.append {u v : Text} (hu : Matched u) (hv : Matched v) : Matched (u ++ v) := by
  induction hu with
  | nil => exact hv
  | @pair opening closing inner rest ho hi _ _ ih =>
    have h := Matched.pair ho hi ih
    simpa using h

/-- Every bracket is matched by one of its own kind, no brackets are empty, and something stands on
each side of a bar. -/
structure Punctuated (text : Text) : Prop where
  matched : Matched (text.filter isBracket)
  filled : text.IsChain fun c d => opens c = true → closes d = false
  head : ∃ c ∈ text.head?, closes c = false
  last : ∃ c ∈ text.getLast?, opens c = false

namespace Punctuated
variable {u v : Text}

theorem of_plain (hne : u ≠ []) (h : ∀ c ∈ u, c ∉ signs ∨ c = '\'') : Punctuated u := by
  have hplain (c : Char) (hc : c ∈ u) :
      isBracket c = false ∧ opens c = false ∧ closes c = false := by
    rcases h c hc with hs | rfl
    · obtain ⟨-, ho, hcl, hbar⟩ := of_not_sign hs
      simp [isBracket, opens, closes, ho, hcl, hbar]
    · decide
  refine ⟨?_, ?_, ?_, ?_⟩
  · rw [List.filter_eq_nil_iff.2 fun c hc => by simp [(hplain c hc).1]]
    exact .nil
  · refine List.Pairwise.isChain ?_
    exact List.pairwise_of_forall_mem_list fun _ _ d hd _ => (hplain d hd).2.2
  · exact ⟨u.head hne, List.head?_eq_some_head hne, (hplain _ (List.head_mem hne)).2.2⟩
  · exact ⟨u.getLast hne, List.getLast?_eq_some_getLast hne, (hplain _ (List.getLast_mem hne)).2.1⟩

theorem opens_last (hu : Punctuated u) {c : Char} (hc : c ∈ u.getLast?) : opens c = false := by
  obtain ⟨d, hd, ho⟩ := hu.last
  exact Option.mem_unique hc hd ▸ ho

theorem closes_head (hu : Punctuated u) {c : Char} (hc : c ∈ u.head?) : closes c = false := by
  obtain ⟨d, hd, hcl⟩ := hu.head
  exact Option.mem_unique hc hd ▸ hcl

theorem append (hu : Punctuated u) (hv : Punctuated v) : Punctuated (u ++ v) := by
  obtain ⟨c, hc, hcc⟩ := hu.head
  obtain ⟨d, hd, hdo⟩ := hv.last
  refine ⟨?_, ?_, ⟨c, List.mem_head?_append_of_mem_head? hc, hcc⟩,
    ⟨d, List.mem_getLast?_append_of_mem_getLast? hd, hdo⟩⟩
  · rw [List.filter_append]
    exact hu.matched.append hv.matched
  · exact hu.filled.append hv.filled fun c hc _ _ ho => by cases (hu.opens_last hc).symm.trans ho

/-- A bar between punctuated texts is punctuation. -/
theorem bar (hu : Punctuated u) (hv : Punctuated v) : Punctuated (u ++ '|' :: v) := by
  obtain ⟨c, hc, hcc⟩ := hu.head
  obtain ⟨d, hd, hdo⟩ := hv.last
  refine ⟨?_, ?_, ⟨c, List.mem_head?_append_of_mem_head? hc, hcc⟩,
    ⟨d, List.mem_getLast?_append_of_mem_getLast? (List.mem_getLast?_cons hd), hdo⟩⟩
  · rw [List.filter_append, List.filter_cons_of_neg (by decide)]
    exact hu.matched.append hv.matched
  · exact hu.filled.append (hv.filled.cons fun _ hc _ => hv.closes_head hc)
      fun c hc _ _ ho => by cases (hu.opens_last hc).symm.trans ho

/-- Brackets around a punctuated text are punctuation. -/
theorem enclosed {opening closing : Char} (h : closingOf? opening = some closing)
    (hu : Punctuated u) : Punctuated (opening :: (u ++ [closing])) := by
  obtain ⟨hc, ho, hco⟩ : isClosing closing ∧ closes opening = false ∧ opens closing = false := by
    obtain ⟨_, henc⟩ := exists_encloses h (.leaf .literal [])
    cases henc <;> decide
  have hlast : (opening :: (u ++ [closing])).getLast? = some closing :=
    List.getLast?_append_of_ne_nil (opening :: u) (List.cons_ne_nil _ _)
  refine ⟨?_, ?_, ⟨opening, rfl, ho⟩, ⟨closing, hlast, hco⟩⟩
  · rw [List.filter_cons_of_pos (by simp [isBracket, h]), List.filter_append,
      List.filter_cons_of_pos (by simp [isBracket, hc])]
    exact .pair h hu.matched .nil
  · refine (hu.filled.append (.singleton _) fun c hc _ _ ho => ?_).cons fun c hc _ => ?_
    · cases (hu.opens_last hc).symm.trans ho
    · obtain ⟨d, hd, hdc⟩ := hu.head
      exact Option.mem_unique (List.mem_head?_append_of_mem_head? hd) hc ▸ hdc

end Punctuated

namespace Rule

def quotes (rule : Rule) (i : Nat) : Bool :=
  rule.nodes.any fun node => node.kind = .token && node.start ≤ i && i < node.stop

theorem quotes_iff {rule : Rule} {i : Nat} :
    rule.quotes i ↔ ∃ o, leaf .literal o ∈ rule.nodes ∧ o.start ≤ i ∧ i < o.stop := by
  simp only [quotes, List.any_eq_true, Bool.and_eq_true, decide_eq_true_eq]
  constructor
  · rintro ⟨node, hm, ⟨hk, hs⟩, ht⟩
    cases node with
    | leaf form o =>
      cases form with
      | literal => exact ⟨o, hm, hs, ht⟩
      | _ => cases hk
    | _ => cases hk
  · rintro ⟨o, hm, hs, ht⟩
    exact ⟨_, hm, ⟨rfl, hs⟩, ht⟩

theorem quotes_leaf {form : Leaf} (h : form ≠ .literal) (o : Origin) (i : Nat) :
    (leaf form o).quotes i = false := by
  rw [← Bool.not_eq_true, quotes_iff]
  rintro ⟨o', ho, -⟩
  simp only [nodes, List.mem_singleton, leaf.injEq] at ho
  exact h ho.1.symm

theorem quotes_bracket (text : Text) (s : Stretch) (opening : Char) (body : Rule) :
    (bracket text s opening body).quotes = body.quotes := by
  funext i
  rw [Bool.eq_iff_iff, quotes_iff, quotes_iff]
  exact exists_congr fun o => and_congr_left fun _ => leaf_mem_bracket

theorem quotes_join (text : Text) (cut : Cut) (left right : Rule) (i : Nat) :
    (join text cut left right).quotes i = (left.quotes i || right.quotes i) := by
  rw [Bool.eq_iff_iff, Bool.or_eq_true, quotes_iff, quotes_iff, quotes_iff]
  simp only [leaf_mem_join, or_and_right, exists_or]

end Rule

/-- What a text from an offset on shows of its structure: no blanks, and a quotation mark for each
character that is quoted. -/
def outline (quoted : Nat → Bool) (i : Nat) : Text → Text
  | [] => []
  | c :: rest =>
    if quoted i then '\'' :: outline quoted (i + 1) rest
    else if isBlank c then outline quoted (i + 1) rest
    else c :: outline quoted (i + 1) rest

section Outline
variable {quoted : Nat → Bool} {i : Nat} {u : Text}

theorem outline_append (quoted : Nat → Bool) (u v : Text) : ∀ i,
    outline quoted i (u ++ v) = outline quoted i u ++ outline quoted (i + u.length) v := by
  induction u with
  | nil => exact fun _ => rfl
  | cons c u ih =>
    intro i
    rw [List.cons_append, outline, outline, ih (i + 1), List.length_cons, Nat.add_right_comm,
      ← Nat.add_assoc]
    split
    · rfl
    · split <;> rfl

theorem outline_congr {quoted' : Nat → Bool}
    (h : ∀ j, i ≤ j → j < i + u.length → quoted j = quoted' j) :
    outline quoted i u = outline quoted' i u := by
  induction u generalizing i with
  | nil => rfl
  | cons c u ih =>
    rw [List.length_cons] at h
    rw [outline, outline, h i (Nat.le_refl _) (by omega),
      ih fun j hj hj' => h j (by omega) (by omega)]

theorem outline_blanks (hb : Blanks u) (h : ∀ j, i ≤ j → j < i + u.length → quoted j = false) :
    outline quoted i u = [] := by
  induction u generalizing i with
  | nil => rfl
  | cons c u ih =>
    rw [List.length_cons] at h
    have hc : isBlank c := hb c List.mem_cons_self
    rw [outline, h i (Nat.le_refl _) (by omega), if_neg Bool.false_ne_true, if_pos hc]
    exact ih (fun c hc => hb c (List.mem_cons_of_mem _ hc))
      fun j hj hj' => h j (by omega) (by omega)

theorem outline_quoted (h : ∀ j, i ≤ j → j < i + u.length → quoted j = true) :
    outline quoted i u = List.replicate u.length '\'' := by
  induction u generalizing i with
  | nil => rfl
  | cons c u ih =>
    rw [List.length_cons] at h
    rw [outline, h i (Nat.le_refl _) (by omega), if_pos rfl,
      ih fun j hj hj' => h j (by omega) (by omega)]
    rfl

theorem outline_plain (hu : ∀ c ∈ u, isBlank c = false) (h : ∀ j, quoted j = false) :
    outline quoted i u = u := by
  induction u generalizing i with
  | nil => rfl
  | cons c u ih =>
    rw [outline, h i, if_neg Bool.false_ne_true, if_neg (by simp [hu c List.mem_cons_self]),
      ih fun c hc => hu c (List.mem_cons_of_mem _ hc)]

/-- Trimming takes nothing away but blanks. -/
theorem outline_trim {s : Stretch} (h : ∀ i, quoted i → s.trim.start ≤ i ∧ i < s.trim.stop) :
    outline quoted s.start s.chars = outline quoted s.trim.start s.trim.chars := by
  obtain ⟨before, after, hb, ha, hs, hstart⟩ := s.trim_parts
  have hout (j : Nat) (hj : j < s.trim.start ∨ s.trim.stop ≤ j) : quoted j = false := by
    by_contra hq
    have := h j (by simpa using hq)
    omega
  rw [hs, outline_append, outline_append, ← hstart,
    outline_blanks hb fun j _ hj => hout j (.inl (by omega)),
    outline_blanks ha fun j hj _ => hout j (.inr ?_), List.nil_append, List.append_nil]
  rw [List.length_append] at hj
  rw [Stretch.stop]
  omega

end Outline

namespace Rule.Compiled
variable {text : Text} {s : Stretch} {rule : Rule}

/-- The literals of a node lie in the stretch that it is compiled from. -/
theorem quotes_within (h : Compiled text s rule) :
    ∀ i, rule.quotes i → s.start ≤ i ∧ i < s.stop := by
  induction h with
  | @leaf s form hc hword =>
    intro i hi
    obtain ⟨o, ho, hs, ht⟩ := quotes_iff.1 hi
    simp only [nodes, List.mem_singleton, leaf.injEq] at ho
    rw [ho.2] at hs ht
    exact ⟨hs, ht⟩
  | @bracket s opening closing inner body hc hs ho _ _ ih =>
    intro i hi
    rw [quotes_bracket] at hi
    have := ih i hi
    have := s.inner.trim_within
    have hlength := congrArg List.length hs
    simp only [List.length_cons, List.length_append, List.length_nil] at hlength
    simp only [Stretch.stop, Stretch.inner, hs, List.tail_cons, List.dropLast_concat] at *
    omega
  | @cut s cut left right hc _ _ ihl ihr =>
    intro i hi
    have hk := Stretch.cut?_offset_lt hc
    have hl := (s.before cut).trim_within
    have hr := (s.after cut).trim_within
    rw [quotes_join, Bool.or_eq_true] at hi
    simp only [Stretch.before, Stretch.after, Stretch.stop, List.length_take, List.length_drop] at *
    rcases hi with hi | hi
    · have := ihl i hi
      omega
    · have := ihr i hi
      omega

theorem punctuated_identifier {word : Text} {form : Leaf} (hw : isIdentifier word)
    (hf : form ≠ .literal) (o : Origin) (i : Nat) :
    Punctuated (outline (Rule.leaf form o).quotes i word) := by
  have hchars := identifierChar_of_identifier hw
  rw [outline_plain (fun c hc => not_blank_of_identifierChar (hchars c hc)) (quotes_leaf hf o)]
  exact .of_plain (firm_of_identifier hw).ne_nil fun c hc =>
    .inl (not_sign_of_identifierChar (hchars c hc))

/-- Only the brackets themselves are added to the outline of what they enclose. -/
theorem outline_bracket {opening closing : Char} {inner : Text} {body : Rule}
    (hs : s.chars = opening :: (inner ++ [closing])) (ho : closingOf? opening = some closing)
    (hbody : Compiled text s.inner.trim body) : outline body.quotes s.start s.chars =
      opening :: (outline body.quotes s.inner.trim.start s.inner.trim.chars ++ [closing]) := by
  have hwithin := hbody.quotes_within
  have htrim := s.inner.trim_within
  have hinner := Stretch.inner_chars hs
  have hout (j : Nat) (hj : j ≤ s.start ∨ s.stop ≤ j + 1) : body.quotes j = false := by
    by_contra hq
    have := hwithin j (by simpa using hq)
    have hlength := congrArg List.length hs
    simp only [List.length_cons, List.length_append, List.length_nil] at hlength
    simp only [Stretch.stop, hinner] at *
    simp only [Stretch.inner] at *
    omega
  have hstop : s.stop = s.start + 1 + inner.length + 1 := by
    rw [Stretch.stop, hs]
    simp
    omega
  obtain ⟨hbo, hbc⟩ : isBlank opening = false ∧ isBlank closing = false := by
    obtain ⟨_, henc⟩ := exists_encloses ho (.leaf .literal [])
    cases henc <;> decide
  rw [← outline_trim hwithin, hinner, hs, outline, hout _ (.inl (Nat.le_refl _)),
    if_neg Bool.false_ne_true, hbo, if_neg Bool.false_ne_true, outline_append, outline,
    hout _ (.inr (Nat.le_of_eq hstop)), if_neg Bool.false_ne_true, hbc, if_neg Bool.false_ne_true]
  rfl

section Cutting
variable {cut : Cut} {left right : Rule} (hc : s.cut? = .ok (some cut))
  (hleft : Compiled text (s.before cut).trim left) (hright : Compiled text (s.after cut).trim right)
include hc hleft hright

/-- The literals on one side of a cut lie on that side of it. -/
theorem quotes_sides : (∀ j, s.start + cut.offset ≤ j → left.quotes j = false) ∧
    ∀ j, j ≤ s.start + cut.offset → right.quotes j = false := by
  have htl := (s.before cut).trim_within
  have htr := (s.after cut).trim_within
  have hlength := s.before_length hc
  constructor
  · intro j hj
    by_contra hq
    have := hleft.quotes_within j (by simpa using hq)
    simp only [Stretch.stop, Stretch.before] at *
    omega
  · intro j hj
    by_contra hq
    have := hright.quotes_within j (by simpa using hq)
    simp only [Stretch.after] at *
    omega

theorem outline_before : outline (join text cut left right).quotes s.start (s.before cut).chars =
    outline left.quotes (s.before cut).trim.start (s.before cut).trim.chars := by
  have hlength := s.before_length hc
  rw [← outline_trim hleft.quotes_within]
  refine outline_congr fun j _ hj => ?_
  rw [quotes_join, (quotes_sides hc hleft hright).2 j (by omega), Bool.or_false]

theorem outline_after :
    outline (join text cut left right).quotes (s.start + cut.offset + 1) (s.after cut).chars =
      outline right.quotes (s.after cut).trim.start (s.after cut).trim.chars := by
  rw [← outline_trim hright.quotes_within]
  refine outline_congr fun j hj _ => ?_
  rw [quotes_join, (quotes_sides hc hleft hright).1 j (by omega), Bool.false_or]

theorem outline_cut {c : Char} (hs : s.chars = (s.before cut).chars ++ c :: (s.after cut).chars) :
    outline (join text cut left right).quotes s.start s.chars =
      outline left.quotes (s.before cut).trim.start (s.before cut).trim.chars ++
        ((if isBlank c then [] else [c]) ++
          outline right.quotes (s.after cut).trim.start (s.after cut).trim.chars) := by
  have hlength := s.before_length hc
  obtain ⟨hl, hr⟩ := quotes_sides hc hleft hright
  have hbetween : (join text cut left right).quotes (s.start + cut.offset) = false := by
    rw [quotes_join, hl _ (Nat.le_refl _), hr _ (Nat.le_refl _), Bool.or_false]
  rw [hs, outline_append, hlength, outline_before hc hleft hright, outline, hbetween,
    outline_after hc hleft hright, if_neg Bool.false_ne_true]
  split <;> rfl

end Cutting

theorem punctuated (h : Compiled text s rule) :
    Punctuated (outline rule.quotes s.start s.chars) := by
  induction h with
  | @leaf s form hc hword =>
    rcases s with ⟨start, word⟩
    dsimp only at hword ⊢
    cases hword with
    | @literal mark body hmark =>
      rw [outline_quoted]
      · exact .of_plain (by simp) fun c hc => .inr (List.eq_of_mem_replicate hc)
      · exact fun j hj hj' => quotes_iff.2 ⟨_, List.mem_singleton.2 rfl, hj, hj'⟩
    | reserved hr => exact punctuated_identifier (reserved_identifier hr) (reserved?_form hr).1 _ _
    | reference hi _ => exact punctuated_identifier hi (by decide) _ _
  | bracket hc hs ho _ hbody ih =>
    rw [quotes_bracket, outline_bracket hs ho hbody]
    exact ih.enclosed ho
  | @cut s cut left right hc hleft hright ihl ihr =>
    cases cut with
    | choice k =>
      obtain ⟨_, ⟨rfl, -⟩, hs⟩ := Stretch.parts (.choice k) (cutFrom_choice hc)
      rw [outline_cut hc hleft hright hs]
      exact ihl.bar ihr
    | sequence k =>
      obtain ⟨c, ⟨hb, -⟩, hs⟩ := Stretch.parts (.sequence k) (cutFrom_sequence hc)
      rw [outline_cut hc hleft hright hs, if_pos hb]
      exact ihl.append ihr

end Rule.Compiled

/-- What compiles is a layout of an expression, with blanks at both ends, in which each literal is
one opaque word; the node is that expression with every last operand spliced into an operator of its
own kind. Outside the literals each bracket is matched by one of its own kind, no brackets are empty
and no alternative is missing. -/
theorem Rule.compile_layout {text : Text} {rule : Rule} (h : Rule.compile text = .ok rule) :
    (∃ before laid after e, text = before ++ laid ++ after ∧ Blanks before ∧ Blanks after ∧
      Laid Opaque .choice [e] laid ∧ rule.expression = e.spliced) ∧
    Punctuated (outline rule.quotes 0 text) := by
  obtain ⟨-, hcompiled⟩ := compile_ok h
  refine ⟨laid_of_compile h, ?_⟩
  have hp := hcompiled.punctuated
  rwa [← outline_trim hcompiled.quotes_within] at hp

/-- A literal with quotation marks and brackets inside that do not match each other. -/
theorem tangled_layout :
    let text := "['x'(]'y' | b ]".toList
    ∃ rule, Rule.compile text = .ok rule ∧
      (∃ before laid after e, text = before ++ laid ++ after ∧ Blanks before ∧ Blanks after ∧
        Laid Opaque .choice [e] laid ∧ rule.expression = e.spliced) ∧
      Punctuated (outline rule.quotes 0 text) := by
  intro text
  let origin (start stop : Nat) : Origin := ⟨start, stop, false, none, text⟩
  have h : Rule.compile text = .ok (.optional (.choice [.leaf .literal (origin 1 9),
    .leaf .reference (origin 12 13)] (origin 1 13)) (origin 0 15)) := by decide +kernel
  exact ⟨_, h, Rule.compile_layout h⟩

end OrderedBnf
