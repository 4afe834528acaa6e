import OrderedBnf.Proofs.Decompiling

/-! Where a reader of an expression stands: in how many brackets, and whether in quotes. What
compiles leaves no bracket and no quotation open, and starts with an operand after every blank that
separates. -/
namespace OrderedBnf

/-- Outside quotation marks, between two, or between two after a backslash, and in how many
brackets; or past a closing bracket that nothing opens. -/
inductive Place where
  | outside (depth : Nat)
  | inside (depth : Nat) (mark : Char)
  | escaped (depth : Nat) (mark : Char)
  | lost
  deriving DecidableEq, Repr

namespace Place

def stepOutside (depth : Nat) (c : Char) : Place :=
  if isQuote c then inside depth c
  else if (closingOf? c).isSome then outside (depth + 1)
  else if isClosing c then
    match depth with
    | 0 => lost
    | depth + 1 => outside depth
  else outside depth

def step : Place → Char → Place
  | outside depth, c => stepOutside depth c
  | inside depth mark, c =>
    if c = '\\' then escaped depth mark else if c = mark then outside depth else inside depth mark
  | escaped depth mark, _ => inside depth mark
  | lost, _ => lost

def after (place : Place) (text : Text) : Place := text.foldl step place

variable {place : Place} {c : Char} {text rest : Text} {depth : Nat}

@[simp] theorem after_nil (place : Place) : place.after [] = place := rfl

@[simp] theorem after_cons (place : Place) (c : Char) (text : Text) :
    place.after (c :: text) = (place.step c).after text := rfl

/-- The place after two texts is found from the place after the first. -/
@[simp] theorem after_append (place : Place) (text rest : Text) :
    place.after (text ++ rest) = (place.after text).after rest := List.foldl_append

theorem step_other (hc : c ∉ signs) : (outside depth).step c = outside depth := by
  obtain ⟨hquote, hopening, hclosing, -⟩ := of_not_sign hc
  simp [step, stepOutside, hquote, hopening, hclosing]

theorem step_blank (hc : isBlank c) : (outside depth).step c = outside depth :=
  step_other (not_sign_of_blank hc)

theorem step_bar : (outside depth).step '|' = outside depth := rfl

theorem step_quote (hc : isQuote c) : (outside depth).step c = inside depth c := if_pos hc

theorem after_blanks (h : Blanks text) : (outside depth).after text = outside depth := by
  induction text with
  | nil => rfl
  | cons c text ih =>
    rw [after_cons, step_blank (h c List.mem_cons_self)]
    exact ih fun c hc => h c (List.mem_cons_of_mem _ hc)

/-- A name does not change the place. -/
theorem after_identifier (h : ∀ c ∈ text, isIdentifierChar c) :
    (outside depth).after text = outside depth := by
  induction text with
  | nil => rfl
  | cons c text ih =>
    rw [after_cons, step_other (not_sign_of_identifierChar (h c List.mem_cons_self))]
    exact ih fun c hc => h c (List.mem_cons_of_mem _ hc)

/-- An escaped text within quotes stays within them. -/
theorem after_escaped {mark : Char} {body : Text} (h : Escaped mark body) :
    (inside depth mark).after body = inside depth mark := by
  induction h with
  | nil => rfl
  | plain hm hs _ ih => rw [after_cons, step, if_neg hs, if_neg hm, ih]
  | escape _ ih => exact ih

def ofSearch (depth : Nat) : Option Char → Place
  | none => outside depth
  | some mark => inside depth mark

end Place

open Place

/-- A search that finds no bar has left all brackets and quotations. -/
theorem cutFrom_after {first i depth : Nat} {quote : Option Char} {blank : Option Nat}
    {chars : Text} {cut : Option Cut} (h : cutFrom first i depth quote blank chars = .ok cut)
    (hc : ∀ k, cut ≠ some (.choice k)) : (ofSearch depth quote).after chars = outside 0 := by
  fun_induction cutFrom first i depth quote blank chars with
  | case3 => simp_all [ofSearch]
  | case12 =>
    cases h
    exact absurd rfl (hc _)
  | _ => simp_all [ofSearch, step, stepOutside] <;> grind

section Search
variable {first i depth : Nat} {quote : Option Char} {blank : Option Nat} {chars : Text}

theorem cutFrom_some_ne_none {b : Nat} :
    cutFrom first i depth quote (some b) chars ≠ .ok none := by
  intro h
  generalize hb : some b = blank at h
  fun_induction cutFrom first i depth quote blank chars <;> grind

/-- A search that finds no cut has met no blank that separates outside brackets and quotations. -/
theorem cutFrom_none {u v : Text} {b : Char}
    (h : cutFrom first i depth quote none chars = .ok none) (hu : chars = u ++ b :: v)
    (hplace : (ofSearch depth quote).after u = outside 0) (hb : isBlank b) :
    separates v = false := by
  have hsign := of_not_sign (not_sign_of_blank hb)
  generalize hn : none = blank at h
  fun_induction cutFrom first i depth quote blank chars generalizing u with
  | case13 => exact absurd h cutFrom_some_ne_none
  | case5 =>
    rename_i ih
    rcases u with _ | ⟨d, _ | ⟨e, u⟩⟩
    · cases hplace
    · simp only [List.cons_append, List.cons.injEq] at hu
      obtain ⟨rfl, -⟩ := hu
      simp [ofSearch, step] at hplace
    · simp only [List.cons_append, List.cons.injEq] at hu
      obtain ⟨rfl, rfl, hu⟩ := hu
      exact ih hu (by simpa [ofSearch, step] using hplace) hn h
  | case6 | case7 | case8 | case10 | case14 | case15 =>
    rename_i ih
    rcases u with _ | ⟨d, u⟩
    · simp only [List.nil_append, List.cons.injEq] at hu
      obtain ⟨rfl, rfl⟩ := hu
      clear ih h
      simp_all [ofSearch]
    · simp only [List.cons_append, List.cons.injEq] at hu
      obtain ⟨rfl, hu'⟩ := hu
      refine ih hu' ?_ hn h
      rw [after_cons] at hplace
      simp_all [ofSearch, step, stepOutside] <;> grind
  | _ => simp_all

end Search
def isStarter (c : Char) : Bool := isQuote c || (closingOf? c).isSome || isIdentifierChar c

def Starts (text : Text) : Prop := ∃ c, (text.dropWhile isBlank).head? = some c ∧ isStarter c

theorem Starts.blanks_append {gap text : Text} (h : Starts text) (hg : Blanks gap) :
    Starts (gap ++ text) := by
  rwa [Starts, List.dropWhile_append_of_pos hg]

theorem Starts.append {text : Text} (h : Starts text) (rest : Text) : Starts (text ++ rest) := by
  obtain ⟨c, hc, hstarter⟩ := h
  refine ⟨c, ?_, hstarter⟩
  rw [List.dropWhile_append]
  cases hd : text.dropWhile isBlank with
  | nil => rw [hd] at hc; cases hc
  | cons d tail => rw [hd] at hc; simpa using hc

/-- A text that is not cut: it leaves no bracket and no quotation open, and no blank outside them
separates. -/
structure Piece (text : Text) : Prop where
  tight : Tight text
  head : ∃ c rest, text = c :: rest ∧ isStarter c
  closed : (outside 0).after text = outside 0
  unbroken : ∀ u b v, text = u ++ b :: v → (outside 0).after u = outside 0 → isBlank b →
    separates v = false

/-- Texts that are not cut, with bars or blanks between them. -/
inductive Pieces : Text → Prop
  | one {piece} : Piece piece → Pieces piece
  | cons {piece gap rest} {operator : Operator} : Piece piece → operator.Between gap →
      Pieces rest → Pieces (piece ++ gap ++ rest)

theorem Operator.Between.after {operator : Operator} {gap : Text} (h : operator.Between gap)
    (depth : Nat) : (outside depth).after gap = outside depth := by
  cases h with
  | blanks _ hb => exact after_blanks hb
  | bar hb ha => rw [after_append, after_blanks hb, after_cons, step_bar, after_blanks ha]

/-- A character of two texts together is one of the first or one of the second. -/
theorem append_eq_append_cons {α : Type} {x y u v : List α} {b : α} (h : x ++ y = u ++ b :: v) :
    (∃ w, x = u ++ b :: w ∧ v = w ++ y) ∨ ∃ w, u = x ++ w ∧ y = w ++ b :: v := by
  rcases List.append_eq_append_iff.1 h with ⟨w, rfl, rfl⟩ | ⟨w, rfl, hw⟩
  · exact .inr ⟨w, rfl, rfl⟩
  · rcases w with _ | ⟨c, w⟩
    · exact .inr ⟨[], by simp, by simpa using hw.symm⟩
    · obtain ⟨rfl, rfl⟩ := List.cons.inj hw
      exact .inl ⟨w, rfl, rfl⟩

/-- Only blanks stand between a blank that separates and the operand after it. -/
theorem Operator.Between.blanks_after {operator : Operator} {u v rest : Text} {b : Char}
    (h : operator.Between (u ++ b :: v)) (hb : isBlank b) (hs : separates (v ++ rest)) :
    Blanks v := by
  generalize hgap : u ++ b :: v = gap at h
  cases h with
  | blanks _ hblanks =>
    subst hgap
    exact fun c hc => hblanks c (List.mem_append_right _ (List.mem_cons_of_mem _ hc))
  | @bar before after hbefore hafter =>
    rcases append_eq_append_cons hgap.symm with ⟨w, rfl, rfl⟩ | ⟨_ | ⟨c, w⟩, -, ha⟩
    · have hw : Blanks w :=
        fun c hc => hbefore c (List.mem_append_right _ (List.mem_cons_of_mem _ hc))
      rw [List.append_assoc, separates, List.dropWhile_append_of_pos hw] at hs
      cases hs
    · obtain ⟨rfl, -⟩ := List.cons.inj ha
      cases hb
    · obtain ⟨-, rfl⟩ := List.cons.inj ha
      exact fun c hc => hafter c (List.mem_append_right _ (List.mem_cons_of_mem _ hc))

namespace Pieces
variable {text rest : Text}

theorem append {operator : Operator} {gap : Text} (h : Pieces text) (hb : operator.Between gap)
    (h' : Pieces rest) : Pieces (text ++ gap ++ rest) := by
  induction h with
  | one hp => exact .cons hp hb h'
  | @cons piece gap' _ _ hp hb' _ ih =>
    have := Pieces.cons hp hb' ih
    simpa using this

theorem closed (h : Pieces text) : (outside 0).after text = outside 0 := by
  induction h with
  | one hp => exact hp.closed
  | cons hp hb _ ih => rw [after_append, after_append, hp.closed, hb.after, ih]

theorem starts (h : Pieces text) : Starts text := by
  have hpiece {piece : Text} (hp : Piece piece) (rest : Text) : Starts (piece ++ rest) := by
    obtain ⟨c, tail, rfl, hc⟩ := hp.head
    refine ⟨c, ?_, hc⟩
    rw [List.cons_append, List.dropWhile_cons_of_neg (by simp [hp.tight.head c tail rfl])]
    rfl
  cases h with
  | one hp => simpa using hpiece hp []
  | @cons piece gap rest _ hp => simpa using hpiece hp (gap ++ rest)

/-- After a blank that separates stands an operand, if the blank is outside brackets and
quotations. -/
theorem starts_after {u v : Text} {b : Char} (h : Pieces text) (ht : text = u ++ b :: v)
    (hu : (outside 0).after u = outside 0) (hb : isBlank b) (hs : separates v) : Starts v := by
  induction h generalizing u with
  | one hp => exact absurd hs (by simp [hp.unbroken u b v ht hu hb])
  | @cons piece gap rest _ hp hbetween hrest ih =>
    rw [List.append_assoc] at ht
    rcases append_eq_append_cons ht with ⟨w, rfl, rfl⟩ | ⟨w, rfl, hgap⟩
    · -- the last character of the piece is no blank, so what follows the piece does not matter
      have hw : ∃ c ∈ w, isBlank c = false := by
        rcases List.eq_nil_or_concat' w with rfl | ⟨w, c, rfl⟩
        · exact absurd hb (by simp [hp.tight.last u b rfl])
        · exact ⟨c, by simp, hp.tight.last (u ++ b :: w) c (by simp)⟩
      rw [separates_append_of_exists hw, hp.unbroken u b w rfl hu hb] at hs
      cases hs
    · rw [after_append, hp.closed] at hu
      rcases append_eq_append_cons hgap with ⟨w', rfl, rfl⟩ | ⟨w', rfl, hrest'⟩
      · exact hrest.starts.blanks_append (hbetween.blanks_after hb hs)
      · rw [after_append, hbetween.after] at hu
        exact ih hrest' hu

end Pieces

theorem Opaque.head {form : Leaf} {word : Text} (h : Opaque form word) :
    ∃ c rest, word = c :: rest ∧ isStarter c := by
  have hname {word : Text} (h : isIdentifier word) : ∃ c rest, word = c :: rest ∧ isStarter c := by
    obtain ⟨c, rest, rfl, -⟩ := (firm_of_identifier h).head
    exact ⟨c, rest, rfl, by simp [isStarter, identifierChar_of_identifier h c List.mem_cons_self]⟩
  cases h with
  | literal hmark => exact ⟨_, _, rfl, by simp [isStarter, hmark]⟩
  | reserved h => exact hname (reserved_identifier h)
  | reference h => exact hname h

namespace Rule
variable {text : Text} {s : Stretch} {rule : Rule}

/-- A tight stretch that compiles is made up of pieces. -/
theorem Compiled.pieces (h : Compiled text s rule) : Tight s.chars → Pieces s.chars := by
  induction h with
  | @leaf s form hc hword =>
    intro ht
    exact .one ⟨ht, hword.head, cutFrom_after hc (by simp), fun u b v => cutFrom_none hc⟩
  | @bracket s opening closing inner body hc hs ho _ _ _ =>
    intro ht
    exact .one ⟨ht, ⟨opening, _, hs, by simp [isStarter, ho]⟩, cutFrom_after hc (by simp),
      fun u b v => cutFrom_none hc⟩
  | @cut s cut left right hc _ _ ihl ihr =>
    intro ht
    have hl := ihl (s.before cut).trim_tight
    have hr := ihr (s.after cut).trim_tight
    cases cut with
    | choice k =>
      obtain ⟨_, before, after, hb, ha, ⟨rfl, -⟩, -, hs⟩ := Stretch.sides (.choice k) ht
        (cutFrom_choice hc)
      rw [hs]
      exact hl.append (.bar hb ha) hr
    | sequence k =>
      obtain ⟨c, before, after, hb, ha, ⟨hc', -⟩, -, hs⟩ := Stretch.sides (.sequence k) ht
        (cutFrom_sequence hc)
      rw [hs]
      exact hl.append (.blanks (by simp) (List.forall_mem_append.2 ⟨hb, List.forall_mem_cons.2
        ⟨hc', ha⟩⟩)) hr

end Rule

theorem separates_blanks {text : Text} (h : Blanks text) : separates text = false := by
  rw [separates, List.dropWhile_eq_nil_iff.2 h]

/-- Blanks at the end of a text do not make a blank before it separate. -/
theorem separates_of_blanks {text rest : Text} (h : Blanks rest) (hs : separates (text ++ rest)) :
    separates text := by
  by_cases hc : ∃ c ∈ text, isBlank c = false
  · rwa [separates_append_of_exists hc] at hs
  · have ht : Blanks text := fun c hm => by
      simpa using fun hb => hc ⟨c, hm, hb⟩
    rw [separates_blanks (List.forall_mem_append.2 ⟨ht, h⟩)] at hs
    cases hs

inductive Padded : Text → Prop
  | blank {text} : Blanks text → Padded text
  | pieces {before text after} : Blanks before → Pieces text → Blanks after →
      Padded (before ++ text ++ after)

namespace Padded
variable {text u v : Text} {b : Char}

theorem closed (h : Padded text) : (outside 0).after text = outside 0 := by
  cases h with
  | blank h => exact after_blanks h
  | pieces hb hp ha => rw [after_append, after_append, after_blanks hb, hp.closed, after_blanks ha]

/-- After a blank that separates stands an operand, if the blank is outside brackets and
quotations. -/
theorem starts_after (h : Padded text) (ht : text = u ++ b :: v)
    (hu : (outside 0).after u = outside 0) (hb : isBlank b) (hs : separates v) : Starts v := by
  have hblanks {u w : Text} (h : Blanks (u ++ b :: w)) : Blanks w :=
    fun c hc => h c (List.mem_append_right _ (List.mem_cons_of_mem _ hc))
  cases h with
  | blank h =>
    subst ht
    rw [separates_blanks (hblanks h)] at hs
    cases hs
  | @pieces before text after hbefore hp hafter =>
    rw [List.append_assoc] at ht
    rcases append_eq_append_cons ht with ⟨w, rfl, rfl⟩ | ⟨w, rfl, htext⟩
    · exact (hp.starts.append after).blanks_append (hblanks hbefore)
    · rw [after_append, after_blanks hbefore] at hu
      rcases append_eq_append_cons htext with ⟨w', rfl, rfl⟩ | ⟨w', rfl, rfl⟩
      · exact (hp.starts_after rfl hu hb (separates_of_blanks hafter hs)).append after
      · rw [separates_blanks (hblanks hafter)] at hs
        cases hs

end Padded

/-- A text that compiles once it is trimmed is padded. -/
theorem Rule.padded_of_compile {text : Text} {rule : Rule}
    (h : Rule.compile (text.trim isBlank) = .ok rule) : Padded text := by
  obtain ⟨-, hcompiled⟩ := compile_ok h
  have hpieces := hcompiled.pieces (Stretch.trim_tight _)
  obtain ⟨before, after, hb, ha, htext, -⟩ := (Stretch.mk 0 (text.trim isBlank)).trim_parts
  obtain ⟨after', ha', htext'⟩ := text.trim_parts isBlank
  generalize (Stretch.mk 0 (text.trim isBlank)).trim.chars = piece at hpieces htext
  replace htext : text.trim isBlank = before ++ piece ++ after := htext
  have hwhole : text = (text.takeWhile isBlank ++ before) ++ piece ++ (after ++ after') :=
    htext'.trans (by rw [htext]; simp)
  rw [hwhole]
  exact .pieces (List.forall_mem_append.2 ⟨fun c hc => List.mem_takeWhile_imp hc, hb⟩) hpieces
    (List.forall_mem_append.2 ⟨ha, ha'⟩)

end OrderedBnf
