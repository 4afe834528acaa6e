import OrderedBnf.Proofs.Characters
import OrderedBnf.Proofs.Compiled

/-! Compiling gives back the expression that a text was written from. -/
namespace OrderedBnf

section Characters
variable {c : Char}

def signs : Text := ['\'', '"', '(', ')', '[', ']', '{', '}', '|']

theorem not_sign_of_identifierChar (h : isIdentifierChar c) : c ∉ signs := by
  have hall : signs.all fun c => !isIdentifierChar c := by decide +kernel
  intro hc
  simpa [h] using List.all_eq_true.1 hall c hc

theorem not_sign_of_blank (h : isBlank c) : c ∉ signs := by
  have hall : signs.all fun c => !isBlank c := by decide
  intro hc
  simpa [h] using List.all_eq_true.1 hall c hc

theorem of_not_sign (h : c ∉ signs) :
    isQuote c = false ∧ closingOf? c = none ∧ isClosing c = false ∧ c ≠ '|' := by
  simp only [signs, List.mem_cons, List.not_mem_nil, or_false, not_or] at h
  simp [isQuote, closingOf?, isClosing, h]

end Characters

section Search
variable {first i depth : Nat} {blank : Option Nat} {c : Char} {rest : Text}

theorem cutFrom_quote (h : isQuote c) : cutFrom first i depth none blank (c :: rest) =
    cutFrom first (i + 1) depth (some c) blank rest := by
  rw [cutFrom.eq_def]
  simp [h]

theorem cutFrom_opening (h : (closingOf? c).isSome) :
    cutFrom first i depth none blank (c :: rest) =
      cutFrom first (i + 1) (depth + 1) none blank rest := by
  have hq : isQuote c = false := by
    simp only [closingOf?, isQuote] at *
    grind
  rw [cutFrom.eq_def]
  simp [hq, h]

theorem cutFrom_closing (h : isClosing c) :
    cutFrom first i (depth + 1) none blank (c :: rest) =
      cutFrom first (i + 1) depth none blank rest := by
  have hq : isQuote c = false ∧ closingOf? c = none := by
    simp only [isClosing, closingOf?, isQuote] at *
    grind
  rw [cutFrom.eq_def]
  simp [hq, h]

theorem cutFrom_bar : cutFrom first i (depth + 1) none blank ('|' :: rest) =
    cutFrom first (i + 1) (depth + 1) none blank rest := by
  rw [cutFrom.eq_def]
  simp [isQuote, closingOf?, isClosing]

/-- Everything else is passed over, but for a blank that is the first outside brackets. -/
theorem cutFrom_other (hc : c ∉ signs) (hb : 0 < depth ∨ isBlank c = false ∨ blank.isSome) :
    cutFrom first i depth none blank (c :: rest) =
      cutFrom first (i + 1) depth none blank rest := by
  obtain ⟨hquote, hopening, hclosing, hbar⟩ := of_not_sign hc
  have hblank : depth = 0 → (isBlank c && blank.isNone && separates rest) = false := by
    intro hd
    rcases hb with hb | hb | hb
    · omega
    · simp [hb]
    · obtain ⟨b, rfl⟩ := Option.isSome_iff_exists.1 hb
      simp
  rw [cutFrom.eq_def]
  by_cases hd : depth = 0
  · simp [hquote, hopening, hclosing, hbar, hd, hblank hd]
  · simp [hquote, hopening, hclosing, hd]

theorem cutFrom_escaped {mark : Char} {body : Text} (h : Escaped mark body) : ∀ {i : Nat},
    cutFrom first i depth (some mark) blank (body ++ rest) =
      cutFrom first (i + body.length) depth (some mark) blank rest := by
  induction h with
  | nil => exact rfl
  | @plain c body hm hs _ ih =>
    intro i
    rw [List.cons_append, cutFrom.eq_def]
    simp only [hs, hm, if_false]
    rw [ih, List.length_cons, Nat.add_assoc, Nat.add_comm 1]
  | @escape c body _ ih =>
    intro i
    rw [List.cons_append, List.cons_append, cutFrom.eq_def]
    simp only [if_true]
    rw [ih, List.length_cons, List.length_cons, Nat.add_assoc, Nat.add_comm 2]

end Search

/-- A text over which the search goes without a trace. -/
def Unseen (text : Text) : Prop := ∀ first i depth blank rest,
  cutFrom first i depth none blank (text ++ rest) =
    cutFrom first (i + text.length) depth none blank rest

/-- A text over which the search goes, at most keeping a blank in it if it has none yet. -/
def Scans (depth : Nat) (text : Text) : Prop := ∀ first i blank rest, ∃ blank',
  (0 < depth ∨ blank.isSome → blank' = blank) ∧
    cutFrom first i depth none blank (text ++ rest) =
      cutFrom first (i + text.length) depth none blank' rest

theorem Unseen.scans {text : Text} (h : Unseen text) (depth : Nat) : Scans depth text :=
  fun first i blank rest => ⟨blank, fun _ => rfl, h first i depth blank rest⟩

/-- Texts that the search goes over may follow one another. -/
theorem Scans.append {depth : Nat} {s t : Text} (hs : Scans depth s) (ht : Scans depth t) :
    Scans depth (s ++ t) := by
  intro first i blank rest
  obtain ⟨blank', hb', hs⟩ := hs first i blank (t ++ rest)
  obtain ⟨blank'', hb'', ht⟩ := ht first (i + s.length) blank' rest
  refine ⟨blank'', fun h => ?_, ?_⟩
  · have hb := hb' h
    exact (hb'' (hb ▸ h)).trans hb
  · rw [List.append_assoc, hs, ht, List.length_append, Nat.add_assoc]

theorem Blanks.scans {text : Text} (h : Blanks text) (depth : Nat) : Scans depth text := by
  induction text with
  | nil => exact fun first i blank rest => ⟨blank, fun _ => rfl, rfl⟩
  | cons c text ih =>
    have hsign : c ∉ signs := not_sign_of_blank (h c List.mem_cons_self)
    have hc : Scans depth [c] := by
      intro first i blank rest
      by_cases hb : 0 < depth ∨ blank.isSome
      · exact ⟨blank, fun _ => rfl, cutFrom_other hsign (hb.imp_right .inr)⟩
      · obtain ⟨hd, hn⟩ := not_or.1 hb
        obtain ⟨hquote, hopening, hclosing, hbar⟩ := of_not_sign hsign
        refine ⟨if separates rest then some i else none, fun h => absurd h hb, ?_⟩
        rw [List.singleton_append, cutFrom.eq_def]
        cases hr : separates rest <;>
          simp_all [h c List.mem_cons_self]
    exact hc.append (ih fun c' hc' => h c' (List.mem_cons_of_mem _ hc'))

/-- What the search does with a text of each kind. -/
def Level.Passes : Level → Text → Prop
  | operand, text => Unseen text
  | sequence, text => ∀ depth, Scans depth text
  | choice, text => ∀ depth, 0 < depth → Scans depth text

theorem unseen_of_identifierChars {word : Text} (h : ∀ c ∈ word, isIdentifierChar c) :
    Unseen word := by
  intro first i depth blank rest
  induction word generalizing i with
  | nil => rfl
  | cons c word ih =>
    have hc := h c List.mem_cons_self
    rw [List.cons_append, cutFrom_other (not_sign_of_identifierChar hc)
      (.inr (.inl (not_blank_of_identifierChar hc))), ih fun c hc => h c (List.mem_cons_of_mem _ hc),
      List.length_cons, Nat.add_assoc, Nat.add_comm 1]

theorem reserved_identifier {word : Text} {form : Leaf} (h : Rule.reserved? word = some form) :
    isIdentifier word := by
  have hall : ∀ word ∈ ["TOKEN".toList, "IDENTIFIER".toList, "NEW_LINE".toList],
      isIdentifier word := by decide
  apply hall
  rw [Rule.reserved?] at h
  split at h
  · simp [*]
  · split at h
    · simp [*]
    · split at h
      · simp [*]
      · cases h

theorem identifierChar_of_identifier {word : Text} (h : isIdentifier word) :
    ∀ c ∈ word, isIdentifierChar c := by
  simp only [isIdentifier, Bool.and_eq_true, List.all_eq_true] at h
  exact h.2

theorem not_mem_of_identifier {word : Text} {c : Char} (h : isIdentifier word)
    (hc : isIdentifierChar c = false) : c ∉ word := fun hm => by
  rw [identifierChar_of_identifier h c hm] at hc
  cases hc

theorem Terminal.unseen {form : Leaf} {word : Text} (h : Terminal form word) : Unseen word := by
  cases h with
  | @literal mark body hmark hbody =>
    intro first i depth blank rest
    have hslash : mark ≠ '\\' := by
      rintro rfl
      cases hmark
    rw [List.cons_append, List.append_assoc, cutFrom_quote hmark, cutFrom_escaped hbody,
      List.singleton_append, cutFrom.eq_def]
    simp only [hslash, if_true, if_false, List.length_cons, List.length_append, List.length_nil]
    congr 1
    omega
  | reserved h => exact unseen_of_identifierChars (identifierChar_of_identifier (reserved_identifier h))
  | reference h => exact unseen_of_identifierChars (identifierChar_of_identifier h)

theorem Encloses.brackets {opening closing : Char} {e e' : Expression}
    (h : Encloses opening closing e e') :
    closingOf? opening = some closing ∧ isClosing closing := by
  cases h <;> exact ⟨rfl, rfl⟩

theorem unseen_of_enclosed {opening closing : Char} {inner : Text}
    (ho : closingOf? opening = some closing) (hc : isClosing closing)
    (h : ∀ depth, 0 < depth → Scans depth inner) :
    Unseen (opening :: (inner ++ [closing])) := by
  intro first i depth blank rest
  obtain ⟨blank', hb, hinner⟩ := h (depth + 1) (Nat.succ_pos _) first (i + 1) blank
    (closing :: rest)
  rw [List.cons_append, List.append_assoc, cutFrom_opening (ho ▸ rfl), List.singleton_append, hinner,
    hb (.inl (Nat.succ_pos _)), cutFrom_closing hc]
  congr 1
  simp only [List.length_cons, List.length_append, List.length_nil]
  omega

theorem Level.Passes.between {operator : Operator} {text between rest : Text}
    (hfirst : operator.tighter.Passes text) (hb : operator.Between between)
    (hrest : operator.level.Passes rest) : operator.level.Passes (text ++ between ++ rest) := by
  cases hb with
  | blanks _ hblanks =>
    have hfirst : Unseen text := hfirst
    exact fun depth => ((hfirst.scans depth).append (hblanks.scans depth)).append (hrest depth)
  | @bar before after hbefore hafter =>
    intro depth hd
    have hbar : Scans depth ['|'] := by
      obtain ⟨depth, rfl⟩ := Nat.exists_eq_succ_of_ne_zero (Nat.ne_of_gt hd)
      exact fun first i blank rest => ⟨blank, fun _ => rfl, cutFrom_bar⟩
    exact ((hfirst depth).append ((hbefore.scans depth).append
      (hbar.append (hafter.scans depth)))).append (hrest depth hd)

/-- The search does with a layout what it does with any text of that level. -/
theorem Laid.passes {level : Level} {es : List Expression} {text : Text}
    (h : Laid Terminal level es text) : level.Passes text := by
  induction h with
  | leaf h => exact h.unseen
  | enclosed henc hbefore _ hafter ih =>
    obtain ⟨ho, hc⟩ := henc.brackets
    exact unseen_of_enclosed ho hc fun depth hd =>
      ((hbefore.scans depth).append (ih depth hd)).append (hafter.scans depth)
  | @alone operator _ _ _ ih =>
    cases operator with
    | sequence => exact Unseen.scans ih
    | choice => exact fun depth _ => ih depth
  | several _ _ ih => exact ih
  | cons _ hbetween _ hfirst hrest => exact hfirst.between hbetween hrest

/-- A text that starts and ends with a character of its own, so that the blanks around it can be
told apart from it. -/
structure Firm (text : Text) : Prop where
  head : ∃ c rest, text = c :: rest ∧ isBlank c = false ∧ c ≠ '|' ∧ isClosing c = false
  last : ∃ rest c, text = rest ++ [c] ∧ isBlank c = false

theorem firm_of_identifier {word : Text} (h : isIdentifier word) : Firm word := by
  have hchars := identifierChar_of_identifier h
  have hne : word ≠ [] := by
    rintro rfl
    cases h
  constructor
  · obtain ⟨c, rest, rfl⟩ := List.exists_cons_of_ne_nil hne
    have hc := hchars c List.mem_cons_self
    obtain ⟨-, -, hclosing, hbar⟩ := of_not_sign (not_sign_of_identifierChar hc)
    exact ⟨c, rest, rfl, not_blank_of_identifierChar hc, hbar, hclosing⟩
  · obtain ⟨rest, c, rfl⟩ := (List.eq_nil_or_concat' word).resolve_left hne
    exact ⟨rest, c, rfl, not_blank_of_identifierChar (hchars c (by simp))⟩

theorem Terminal.firm {form : Leaf} {word : Text} (h : Terminal form word) : Firm word := by
  cases h with
  | @literal mark body hmark _ =>
    have hall : isBlank mark = false ∧ mark ≠ '|' ∧ isClosing mark = false := by
      simp only [isQuote, Bool.or_eq_true, decide_eq_true_eq] at hmark
      rcases hmark with rfl | rfl <;> decide
    exact ⟨⟨mark, _, rfl, hall⟩, ⟨mark :: body, mark, rfl, hall.1⟩⟩
  | reserved h => exact firm_of_identifier (reserved_identifier h)
  | reference h => exact firm_of_identifier h

/-- A layout neither begins nor ends with a blank, and begins with no bar and no closing bracket. -/
theorem Laid.firm {level : Level} {es : List Expression} {text : Text}
    (h : Laid Terminal level es text) : Firm text := by
  induction h with
  | leaf h => exact h.firm
  | @enclosed opening closing _ _ before text after henc =>
    constructor
    · cases henc <;> exact ⟨_, _, rfl, by decide⟩
    · cases henc <;> exact ⟨_ :: (before ++ text ++ after), _, rfl, by decide⟩
  | alone _ ih => exact ih
  | several _ _ ih => exact ih
  | cons _ _ _ hfirst hrest =>
    obtain ⟨c, rest, rfl, hc⟩ := hfirst.head
    obtain ⟨rest', c', rfl, hc'⟩ := hrest.last
    exact ⟨⟨c, _, rfl, hc⟩, ⟨_, c', (List.append_assoc _ _ _).symm, hc'⟩⟩

section Trimming
variable {before text after : Text}

theorem Text.trimRight_blanks (h : Blanks after) : trimRight isBlank after = [] := by
  induction after with
  | nil => rfl
  | cons c after ih =>
    rw [trimRight, ih fun c hc => h c (List.mem_cons_of_mem _ hc)]
    exact if_pos (h c List.mem_cons_self)

theorem Text.trimRight_append {rest : Text} {c : Char} (hc : isBlank c = false)
    (h : Blanks after) : trimRight isBlank (rest ++ [c] ++ after) = rest ++ [c] := by
  induction rest with
  | nil =>
    rw [List.nil_append, List.singleton_append, trimRight, trimRight_blanks h]
    simp [hc]
  | cons d rest ih =>
    rw [List.cons_append, List.cons_append, trimRight, ih]
    cases rest <;> rfl

/-- Blanks around a firm text are trimmed away, and nothing else. -/
theorem Firm.trim (h : Firm text) (hb : Blanks before) (ha : Blanks after) (n : Nat) :
    (Stretch.mk n (before ++ text ++ after)).trim = ⟨n + before.length, text⟩ := by
  obtain ⟨⟨c, rest, hhead, hc, -⟩, rest', c', hlast, hc'⟩ := h
  have htake : (before ++ text ++ after).takeWhile isBlank = before := by
    rw [List.append_assoc, List.takeWhile_append_of_pos hb, hhead, List.cons_append,
      List.takeWhile_cons_of_neg (by simp [hc]), List.append_nil]
  have hdrop : (before ++ text ++ after).dropWhile isBlank = text ++ after := by
    rw [List.append_assoc, List.dropWhile_append_of_pos hb, hhead, List.cons_append,
      List.dropWhile_cons_of_neg (by simp [hc])]
  rw [Stretch.trim, htake, Text.trim, Text.trimLeft, hdrop, hlast, Text.trimRight_append hc' ha]

end Trimming

section Cutting
variable {n : Nat} {text between rest : Text}

def Operator.cut : Operator → Nat → Cut
  | sequence => .sequence
  | choice => .choice

theorem Stretch.before_cut {cut : Cut} {u v : Text} {c : Char} (h : cut.offset = u.length) :
    (Stretch.mk n (u ++ c :: v)).before cut = ⟨n, u⟩ := by
  rw [Stretch.before, h, List.take_left]

theorem Stretch.after_cut {cut : Cut} {u v : Text} {c : Char} (h : cut.offset = u.length) :
    (Stretch.mk n (u ++ c :: v)).after cut = ⟨n + u.length + 1, v⟩ := by
  rw [Stretch.after, h, List.drop_append, Nat.add_sub_cancel_left,
    List.drop_eq_nil_of_le (Nat.le_succ _)]
  rfl

theorem Blanks.nil : Blanks [] := fun _ h => absurd h List.not_mem_nil

theorem Unseen.not_cut (h : Unseen text) : (Stretch.mk n text).cut? = .ok none := by
  have h := h n 0 0 none []
  rw [List.append_nil] at h
  rw [Stretch.cut?, h]
  simp [cutFrom]

theorem Firm.separates (h : Firm rest) (hb : Blanks between) : separates (between ++ rest) := by
  obtain ⟨c, tail, rfl, hc, hbar, hclosing⟩ := h.head
  rw [OrderedBnf.separates, List.dropWhile_append_of_pos hb,
    List.dropWhile_cons_of_neg (by simp [hc])]
  simp [hbar, hclosing]

theorem Firm.ne_nil (h : Firm text) : text ≠ [] := by
  obtain ⟨c, tail, rfl, -⟩ := h.head
  exact List.cons_ne_nil _ _

/-- Operands are cut apart after the first of them. -/
theorem cut_between {operator : Operator} (hfirst : operator.tighter.Passes text)
    (hfirm : Firm text) (hb : operator.Between between) (hrest : operator.level.Passes rest)
    (hfirm' : Firm rest) : ∃ offset,
      (Stretch.mk n (text ++ between ++ rest)).cut? = .ok (some (operator.cut offset)) ∧
      ((Stretch.mk n (text ++ between ++ rest)).before (operator.cut offset)).trim = ⟨n, text⟩ ∧
      ((Stretch.mk n (text ++ between ++ rest)).after (operator.cut offset)).trim =
        ⟨n + (text ++ between).length, rest⟩ := by
  cases hb with
  | @blanks between hne hblanks =>
    obtain ⟨c, between, rfl⟩ := List.exists_cons_of_ne_nil hne
    have hc : isBlank c := hblanks c List.mem_cons_self
    have hb : Blanks between := fun c hc => hblanks c (List.mem_cons_of_mem _ hc)
    have hassoc : text ++ c :: between ++ rest = text ++ c :: (between ++ rest) := by simp
    rw [hassoc]
    refine ⟨text.length, ?_, ?_, ?_⟩
    · obtain ⟨hquote, hopening, hclosing, hbar⟩ := of_not_sign (not_sign_of_blank hc)
      obtain ⟨blank, hblank, hscan⟩ := ((hb.scans 0).append (hrest 0)) n (text.length + 1)
        (some text.length) []
      rw [List.append_nil] at hscan
      rw [Stretch.cut?, hfirst, cutFrom.eq_def]
      simp only [hquote, hopening, hclosing, hbar, hc, hfirm'.separates hb]
      simp [hscan, hblank (.inr rfl), cutFrom, Operator.cut]
    · rw [Stretch.before_cut rfl]
      simpa using hfirm.trim Blanks.nil Blanks.nil n
    · have htrim := hfirm'.trim hb Blanks.nil (n + text.length + 1)
      rw [List.append_nil] at htrim
      rw [Stretch.after_cut rfl, htrim, List.length_append, List.length_cons]
      congr 1
      omega
  | @bar before after hbefore hafter =>
    have hassoc : text ++ (before ++ '|' :: after) ++ rest =
        text ++ before ++ '|' :: (after ++ rest) := by simp
    rw [hassoc]
    refine ⟨(text ++ before).length, ?_, ?_, ?_⟩
    · obtain ⟨blank, -, hscan⟩ := ((hfirst 0).append (hbefore.scans 0)) n 0 none
        ('|' :: (after ++ rest))
      have hall : (after ++ rest).all isBlank = false := by
        obtain ⟨c, tail, rfl, hc, -⟩ := hfirm'.head
        simp [hc]
      rw [Stretch.cut?, hscan, cutFrom.eq_def]
      simp [isQuote, closingOf?, isClosing, hall, hfirm.ne_nil, Operator.cut]
    · rw [Stretch.before_cut rfl]
      simpa using hfirm.trim Blanks.nil hbefore n
    · have htrim := hfirm'.trim hafter Blanks.nil (n + (text ++ before).length + 1)
      rw [List.append_nil] at htrim
      rw [Stretch.after_cut rfl, htrim, List.length_append, List.length_append, List.length_append,
        List.length_cons]
      congr 1
      omega

end Cutting

namespace Expression

def joined (operator : Operator) : List Expression → Expression
  | [e] => e
  | es => several operator (spliceLast operator es)

theorem joined_cons {operator : Operator} {e : Expression} {es : List Expression} (h : es ≠ []) :
    joined operator (e :: es) =
      several operator (e :: lastOperands operator (joined operator es)) := by
  rcases es with _ | ⟨e', _ | ⟨e'', es⟩⟩
  · exact absurd rfl h
  · rfl
  · simp only [joined, spliceLast, lastOperands]
    rfl

end Expression

namespace Rule
open Expression

/-- Joining two rules joins the operands of their expressions. -/
theorem join_expression (text : Text) (operator : Operator) (offset : Nat) (left right : Rule) :
    (join text (operator.cut offset) left right).expression =
      several operator (left.expression :: lastOperands operator right.expression) := by
  cases operator <;> cases right <;> rfl

variable {text : Text} {s : Stretch}

/-- A stretch that is cut is compiled to both its sides, joined. -/
theorem compileStretch_cut {cut : Cut} {left right : Rule} (h : s.cut? = .ok (some cut))
    (hl : compileStretch text (s.before cut).trim = .ok left)
    (hr : compileStretch text (s.after cut).trim = .ok right) :
    compileStretch text s = .ok (join text cut left right) := by
  rw [compileStretch]
  split
  · simp_all
  · rename_i cut' h'
    obtain rfl : cut = cut' := by simpa [h] using h'
    rw [hl, hr]
    rfl
  · simp_all

theorem compileStretch_leaf {c : Char} {rest : Text} (h : s.cut? = .ok none)
    (hs : s.chars = c :: rest) (hc : closingOf? c = none) :
    compileStretch text s = compileLeaf text s c (s.chars.getLast (hs ▸ List.cons_ne_nil _ _)) := by
  rw [compileStretch]
  split
  · simp_all
  · simp_all
  · simp [hs, hc]

/-- A stretch in brackets is compiled to what its inner stretch is, bracketed. -/
theorem compileStretch_bracket {opening closing : Char} {inner : Text} {body : Rule}
    (h : s.cut? = .ok none) (hs : s.chars = opening :: (inner ++ [closing]))
    (hc : closingOf? opening = some closing) (hne : s.inner.trim.chars ≠ [])
    (hb : compileStretch text s.inner.trim = .ok body) :
    compileStretch text s = .ok (bracket text s opening body) := by
  rw [compileStretch]
  split
  · simp_all
  · simp_all
  · simp [hs, hc, hne, hb]

end Rule

open Expression

section Compiling
variable {source text : Text}

theorem head_of_identifier {word : Text} (h : isIdentifier word) :
    ∃ c rest, word = c :: rest ∧ closingOf? c = none ∧ isQuote c = false := by
  obtain ⟨c, rest, rfl, -⟩ := (firm_of_identifier h).head
  obtain ⟨hquote, hopening, -, -⟩ :=
    of_not_sign (not_sign_of_identifierChar (identifierChar_of_identifier h c List.mem_cons_self))
  exact ⟨c, rest, rfl, hopening, hquote⟩

theorem closingOf?_quote {mark : Char} (h : isQuote mark) : closingOf? mark = none := by
  simp only [isQuote, Bool.or_eq_true, decide_eq_true_eq] at h
  rcases h with rfl | rfl <;> rfl

section Leaves
variable {s : Stretch}

theorem Rule.compileStretch_literal {mark : Char} {body : Text} (hc : s.cut? = .ok none)
    (hs : s.chars = mark :: (body ++ [mark])) (hmark : isQuote mark) :
    compileStretch text s = .ok (.leaf .literal ⟨s.start, s.stop, false, none, text⟩) := by
  rw [compileStretch_leaf hc hs (closingOf?_quote hmark)]
  simp [hs, compileLeaf, hmark]
  rfl

theorem Rule.compileStretch_leafWord {form : Leaf} (hc : s.cut? = .ok none)
    (h : Opaque form s.chars) :
    compileStretch text s = .ok (.leaf form ⟨s.start, s.stop, false, none, text⟩) := by
  generalize hs : s.chars = word at h
  cases h with
  | literal hmark => exact compileStretch_literal hc hs hmark
  | reserved h =>
    obtain ⟨c, rest, hword, hopening, hquote⟩ := head_of_identifier (reserved_identifier h)
    rw [compileStretch_leaf hc (hs.trans hword) hopening]
    simp [compileLeaf, hquote, hs, h]
    rfl
  | reference h hreserved =>
    obtain ⟨c, rest, hword, hopening, hquote⟩ := head_of_identifier h
    rw [compileStretch_leaf hc (hs.trans hword) hopening]
    simp [compileLeaf, hquote, hs, h, hreserved]
    rfl

end Leaves

theorem Terminal.toOpaque {form : Leaf} {word : Text} (h : Terminal form word) :
    Opaque form word := by
  cases h with
  | literal hmark _ => exact .literal hmark
  | reserved h => exact .reserved h
  | reference h hreserved => exact .reference h hreserved

/-- A terminal is compiled to its leaf, wherever it stands in the source. -/
theorem Terminal.compiles {form : Leaf} {word pre post : Text} (h : Terminal form word)
    (hs : source = pre ++ word ++ post) :
    ∃ rule, Rule.compileStretch source ⟨pre.length, word⟩ = .ok rule ∧
      rule.expression = .leaf form word :=
  ⟨_, Rule.compileStretch_leafWord h.unseen.not_cut h.toOpaque,
    congrArg _ (hs ▸ Text.window_append_left pre word post)⟩

/-- Bracketing a rule encloses its expression. -/
theorem bracket_expression {opening closing : Char} {e e' : Expression}
    (h : Encloses opening closing e e') (s : Stretch) {body : Rule}
    (hb : body.expression = e.spliced) :
    (Rule.bracket source s opening body).expression = e'.spliced := by
  cases h with
  | group => cases body <;> exact hb
  | optional => exact congrArg Expression.optional hb
  | repetition => exact congrArg Expression.repetition hb

theorem Laid.ne_nil {terminal : Leaf → Text → Prop} {level : Level} {es : List Expression}
    (h : Laid terminal level es text) : es ≠ [] := by
  cases h <;> simp_all

/-- A text that is laid out for an expression is compiled to it, wherever it stands in the source.
-/
theorem Laid.compiles {level : Level} {es : List Expression} (h : Laid Terminal level es text) :
    ∀ {pre post}, source = pre ++ text ++ post →
      ∃ rule, Rule.compileStretch source ⟨pre.length, text⟩ = .ok rule ∧
        rule.expression = joined level.operator (splicedAll es) := by
  induction h with
  | leaf h => exact h.compiles
  | @enclosed opening closing e e' before text after henc hbefore hlaid hafter ih =>
    intro pre post hs
    obtain ⟨ho, hc⟩ := henc.brackets
    have hunseen := unseen_of_enclosed ho hc fun depth hd =>
      ((hbefore.scans depth).append (hlaid.passes depth hd)).append (hafter.scans depth)
    have hinner : (Stretch.mk pre.length
        (opening :: (before ++ text ++ after ++ [closing]))).inner.trim =
          ⟨(pre ++ opening :: before).length, text⟩ := by
      have htrim := hlaid.firm.trim hbefore hafter (pre.length + 1)
      rw [Stretch.inner, List.tail_cons, List.dropLast_concat, htrim, List.length_append,
        List.length_cons]
      congr 1
      omega
    obtain ⟨body, hbody, he⟩ := @ih (pre ++ opening :: before) (after ++ closing :: post)
      (by simp [hs])
    rw [← hinner] at hbody
    refine ⟨_, Rule.compileStretch_bracket hunseen.not_cut rfl ho ?_ hbody,
      bracket_expression henc _ he⟩
    rw [hinner]
    exact hlaid.firm.ne_nil
  | @alone operator e _ _ ih => exact ih
  | @several operator es _ hlength _ ih =>
    intro pre post hs
    obtain ⟨rule, hrule, he⟩ := ih hs
    refine ⟨rule, hrule, he.trans ?_⟩
    rcases es with _ | ⟨e, _ | ⟨e', es⟩⟩
    · exact absurd hlength (by decide)
    · exact absurd hlength (by simp)
    · cases operator <;> rfl
  | @cons operator e es text between rest hfirst hbetween hrest ih ih' =>
    intro pre post hs
    obtain ⟨left, hleft, hle⟩ := @ih pre (between ++ rest ++ post) (by simp [hs])
    obtain ⟨right, hright, hre⟩ := @ih' (pre ++ (text ++ between)) post (by simp [hs])
    rw [List.length_append] at hright
    obtain ⟨offset, hcut, hbefore, hafter⟩ := cut_between hfirst.passes hfirst.firm hbetween
      hrest.passes hrest.firm
    refine ⟨_, Rule.compileStretch_cut hcut (hbefore ▸ hleft) (hafter ▸ hright), ?_⟩
    have hne : splicedAll es ≠ [] := by
      obtain ⟨e', es, rfl⟩ := List.exists_cons_of_ne_nil hrest.ne_nil
      exact List.cons_ne_nil _ _
    have hlevel : operator.level.operator = operator := by cases operator <;> rfl
    rw [Rule.join_expression, hle, hre, hlevel]
    exact (joined_cons hne).symm

end Compiling

namespace Expression

theorem terminals_lastOperands (operator : Operator) (e : Expression) :
    terminalsOfAll (lastOperands operator e) = terminals e := by
  cases e with
  | several operator' operands =>
    rw [lastOperands]
    split
    · rfl
    · exact List.append_nil _
  | _ => exact List.append_nil _

theorem terminals_spliceLast (operator : Operator) (es : List Expression) :
    terminalsOfAll (spliceLast operator es) = terminalsOfAll es := by
  induction es with
  | nil => rfl
  | cons e es ih =>
    cases es with
    | nil => exact (terminals_lastOperands operator e).trans (List.append_nil _).symm
    | cons e' es => exact congrArg (terminals e ++ ·) ih

mutual
theorem terminals_spliced : ∀ e : Expression, e.spliced.terminals = e.terminals
  | leaf .. => rfl
  | several operator operands =>
    (terminals_spliceLast operator _).trans (terminals_splicedAll operands)
  | optional body | repetition body => terminals_spliced body

theorem terminals_splicedAll : ∀ es, terminalsOfAll (splicedAll es) = terminalsOfAll es
  | [] => rfl
  | e :: es => by
    rw [splicedAll, terminalsOfAll, terminalsOfAll, terminals_spliced e, terminals_splicedAll es]
end

end Expression

/-- A text that an expression is laid out in compiles, to the expression with every last operand
spliced into an operator of its own kind. The words at the leaves are those of the expression. -/
theorem Rule.compile_laid {e : Expression} {before text after : Text} (hbefore : Blanks before)
    (h : Laid Terminal .choice [e] text) (hafter : Blanks after) :
    ∃ rule, Rule.compile (before ++ text ++ after) = .ok rule ∧ rule.expression = e.spliced ∧
      rule.expression.terminals = e.terminals := by
  have htrim := h.firm.trim hbefore hafter 0
  rw [Nat.zero_add] at htrim
  obtain ⟨rule, hrule, he⟩ := @Laid.compiles (before ++ text ++ after) _ _ _ h before after rfl
  refine ⟨rule, ?_, he, he ▸ Expression.terminals_spliced e⟩
  rw [Rule.compile, htrim, if_neg h.firm.ne_nil]
  exact hrule

/-- A sequence in needless brackets, a bar in quotes and a bar between two alternatives. -/
theorem bars_compile :
    let name (c : Char) : Expression := .leaf .reference [c]
    let bar : Expression := .leaf .literal ['\'', '|', '\'']
    ∃ rule, Rule.compile " a ('|'  b )|[c]".toList = .ok rule ∧
      rule.expression =
        .several .choice [.several .sequence [name 'a', bar, name 'b'], .optional (name 'c')] := by
  intro name bar
  have hname (c : Char) (h : isIdentifier [c]) (hr : Rule.reserved? [c] = none) :
      Laid Terminal .operand [name c] [c] := .leaf (.reference h hr)
  have hbar : Laid Terminal .operand [bar] ['\'', '|', '\''] :=
    .leaf (.literal rfl (.plain (by decide) (by decide) .nil : Escaped '\'' ['|']))
  have hblanks (n : Nat) : Blanks (List.replicate n ' ') := fun c hc => by
    rw [List.eq_of_mem_replicate hc]
    rfl
  have hinner : Laid Terminal .sequence [bar, name 'b'] "'|'  b".toList :=
    @Laid.cons _ .sequence _ _ _ _ ['b'] hbar (.blanks (List.cons_ne_nil _ _) (hblanks 2))
      (@Laid.alone _ .sequence _ _ (hname 'b' rfl rfl))
  have hgroup : Laid Terminal .operand [.several .sequence [bar, name 'b']] "('|'  b )".toList :=
    .enclosed .group (hblanks 0)
      (@Laid.alone _ .choice _ _ (@Laid.several _ .sequence _ _ (by decide) hinner)) (hblanks 1)
  have hfirst : Laid Terminal .sequence
      [.several .sequence [name 'a', .several .sequence [bar, name 'b']]] "a ('|'  b )".toList :=
    @Laid.several _ .sequence _ _ (by decide) (@Laid.cons _ .sequence _ _ _ _ "('|'  b )".toList
      (hname 'a' rfl rfl) (.blanks (List.cons_ne_nil _ _) (hblanks 1))
      (@Laid.alone _ .sequence _ _ hgroup))
  have hsecond : Laid Terminal .choice [.optional (name 'c')] "[c]".toList :=
    @Laid.alone _ .choice _ _ (@Laid.alone _ .sequence _ _ (.enclosed .optional (hblanks 0)
      (@Laid.alone _ .choice _ _ (@Laid.alone _ .sequence _ _ (hname 'c' rfl rfl))) (hblanks 0)))
  have hchoice := @Laid.several _ .choice _ _ (by decide)
    (@Laid.cons _ .choice _ _ _ _ _ hfirst (.bar (hblanks 0) (hblanks 0)) hsecond)
  obtain ⟨rule, hrule, he, -⟩ := Rule.compile_laid (hblanks 1) hchoice (hblanks 0)
  exact ⟨rule, hrule, he⟩

end OrderedBnf
