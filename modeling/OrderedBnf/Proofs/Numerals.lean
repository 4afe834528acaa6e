import Mathlib.Data.List.TakeWhile
import OrderedBnf.Proofs.Literals

/-! Numbers: a scanner takes the longest number that its range starts with, and takes none where a
letter goes on behind it. -/
namespace OrderedBnf.Numeral

def AtMostOne (p : Char → Bool) (word : Text) : Prop := word = [] ∨ ∃ c, p c ∧ word = [c]

def Run (p : Char → Bool) (word : Text) : Prop := word ≠ [] ∧ ∀ c ∈ word, p c

def isSign (c : Char) : Bool := c = '+' || c = '-'
def isHexMark (c : Char) : Bool := c = 'x' || c = 'X'
def isLongMark (c : Char) : Bool := c = 'l' || c = 'L'
def isExponentMark (c : Char) : Bool := c = 'e' || c = 'E'

inductive Signed (language : Text → Prop) : Text → Prop
  | intro {sign word} : AtMostOne isSign sign → language word → Signed language (sign ++ word)

inductive Magnitude : Text → Prop
  | decimal {digits} : Run isAsciiDigit digits → Magnitude digits
  | hexadecimal {mark digits} : isHexMark mark → Run isHexDigit digits →
      Magnitude ('0' :: mark :: digits)

inductive Whole : Text → Prop
  | intro {magnitude mark} : Magnitude magnitude → AtMostOne isLongMark mark →
      Whole (magnitude ++ mark)

inductive Pointed : Text → Prop
  | before {whole fraction} : Run isAsciiDigit whole → (∀ c ∈ fraction, isAsciiDigit c) →
      Pointed (whole ++ '.' :: fraction)
  | behind {fraction} : Run isAsciiDigit fraction → Pointed ('.' :: fraction)

inductive Exponent : Text → Prop
  | intro {mark digits} : isExponentMark mark → Signed (Run isAsciiDigit) digits →
      Exponent (mark :: digits)

/-- Digits with what makes a number no whole number: a point, an exponent or a suffix. -/
inductive Decimal : Text → Prop
  | point {number exponent suffix} : Pointed number → exponent = [] ∨ Exponent exponent →
      AtMostOne isFloatSuffix suffix → Decimal (number ++ (exponent ++ suffix))
  | exponent {digits exponent suffix} : Run isAsciiDigit digits → Exponent exponent →
      AtMostOne isFloatSuffix suffix → Decimal (digits ++ (exponent ++ suffix))
  | suffix {digits c} : Run isAsciiDigit digits → isFloatSuffix c → Decimal (digits ++ [c])

abbrev Integer : Text → Prop := Signed Whole

abbrev Floating : Text → Prop := Signed Decimal

/-- The longest word of a language that a text starts with. -/
structure Longest (language : Text → Prop) (text word : Text) : Prop where
  front : word <+: text
  spoken : language word
  longest : ∀ other, other <+: text → language other → other.length ≤ word.length

section Parts
variable {p q : Char → Bool} {text rest word more : Text}

theorem dropWhile_of_head (h : text.head?.any p = false) : text.dropWhile p = text := by
  cases text with
  | nil => rfl
  | cons c text => exact List.dropWhile_cons_of_neg (by simpa using h)

theorem Run.head (h : Run p word) : ∃ c rest, word = c :: rest ∧ p c := by
  obtain ⟨c, rest, rfl⟩ := List.exists_cons_of_ne_nil h.1
  exact ⟨c, rest, rfl, h.2 c List.mem_cons_self⟩

theorem some?_run (h : Run p word) (more : Text) :
    some? p (word ++ more) = some (more.dropWhile p) := by
  obtain ⟨c, rest, rfl, hc⟩ := h.head
  rw [some?, List.cons_append, one?_eq_some.2 ⟨c, hc, rfl⟩, Option.map_some,
    List.dropWhile_append_of_pos fun d hd => h.2 d (List.mem_cons_of_mem _ hd)]

theorem exists_run (h : some? p text = some rest) : ∃ word, Run p word ∧ text = word ++ rest := by
  obtain ⟨word, hne, hword, htext, -⟩ := some?_eq_some.1 h
  exact ⟨word, ⟨hne, hword⟩, htext⟩

theorem exists_atMostOne (p : Char → Bool) (text : Text) :
    ∃ word, AtMostOne p word ∧ text = word ++ skipOne p text := by
  rcases skipOne_cases p text with ⟨c, hc, htext⟩ | ⟨-, hskip⟩
  · exact ⟨[c], .inr ⟨c, hc, rfl⟩, htext⟩
  · exact ⟨[], .inl rfl, hskip.symm⟩

theorem skipOne_append (h : AtMostOne p word) (hmore : more.head?.any p = false) :
    skipOne p (word ++ more) = more := by
  obtain rfl | ⟨c, hc, rfl⟩ := h
  · exact skipOne_of_not hmore
  · exact if_pos hc

/-- Whatever digits come first, a mark that is no digit is passed over with what precedes it. -/
theorem skipOne_mark (hpq : ∀ c, p c → q c = false) (h : AtMostOne p word) (more : Text) :
    (skipOne p ((word ++ more).dropWhile q)).length ≤ more.length := by
  obtain rfl | ⟨c, hc, rfl⟩ := h
  · exact Nat.le_trans (skipOne_length_le _ _) (List.length_dropWhile_le q more)
  · rw [dropWhile_of_head (by simpa using hpq c hc)]
    exact Nat.le_of_eq (congrArg List.length (if_pos hc))

end Parts

/-- A reader of a language takes words of it, and of a text that starts with such a word it leaves
no more than what follows the word. -/
structure Takes (read? : Text → Option Text) (language : Text → Prop) : Prop where
  sound {text rest} : read? text = some rest → ∃ word, language word ∧ text = word ++ rest
  complete {word} (more) : language word → ∃ rest, read? (word ++ more) = some rest ∧
    rest.length ≤ more.length

namespace Takes
variable {read? : Text → Option Text} {language : Text → Prop} (h : Takes read? language)
  {text rest : Text}
include h

/-- What is read off a text is the longest word of the language in front of it. -/
theorem longest (hread : read? text = some rest) :
    ∃ word, Longest language text word ∧ text = word ++ rest := by
  obtain ⟨word, hword, rfl⟩ := h.sound hread
  refine ⟨word, ⟨List.prefix_append _ _, hword, ?_⟩, rfl⟩
  rintro other ⟨more, hmore⟩ hother
  obtain ⟨rest', hread', hle⟩ := h.complete more hother
  rw [hmore, hread, Option.some.injEq] at hread'
  have hlength := congrArg List.length hmore
  rw [List.length_append, List.length_append, hread'] at hlength
  omega

/-- Where nothing is read, no word of the language stands in front. -/
theorem none (hread : read? text = none) : ∀ word, word <+: text → ¬ language word := by
  rintro word ⟨more, rfl⟩ hword
  obtain ⟨rest, hread', -⟩ := h.complete more hword
  cases hread.symm.trans hread'

end Takes

section Signs
variable {c : Char} {text sign : Text}

theorem not_sign_of_digit (h : isAsciiDigit c) : isSign c = false := by
  rw [Bool.eq_false_iff]
  intro hsign
  simp only [isSign, Bool.or_eq_true, decide_eq_true_eq] at hsign
  rcases hsign with rfl | rfl <;> cases h

/-- A sign before what starts with none is no part of it. -/
theorem skipSign_append (hs : AtMostOne isSign sign) (htext : text.head?.any isSign = false) :
    skipSign (sign ++ text) = text :=
  skipOne_append hs htext

/-- What takes the words of a language that start with no sign takes them behind a sign as well. -/
theorem Takes.signed {read? : Text → Option Text} {language : Text → Prop}
    (h : Takes read? language) (hfirst : ∀ word, language word → ∃ c rest, word = c :: rest ∧
      isSign c = false) : Takes (fun text => read? (skipSign text)) (Signed language) where
  sound {text rest} hread := by
    obtain ⟨sign, hs, hsign⟩ := exists_atMostOne isSign text
    obtain ⟨word, hword, hbody⟩ := h.sound hread
    refine ⟨sign ++ word, .intro hs hword, ?_⟩
    rw [List.append_assoc, ← hbody]
    exact hsign
  complete more hword := by
    obtain @⟨sign, word, hs, hword⟩ := hword
    obtain ⟨c, rest, rfl, hc⟩ := hfirst _ hword
    rw [List.append_assoc, skipSign_append hs (by simpa using hc)]
    exact h.complete more hword

end Signs

section Integers
variable {text rest more digits word mark : Text} {c : Char}

theorem longMark_apart (h : isLongMark c) : isAsciiDigit c = false ∧ isHexDigit c = false := by
  simp only [isLongMark, Bool.or_eq_true, decide_eq_true_eq] at h
  rcases h with rfl | rfl <;> decide

theorem hexMark_apart (h : isHexMark c) : isAsciiDigit c = false ∧ isLongMark c = false := by
  simp only [isHexMark, Bool.or_eq_true, decide_eq_true_eq] at h
  rcases h with rfl | rfl <;> decide

theorem Magnitude.head (h : Magnitude word) : ∃ c rest, word = c :: rest ∧ isAsciiDigit c := by
  cases h with
  | decimal hd => exact hd.head
  | hexadecimal => exact ⟨_, _, rfl, rfl⟩

theorem exists_hexadecimal (h : ((one? (· = '0') text).bind fun rest =>
      (one? (fun c => c = 'x' || c = 'X') rest).bind (some? isHexDigit)) = some rest) :
    ∃ mark run, isHexMark mark ∧ Run isHexDigit run ∧ text = '0' :: mark :: (run ++ rest) := by
  obtain ⟨after, hzero, h⟩ := Option.bind_eq_some_iff.1 h
  obtain ⟨digits, hmark, h⟩ := Option.bind_eq_some_iff.1 h
  obtain ⟨run, hrun, rfl⟩ := exists_run h
  obtain ⟨zero, hz, rfl⟩ := one?_eq_some.1 hzero
  obtain ⟨mark, hm, rfl⟩ := one?_eq_some.1 hmark
  obtain rfl : zero = '0' := by simpa using hz
  exact ⟨mark, run, hm, hrun, rfl⟩

theorem exists_magnitude (h : magnitude? text = some rest) :
    ∃ word, Magnitude word ∧ text = word ++ rest := by
  rw [magnitude?, Option.or_eq_some_iff] at h
  rcases h with h | ⟨-, h⟩
  · obtain ⟨mark, run, hm, hrun, rfl⟩ := exists_hexadecimal h
    exact ⟨'0' :: mark :: run, .hexadecimal hm hrun, rfl⟩
  · obtain ⟨run, hrun, rfl⟩ := exists_run h
    exact ⟨run, .decimal hrun, rfl⟩

theorem magnitude?_hexadecimal (hm : isHexMark c) (hd : Run isHexDigit digits) (more : Text) :
    magnitude? ('0' :: c :: (digits ++ more)) = some (more.dropWhile isHexDigit) := by
  have hmark : one? (fun c => c = 'x' || c = 'X') (c :: (digits ++ more)) = some (digits ++ more) :=
    one?_eq_some.2 ⟨c, hm, rfl⟩
  rw [magnitude?, Option.or_eq_some_iff]
  left
  change (one? _ (c :: (digits ++ more))).bind _ = _
  rw [hmark, Option.bind_some, some?_run hd]

/-- All digits are taken, unless the mark of a hexadecimal number comes behind the first. -/
theorem magnitude?_digits (hd : Run isAsciiDigit digits) (more : Text) :
    magnitude? (digits ++ more) = some (more.dropWhile isAsciiDigit) ∨
      ∃ mark run rest, isHexMark mark ∧ more = mark :: (run ++ rest) ∧
        magnitude? (digits ++ more) = some rest := by
  rw [magnitude?, digits?, some?_run hd]
  cases hhex : (one? (· = '0') (digits ++ more)).bind fun rest =>
    (one? (fun c => c = 'x' || c = 'X') rest).bind (some? isHexDigit) with
  | none => exact .inl rfl
  | some rest =>
    obtain ⟨mark, run, hm, -, htext⟩ := exists_hexadecimal hhex
    refine .inr ⟨mark, run, rest, hm, ?_, rfl⟩
    obtain ⟨c, tail, rfl, -⟩ := hd.head
    have htail := (List.cons.inj htext).2
    cases tail with
    | nil => exact htail
    | cons d tail =>
      obtain ⟨rfl, -⟩ := List.cons.inj htail
      exact absurd (hd.2 d (by simp)) (by rw [(hexMark_apart hm).1]; exact Bool.false_ne_true)

theorem whole_takes :
    Takes (fun text => (magnitude? text).map (skipOne isLongMark)) Whole where
  sound {text rest} h := by
    obtain ⟨marked, hm, rfl⟩ := Option.map_eq_some_iff.1 h
    obtain ⟨magnitude, hmagnitude, rfl⟩ := exists_magnitude hm
    obtain ⟨mark, hk, hmark⟩ := exists_atMostOne isLongMark marked
    refine ⟨magnitude ++ mark, .intro hmagnitude hk, ?_⟩
    rw [List.append_assoc, ← hmark]
  complete more h := by
    obtain @⟨magnitude, mark, hmagnitude, hk⟩ := h
    rw [List.append_assoc]
    cases hmagnitude with
    | hexadecimal hm hd =>
      refine ⟨_, congrArg _ (magnitude?_hexadecimal hm hd _), ?_⟩
      exact skipOne_mark (fun _ hc => (longMark_apart hc).2) hk more
    | decimal hd =>
      obtain hread | ⟨x, run, rest, hx, hmore, hread⟩ := magnitude?_digits hd (mark ++ more)
      · refine ⟨_, congrArg _ hread, ?_⟩
        exact skipOne_mark (fun _ hc => (longMark_apart hc).1) hk more
      · refine ⟨_, congrArg _ hread, Nat.le_trans (skipOne_length_le _ _) ?_⟩
        obtain rfl | ⟨c, hc, rfl⟩ := hk
        · have hlength := congrArg List.length hmore
          rw [List.nil_append, List.length_cons, List.length_append] at hlength
          omega
        · obtain ⟨rfl, -⟩ := List.cons.inj hmore
          cases (hexMark_apart hx).2.symm.trans hc

theorem integer?_takes : Takes integer? Integer :=
  whole_takes.signed fun word hword => by
    obtain @⟨magnitude, mark, hmagnitude, -⟩ := hword
    obtain ⟨c, rest, rfl, hc⟩ := hmagnitude.head
    exact ⟨c, _, rfl, not_sign_of_digit hc⟩

end Integers

section Decimals
variable {text rest more digits word suffix : Text} {c : Char}

/-- A letter that makes the digits before it no whole number goes on neither with them nor with a
whole number. -/
theorem scale_apart (h : isExponentMark c ∨ isFloatSuffix c) : isAsciiDigit c = false ∧ c ≠ '.' ∧
    isHexMark c = false ∧ isLongMark c = false ∧ isLetter c := by
  simp only [isExponentMark, isFloatSuffix, Bool.or_eq_true, decide_eq_true_eq] at h
  rcases h with (rfl | rfl) | ((rfl | rfl) | rfl) | rfl <;> decide

theorem not_exponentMark_of_floatSuffix (h : isFloatSuffix c) : isExponentMark c = false := by
  simp only [isFloatSuffix, Bool.or_eq_true, decide_eq_true_eq] at h
  rcases h with ((rfl | rfl) | rfl) | rfl <;> rfl

theorem Run.no_point (h : Run isAsciiDigit word) (more : Text) :
    one? (· = '.') (word ++ more) = none := by
  obtain ⟨c, rest, rfl, hc⟩ := h.head
  refine one?_eq_none.2 ?_
  rw [List.cons_append, List.head?_cons, Option.any_some, decide_eq_false_iff_not]
  rintro rfl
  cases hc

theorem exponent?_append (h : Exponent word) (more : Text) :
    exponent? (word ++ more) = some (more.dropWhile isAsciiDigit) := by
  obtain @⟨mark, digits, hm, hdigits⟩ := h
  obtain @⟨sign, digits, hs, hd⟩ := hdigits
  obtain ⟨c, rest, rfl, hc⟩ := hd.head
  have hmark : one? (fun c => c = 'e' || c = 'E') (mark :: (sign ++ c :: rest) ++ more) =
      some (sign ++ c :: rest ++ more) := one?_eq_some.2 ⟨mark, hm, rfl⟩
  rw [exponent?, hmark, Option.bind_some, List.append_assoc,
    skipSign_append hs (by simpa using not_sign_of_digit hc)]
  exact some?_run hd more

theorem exponent?_none (h : text.head?.any isExponentMark = false) : exponent? text = none := by
  rw [exponent?, one?_eq_none.2 (by exact h), Option.bind_none]

theorem exists_exponent (h : exponent? text = some rest) :
    ∃ word, Exponent word ∧ text = word ++ rest := by
  obtain ⟨after, hmark, hdigits⟩ := Option.bind_eq_some_iff.1 h
  obtain ⟨mark, hm, rfl⟩ := one?_eq_some.1 hmark
  obtain ⟨digits, hd, hbody⟩ := exists_run hdigits
  obtain ⟨sign, hs, hsign⟩ := exists_atMostOne isSign after
  refine ⟨mark :: (sign ++ digits), .intro hm (.intro hs hd), ?_⟩
  rw [List.cons_append, List.append_assoc, ← hbody]
  exact congrArg (mark :: ·) hsign

theorem pointed?_append (h : Pointed word) (more : Text) :
    pointed? (word ++ more) = some (more.dropWhile isAsciiDigit) := by
  cases h with
  | @before whole fraction hd hf =>
    have hdigits : digits? (whole ++ '.' :: (fraction ++ more)) =
        some ('.' :: (fraction ++ more)) := some?_run hd _
    rw [List.append_assoc, List.cons_append, pointed?, hd.no_point]
    dsimp only
    rw [hdigits, Option.bind_some, one?_eq_some.2 ⟨'.', rfl, rfl⟩, Option.map_some,
      List.dropWhile_append_of_pos hf]
  | behind hd => exact some?_run hd more

theorem exists_pointed (h : pointed? text = some rest) :
    ∃ word, Pointed word ∧ text = word ++ rest := by
  rw [pointed?] at h
  split at h
  · rename_i after hpoint
    obtain ⟨point, hp, rfl⟩ := one?_eq_some.1 hpoint
    obtain ⟨fraction, hd, rfl⟩ := exists_run h
    obtain rfl : point = '.' := by simpa using hp
    exact ⟨_, .behind hd, rfl⟩
  · obtain ⟨after, hafter, rfl⟩ := Option.map_eq_some_iff.1 h
    obtain ⟨_, hdigits, hpoint⟩ := Option.bind_eq_some_iff.1 hafter
    obtain ⟨whole, hd, rfl⟩ := exists_run hdigits
    obtain ⟨point, hp, rfl⟩ := one?_eq_some.1 hpoint
    obtain rfl : point = '.' := by simpa using hp
    refine ⟨whole ++ '.' :: after.takeWhile isAsciiDigit, .before hd fun c hc => ?_, ?_⟩
    · exact List.all_eq_true.1 List.all_takeWhile c hc
    · rw [List.append_assoc, List.cons_append, List.takeWhile_append_dropWhile]

/-- Digits before what is neither a digit nor a point. -/
theorem pointed?_digits (hd : Run isAsciiDigit digits) (hc : isAsciiDigit c = false)
    (hp : c ≠ '.') : digits? (digits ++ c :: more) = some (c :: more) ∧
      pointed? (digits ++ c :: more) = none := by
  have hdigits : digits? (digits ++ c :: more) = some (c :: more) := by
    rw [digits?, some?_run hd, dropWhile_of_head (by simpa using hc)]
  refine ⟨hdigits, ?_⟩
  rw [pointed?, hd.no_point]
  dsimp only
  rw [hdigits, Option.bind_some, one?_eq_none.2 (by simpa using hp), Option.map_none]

def decimal? (body : Text) : Option Text :=
  match pointed? body with
  | some rest => some (skipOne isFloatSuffix ((exponent? rest).getD rest))
  | none => (digits? body).bind fun rest =>
    match exponent? rest with
    | some rest => some (skipOne isFloatSuffix rest)
    | none => one? isFloatSuffix rest

theorem Exponent.head (h : Exponent word) : ∃ c rest, word = c :: rest ∧ isExponentMark c := by
  obtain @⟨mark, digits, hm, -⟩ := h
  exact ⟨mark, digits, rfl, hm⟩

theorem exists_scale (text : Text) : ∃ exponent rest, (exponent = [] ∨ Exponent exponent) ∧
    text = exponent ++ rest ∧ (exponent? text).getD text = rest := by
  cases h : exponent? text with
  | none => exact ⟨[], text, .inl rfl, rfl, rfl⟩
  | some rest =>
    obtain ⟨exponent, he, htext⟩ := exists_exponent h
    exact ⟨exponent, rest, .inr he, htext, rfl⟩

/-- Behind the digits of a fraction an exponent and a suffix are passed over. -/
theorem skip_scale {exponent : Text} (he : exponent = [] ∨ Exponent exponent)
    (hs : AtMostOne isFloatSuffix suffix)
    (hrest : rest = (exponent ++ (suffix ++ more)).dropWhile isAsciiDigit) :
    (skipOne isFloatSuffix ((exponent? rest).getD rest)).length ≤ more.length := by
  have hapart (c : Char) (hc : isFloatSuffix c) := (scale_apart (.inr hc)).1
  obtain rfl | he := he
  · rw [List.nil_append] at hrest
    subst hrest
    obtain rfl | ⟨c, hc, rfl⟩ := hs
    · obtain ⟨exponent, behind, -, hmore, hbehind⟩ := exists_scale (more.dropWhile isAsciiDigit)
      have hlength := congrArg List.length hmore
      have := List.length_dropWhile_le isAsciiDigit more
      have := skipOne_length_le isFloatSuffix behind
      rw [List.length_append] at hlength
      rw [List.nil_append, hbehind]
      omega
    · rw [dropWhile_of_head (by simpa using hapart c hc), List.singleton_append,
        exponent?_none (by simpa using not_exponentMark_of_floatSuffix hc), Option.getD_none]
      exact Nat.le_of_eq (congrArg List.length (if_pos hc))
  · obtain ⟨c, exponent, rfl, hc⟩ := he.head
    rw [dropWhile_of_head (by simpa using (scale_apart (.inl hc)).1)] at hrest
    rw [hrest, exponent?_append he, Option.getD_some]
    exact skipOne_mark hapart hs more

theorem exists_decimal (h : decimal? text = some rest) :
    ∃ word, Decimal word ∧ text = word ++ rest := by
  rw [decimal?] at h
  split at h
  · rename_i after hpointed
    obtain ⟨number, hn, rfl⟩ := exists_pointed hpointed
    obtain ⟨exponent, behind, he, hafter, hbehind⟩ := exists_scale after
    rw [hbehind, Option.some.injEq] at h
    obtain ⟨suffix, hs, hsuffix⟩ := exists_atMostOne isFloatSuffix behind
    refine ⟨_, .point hn he hs, ?_⟩
    rw [List.append_assoc, List.append_assoc, ← h, ← hsuffix, ← hafter]
  · obtain ⟨after, hdigits, hscale⟩ := Option.bind_eq_some_iff.1 h
    obtain ⟨digits, hd, rfl⟩ := exists_run hdigits
    split at hscale
    · rename_i behind hexponent
      obtain ⟨exponent, he, rfl⟩ := exists_exponent hexponent
      obtain ⟨suffix, hs, hsuffix⟩ := exists_atMostOne isFloatSuffix behind
      cases hscale
      refine ⟨_, .exponent hd he hs, ?_⟩
      rw [List.append_assoc, List.append_assoc, ← hsuffix]
    · obtain ⟨c, hc, rfl⟩ := one?_eq_some.1 hscale
      exact ⟨_, .suffix hd hc, by simp⟩

theorem decimal?_takes : Takes decimal? Decimal where
  sound := exists_decimal
  complete more h := by
    cases h with
    | point hn he hs =>
      rw [List.append_assoc, decimal?, pointed?_append hn]
      exact ⟨_, rfl, skip_scale he hs (by rw [List.append_assoc])⟩
    | exponent hd he hs =>
      obtain ⟨c, exponent, rfl, hc⟩ := he.head
      have hapart := scale_apart (.inl hc)
      obtain ⟨hdigits, hpointed⟩ := pointed?_digits hd hapart.1 hapart.2.1
      rw [List.append_assoc, List.append_assoc, decimal?, List.cons_append, hpointed]
      dsimp only
      rw [hdigits, Option.bind_some, ← List.cons_append, exponent?_append he]
      exact ⟨_, rfl, skipOne_mark (fun _ hc => (scale_apart (.inr hc)).1) hs more⟩
    | suffix hd hc =>
      have hapart := scale_apart (.inr hc)
      obtain ⟨hdigits, hpointed⟩ := pointed?_digits hd hapart.1 hapart.2.1
      rw [List.append_assoc, List.singleton_append, decimal?, hpointed]
      dsimp only
      rw [hdigits, Option.bind_some,
        exponent?_none (by simpa using not_exponentMark_of_floatSuffix hc)]
      exact ⟨more, one?_eq_some.2 ⟨_, hc, rfl⟩, Nat.le_refl _⟩

/-- What a number starts with that is no whole number. -/
theorem Decimal.lead (h : Decimal word) : (∃ after, word = '.' :: after) ∨
    ∃ digits c after, word = digits ++ c :: after ∧ Run isAsciiDigit digits ∧
      (c = '.' ∨ isExponentMark c ∨ isFloatSuffix c) := by
  cases h with
  | point hn _ _ =>
    cases hn with
    | before hd _ => exact .inr ⟨_, '.', _, by rw [List.append_assoc]; rfl, hd, .inl rfl⟩
    | behind _ => exact .inl ⟨_, rfl⟩
  | exponent hd he _ =>
    obtain ⟨c, exponent, rfl, hc⟩ := he.head
    exact .inr ⟨_, c, _, rfl, hd, .inr (.inl hc)⟩
  | suffix hd hc => exact .inr ⟨_, _, _, rfl, hd, .inr (.inr hc)⟩

theorem Decimal.head (h : Decimal word) : ∃ c rest, word = c :: rest ∧ isSign c = false := by
  obtain ⟨after, rfl⟩ | ⟨digits, _, after, rfl, hd, -⟩ := h.lead
  · exact ⟨'.', after, rfl, rfl⟩
  · obtain ⟨c, rest, rfl, hc⟩ := hd.head
    exact ⟨c, _, rfl, not_sign_of_digit hc⟩

theorem floating?_takes : Takes floating? Floating :=
  decimal?_takes.signed fun _ => Decimal.head

/-- Read as a whole number, another number is cut off at its point or before a letter. -/
theorem integer?_of_floating (h : Floating word) (hread : integer? (word ++ more) = some rest) :
    ∃ c after, rest = c :: after ∧ more.length ≤ after.length ∧ (c = '.' ∨ isLetter c) := by
  obtain @⟨sign, decimal, hs, hdecimal⟩ := h
  obtain ⟨c, tail, htail, hc⟩ := hdecimal.head
  have hsign : (decimal ++ more).head?.any isSign = false := by simpa [htail] using hc
  rw [integer?_eq, List.append_assoc, skipSign_append hs hsign] at hread
  obtain ⟨after, rfl⟩ | ⟨digits, c, after, rfl, hd, hc⟩ := hdecimal.lead
  · cases hread
  · have hapart : isAsciiDigit c = false ∧ isHexMark c = false ∧ isLongMark c = false ∧
        (c = '.' ∨ isLetter c) := by
      obtain rfl | hc := hc
      · decide
      · obtain ⟨hdigit, -, hhex, hlong, hletter⟩ := scale_apart hc
        exact ⟨hdigit, hhex, hlong, .inr hletter⟩
    obtain ⟨hdigit, hhex, hlong, hletter⟩ := hapart
    rw [List.append_assoc, List.cons_append] at hread
    obtain hmagnitude | ⟨mark, run, behind, hm, hmore, -⟩ :=
      magnitude?_digits hd (c :: (after ++ more))
    · rw [dropWhile_of_head (by simpa using hdigit)] at hmagnitude
      rw [hmagnitude, Option.map_some, skipOne_of_not (by exact hlong), Option.some.injEq] at hread
      refine ⟨c, after ++ more, hread.symm, ?_, hletter⟩
      rw [List.length_append]
      exact Nat.le_add_left _ _
    · obtain ⟨rfl, -⟩ := List.cons.inj hmore
      cases hhex.symm.trans hm

end Decimals

section Scanning
variable {language : Text → Prop} {read? : Text → Option Text} {text : Text} {start stop : Nat}

/-- What comes of looking for a word of a language in a range: the longest that the range starts
with, unless a letter goes on behind it in the range. -/
inductive TakesLongest (language : Text → Prop) (text : Text) (start stop : Nat) :
    Except Halt (Option Found) → Prop
  | found {word} : Longest language (text.window start stop) word →
      (start + word.length < stop → text[start + word.length]?.any isLetter = false) →
      TakesLongest language text start stop (.ok (some ⟨.token, start, (start + word.length : Nat)⟩))
  | goesOn {word} : Longest language (text.window start stop) word → start + word.length < stop →
      text[start + word.length]?.any isLetter → TakesLongest language text start stop (.ok none)
  | none : (∀ word, word <+: text.window start stop → ¬ language word) →
      TakesLongest language text start stop (.ok none)

/-- What a scanner of numerals finds is the longest word of the language in its range. -/
theorem TakesLongest.longest {out : Except Halt (Option Found)} {found : Found}
    (h : TakesLongest language text start stop out) (hout : out = .ok (some found)) :
    ∃ word, Longest language (text.window start stop) word ∧
      found = ⟨.token, start, (start + word.length : Nat)⟩ := by
  cases h with
  | found hlongest _ =>
    cases hout
    exact ⟨_, hlongest, rfl⟩
  | goesOn => cases hout
  | none => cases hout

/-- What a scanner finds is what its reader takes of the range. -/
theorem found_of_scanner (h : Takes read? language) (hs : start ≤ stop) (ht : stop ≤ text.length)
    {found : Found} (hscan : scanner read? text start stop = .ok (some found)) :
    ∃ word rest, language word ∧ text.window start stop = word ++ rest ∧
      read? (word ++ rest) = some rest ∧ rest.head?.any isLetter = false ∧
      start + word.length + rest.length = stop ∧
      found = ⟨.token, start, (start + word.length : Nat)⟩ := by
  rw [scanner_window ht] at hscan
  split at hscan
  · cases hscan
  · rename_i rest hread
    split at hscan
    · cases hscan
    · rename_i hletter
      obtain ⟨word, hword, htext⟩ := h.sound hread
      obtain ⟨_, rfl, hstop, -, -⟩ := text.window_parts hs ht htext
      cases hscan
      rw [htext] at hread
      refine ⟨word, rest, hword, htext, hread, Bool.eq_false_iff.2 hletter, hstop, ?_⟩
      rw [htext, List.length_append, Nat.add_sub_cancel]

theorem scanner_takesLongest (h : Takes read? language) (hs : start ≤ stop)
    (ht : stop ≤ text.length) :
    TakesLongest language text start stop (scanner read? text start stop) := by
  rw [scanner_window ht]
  cases hread : read? (text.window start stop) with
  | none => exact .none (h.none hread)
  | some rest =>
    obtain ⟨word, hlongest, hword⟩ := h.longest hread
    obtain ⟨_, rfl, hstop, -, hrest⟩ := text.window_parts hs ht hword
    have hlength : (text.window start stop).length - rest.length = word.length := by
      rw [hword, List.length_append, Nat.add_sub_cancel]
    dsimp only
    rw [hlength]
    by_cases hletter : rest.head?.any isLetter
    · have hlt : start + word.length < stop := by
        cases rest with
        | nil => cases hletter
        | cons c rest =>
          rw [List.length_cons] at hstop
          omega
      rw [if_pos hletter]
      refine .goesOn hlongest hlt ?_
      rwa [← text.head?_window hlt, hrest]
    · rw [if_neg hletter]
      refine .found hlongest fun hlt => ?_
      rw [← text.head?_window hlt, hrest]
      exact Bool.eq_false_iff.2 hletter

end Scanning
end OrderedBnf.Numeral

namespace OrderedBnf.CurlyBrace
open Numeral

/-- The scanners for whole and for other numbers take the longest number that their range starts
with, and none where a letter goes on behind it. Where both take one, that of the second is longer
and goes on with the point at which the first ends. -/
theorem numbers_longest {text : Text} {start stop : Nat} (hs : start ≤ stop)
    (ht : stop ≤ text.length) :
    let whole := Scanner.byName literals "IntegerLiteral" text start stop
    let floating := Scanner.byName literals "FloatingPointLiteral" text start stop
    TakesLongest Integer text start stop whole ∧ TakesLongest Floating text start stop floating ∧
      ∀ found found', whole = .ok (some found) → floating = .ok (some found') →
        ∃ i j : Nat, found = ⟨.token, start, i⟩ ∧ found' = ⟨.token, start, j⟩ ∧ i < j ∧ j ≤ stop ∧
          text[i]? = some '.' := by
  refine ⟨scanner_takesLongest integer?_takes hs ht, scanner_takesLongest floating?_takes hs ht, ?_⟩
  intro found found' hi hf
  obtain ⟨word, rest, -, htext, hread, hletter, hstop, rfl⟩ :=
    found_of_scanner integer?_takes hs ht hi
  obtain ⟨word', rest', hword', htext', -, -, hstop', rfl⟩ :=
    found_of_scanner floating?_takes hs ht hf
  rw [← htext, htext'] at hread
  obtain ⟨c, after, rfl, hle, hc⟩ := integer?_of_floating hword' hread
  obtain rfl : c = '.' := hc.resolve_right (by simpa using hletter)
  rw [List.length_cons] at hstop
  refine ⟨start + word.length, start + word'.length, rfl, rfl, by omega, by omega, ?_⟩
  obtain ⟨_, rfl, -, -, hrest⟩ := text.window_parts hs ht htext
  rw [← text.head?_window (by omega : start + word.length < stop), hrest]
  rfl

def measured : Text := "=-12.5e3f,1e+".toList

/-- The digits up to the point are a whole number, and all up to the comma is a number. -/
theorem measured_longest : 1 ≤ 13 ∧ 13 ≤ measured.length ∧
    Scanner.byName literals "IntegerLiteral" measured 1 13 = .ok (some ⟨.token, 1, 4⟩) ∧
    Scanner.byName literals "FloatingPointLiteral" measured 1 13 = .ok (some ⟨.token, 1, 9⟩) ∧
    (∃ word, Longest Floating (measured.window 1 13) word ∧ word.length = 8) ∧
    measured[4]? = some '.' := by
  have hwhole : Scanner.byName literals "IntegerLiteral" measured 1 13 =
      .ok (some ⟨.token, 1, 4⟩) := rfl
  have hfloating : Scanner.byName literals "FloatingPointLiteral" measured 1 13 =
      .ok (some ⟨.token, 1, 9⟩) := rfl
  obtain ⟨-, htakes, hboth⟩ := @numbers_longest measured 1 13 (by decide) (by decide)
  refine ⟨by decide, by decide, hwhole, hfloating, ?_, ?_⟩
  · obtain ⟨word, hlongest, hfound⟩ := htakes.longest hfloating
    have hlength := congrArg Found.stop hfound
    exact ⟨word, hlongest, by dsimp only at hlength; omega⟩
  · obtain ⟨i, j, hi, -, -, -, hpoint⟩ := hboth _ _ hwhole hfloating
    have hplace := congrArg Found.stop hi
    obtain rfl : i = 4 := by dsimp only at hplace; omega
    exact hpoint

end OrderedBnf.CurlyBrace
