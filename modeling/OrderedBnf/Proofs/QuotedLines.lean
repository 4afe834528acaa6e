import Mathlib.Data.List.DropRight
import OrderedBnf.Proofs.Literals

/-! Quotations and line feeds. A quotation goes up to the first mark that no backslash escapes, and
a line feed on the way there is a fault, unless a backslash escapes the feed as well. -/
namespace OrderedBnf

namespace Text
variable {text rest : Text} {c d : Char} {i j k : Nat} {p : Char → Bool}

def slashes (text : Text) : Nat := (text.rtakeWhile (· = '\\')).length

/-- Whether the character at a place is escaped: it stands behind an odd number of backslashes. -/
def isEscapedAt (text : Text) (k : Nat) : Bool := slashes (text.take k) % 2 = 1

def Bare (text : Text) (c : Char) (k : Nat) : Prop := text[k]? = some c ∧ text.isEscapedAt k = false

def FirstBare (text : Text) (c : Char) (k : Nat) : Prop := text.Bare c k ∧ ∀ j < k, ¬ text.Bare c j

instance : Decidable (text.Bare c k) := inferInstanceAs (Decidable (_ ∧ _))

instance : Decidable (text.FirstBare c k) := inferInstanceAs (Decidable (_ ∧ _))

theorem slashes_le_length (text : Text) : text.slashes ≤ text.length :=
  (List.rtakeWhile_suffix ..).length_le

theorem slashes_cons (c : Char) (text : Text) : slashes (c :: text) =
    text.slashes + if c = '\\' ∧ text.slashes = text.length then 1 else 0 := by
  have hreverse : text.slashes = (text.reverse.takeWhile (· = '\\')).length := List.length_reverse
  rw [hreverse, slashes, List.rtakeWhile, List.length_reverse, List.reverse_cons,
    List.takeWhile_append, List.length_reverse]
  by_cases hall : (text.reverse.takeWhile (· = '\\')).length = text.length
  · by_cases hc : c = '\\' <;> simp [hall, hc]
  · simp [hall]

theorem isEscapedAt_zero (text : Text) : text.isEscapedAt 0 = false := by
  rw [isEscapedAt, List.take_zero]
  rfl

theorem isEscapedAt_cons (hc : c ≠ '\\') (rest : Text) (k : Nat) :
    isEscapedAt (c :: rest) (k + 1) = rest.isEscapedAt k := by
  rw [isEscapedAt, isEscapedAt, List.take_succ_cons, slashes_cons, if_neg (fun h => hc h.1)]
  rfl

theorem isEscapedAt_one (rest : Text) : isEscapedAt ('\\' :: rest) 1 = true := by
  rw [isEscapedAt, List.take_succ_cons, List.take_zero]
  rfl

/-- A backslash and what it escapes do not matter to what follows. -/
theorem isEscapedAt_escape (d : Char) (rest : Text) (k : Nat) :
    isEscapedAt ('\\' :: d :: rest) (k + 2) = rest.isEscapedAt k := by
  have hle := slashes_le_length (rest.take k)
  rw [isEscapedAt, isEscapedAt, List.take_succ_cons, List.take_succ_cons, slashes_cons,
    slashes_cons, List.length_cons]
  generalize slashes (rest.take k) = n at *
  generalize (rest.take k).length = m at *
  grind

theorem slash_of_isEscapedAt (h : text.isEscapedAt k) (hk : k < text.length) :
    ∃ j, k = j + 1 ∧ text[j]? = some '\\' := by
  cases k with
  | zero =>
    rw [isEscapedAt_zero] at h
    cases h
  | succ j =>
    have hj : j < text.length := Nat.lt_of_succ_lt hk
    refine ⟨j, rfl, ?_⟩
    rw [List.getElem?_eq_getElem hj]
    by_contra hne
    have hend : ¬ decide (text[j] = '\\') = true :=
      fun h => hne (congrArg some (of_decide_eq_true h))
    rw [isEscapedAt, List.take_succ_eq_append_getElem hj, slashes,
      List.rtakeWhile_concat, if_neg hend] at h
    cases h

theorem getElem?_window_eq_some {start stop : Nat} : (text.window start stop)[k]? = some c ↔
    start + k < stop ∧ text[start + k]? = some c := by
  rw [window, List.getElem?_take, List.getElem?_drop]
  by_cases hk : k < stop - start
  · rw [if_pos hk]
    exact (and_iff_right (by omega)).symm
  · rw [if_neg hk]
    constructor
    · intro h
      cases h
    · rintro ⟨hlt, -⟩
      omega

def FirstIn (p : Char → Bool) (text : Text) (c : Char) (k : Nat) : Prop :=
  (p c ∧ c ≠ '\\' ∧ text.Bare c k) ∧ ∀ j < k, ∀ d, p d → d ≠ '\\' → ¬ text.Bare d j

theorem bare_zero : Bare (d :: rest) c 0 ↔ c = d := by
  rw [Bare, isEscapedAt_zero, List.getElem?_cons_zero, Option.some.injEq]
  exact ⟨fun h => h.1.symm, fun h => ⟨h.symm, rfl⟩⟩

theorem bare_cons (hd : d ≠ '\\') : Bare (d :: rest) c (k + 1) ↔ rest.Bare c k := by
  rw [Bare, Bare, isEscapedAt_cons hd, List.getElem?_cons_succ]

theorem not_bare_one : ¬ Bare ('\\' :: rest) c 1 := by
  rw [Bare, isEscapedAt_one]
  rintro ⟨-, h⟩
  cases h

theorem bare_escape : Bare ('\\' :: d :: rest) c (k + 2) ↔ rest.Bare c k := by
  rw [Bare, Bare, isEscapedAt_escape, List.getElem?_cons_succ, List.getElem?_cons_succ]

theorem firstIn_escape :
    FirstIn p ('\\' :: d :: rest) c k ↔ ∃ j, k = j + 2 ∧ rest.FirstIn p c j := by
  constructor
  · rintro ⟨⟨hp, hc, hbare⟩, hfirst⟩
    match k with
    | 0 => exact absurd (bare_zero.1 hbare) hc
    | 1 => exact absurd hbare not_bare_one
    | j + 2 =>
      refine ⟨j, rfl, ⟨hp, hc, bare_escape.1 hbare⟩, fun m hm e he hs hbare => ?_⟩
      exact hfirst (m + 2) (Nat.add_lt_add_right hm 2) e he hs (bare_escape.2 hbare)
  · rintro ⟨j, rfl, ⟨hp, hc, hbare⟩, hfirst⟩
    refine ⟨⟨hp, hc, bare_escape.2 hbare⟩, fun m hm e he hs hbare => ?_⟩
    match m with
    | 0 => exact hs (bare_zero.1 hbare)
    | 1 => exact not_bare_one hbare
    | m + 2 => exact hfirst m (Nat.lt_of_add_lt_add_right hm) e he hs (bare_escape.1 hbare)

theorem firstIn_here (hd : d ≠ '\\') (hp : p d) :
    FirstIn p (d :: rest) c k ↔ k = 0 ∧ c = d := by
  constructor
  · rintro ⟨⟨-, -, hbare⟩, hfirst⟩
    cases k with
    | zero => exact ⟨rfl, bare_zero.1 hbare⟩
    | succ k => exact absurd (bare_zero.2 rfl) (hfirst 0 (Nat.succ_pos k) d hp hd)
  · rintro ⟨rfl, rfl⟩
    exact ⟨⟨hp, hd, bare_zero.2 rfl⟩, nofun⟩

theorem firstIn_later (hd : d ≠ '\\') (hp : ¬ p d) :
    FirstIn p (d :: rest) c k ↔ ∃ j, k = j + 1 ∧ rest.FirstIn p c j := by
  constructor
  · rintro ⟨⟨hc, hs, hbare⟩, hfirst⟩
    cases k with
    | zero => exact absurd (bare_zero.1 hbare ▸ hc) hp
    | succ j =>
      refine ⟨j, rfl, ⟨hc, hs, (bare_cons hd).1 hbare⟩, fun m hm e he hs hbare => ?_⟩
      exact hfirst (m + 1) (Nat.succ_lt_succ hm) e he hs ((bare_cons hd).2 hbare)
  · rintro ⟨j, rfl, ⟨hc, hs, hbare⟩, hfirst⟩
    refine ⟨⟨hc, hs, (bare_cons hd).2 hbare⟩, fun m hm e he hs hbare => ?_⟩
    cases m with
    | zero => exact hp (bare_zero.1 hbare ▸ he)
    | succ m => exact hfirst m (Nat.lt_of_succ_lt_succ hm) e he hs ((bare_cons hd).1 hbare)

/-- What a search finds is the first bare character that it looks for. -/
theorem unescaped_ok_iff : ∀ {text : Text} {i j : Nat},
    text.unescaped p i = .ok (j, c) ↔ ∃ k, j = i + k ∧ text.FirstIn p c k
  | [], i, j => by
    constructor
    · intro h
      cases h
    · rintro ⟨k, -, ⟨-, -, h, -⟩, -⟩
      cases h
  | d :: rest, i, j => by
    by_cases hd : d = '\\'
    · subst hd
      cases rest with
      | nil =>
        constructor
        · intro h
          cases h
        · rintro ⟨k, -, ⟨-, hc, hbare⟩, -⟩
          cases k with
          | zero => exact absurd (bare_zero.1 hbare) hc
          | succ k => cases hbare.1
      | cons d rest =>
        rw [unescaped_escape, unescaped_ok_iff]
        simp only [firstIn_escape]
        constructor
        · rintro ⟨k, rfl, h⟩
          exact ⟨k + 2, by omega, k, rfl, h⟩
        · rintro ⟨_, rfl, k, rfl, h⟩
          exact ⟨k, by omega, h⟩
    · rw [unescaped_cons hd]
      by_cases hp : p d
      · simp only [if_pos hp, firstIn_here hd hp, Except.ok.injEq, Prod.mk.injEq]
        constructor
        · rintro ⟨rfl, rfl⟩
          exact ⟨0, rfl, rfl, rfl⟩
        · rintro ⟨_, rfl, rfl, rfl⟩
          exact ⟨rfl, rfl⟩
      · rw [if_neg hp, @unescaped_ok_iff rest]
        simp only [firstIn_later hd hp]
        constructor
        · rintro ⟨k, rfl, h⟩
          exact ⟨k + 1, by omega, k, rfl, h⟩
        · rintro ⟨_, rfl, k, rfl, h⟩
          exact ⟨k, by omega, h⟩

end Text

namespace Quotation
variable {text : Text} {mark : Char} {start stop : Nat}

theorem scanner_marked (h : text[start]? = some mark) : scanner mark text start stop =
    match (text.window (start + 1) stop).unescaped (fun c => c = '\n' || c = mark) (start + 1) with
    | .ok (i, c) =>
      if c = '\n' then .error (.failure (.because .stringExceedsLine i []))
      else .ok (some ⟨.token, start, (i + 1 : Nat)⟩)
    | .error i => if i < stop then .error (.abort .beyondText) else .ok none := by
  obtain ⟨hlength, rfl⟩ := List.getElem?_eq_some_iff.1 h
  rw [scanner, List.drop_eq_getElem_cons hlength]
  exact if_neg (not_not.2 rfl)

theorem firstIn_ends {body : Text} {c : Char} {k : Nat} :
    body.FirstIn (fun c => c = '\n' || c = mark) c k ↔
      (c = '\n' ∨ c = mark) ∧ c ≠ '\\' ∧ body.Bare c k ∧
        ∀ j < k, ¬ body.Bare '\n' j ∧ (mark = '\\' ∨ ¬ body.Bare mark j) := by
  simp only [Text.FirstIn, Bool.or_eq_true, decide_eq_true_eq, and_assoc]
  refine and_congr_right fun _ => and_congr_right fun _ => and_congr_right fun _ =>
    forall₂_congr fun j _ => ?_
  constructor
  · intro h
    exact ⟨h '\n' (.inl rfl) (by decide), or_iff_not_imp_left.2 (h mark (.inr rfl))⟩
  · rintro ⟨hfeed, hmark⟩ d (rfl | rfl) hs
    · exact hfeed
    · exact hmark.resolve_left hs

theorem found_iff (h : text[start]? = some mark) {found : Found} :
    scanner mark text start stop = .ok (some found) ↔ ∃ k,
      (text.window (start + 1) stop).FirstIn (fun c => c = '\n' || c = mark) mark k ∧
        mark ≠ '\n' ∧ found = ⟨.token, start, (start + k + 2 : Nat)⟩ := by
  rw [scanner_marked h]
  constructor
  · intro hf
    split at hf
    · rename_i i c hu
      obtain ⟨k, rfl, hfirst⟩ := Text.unescaped_ok_iff.1 hu
      split at hf
      · cases hf
      · rename_i hc
        obtain rfl : c = mark := (firstIn_ends.1 hfirst).1.resolve_left hc
        cases hf
        exact ⟨k, hfirst, hc, by congr 2; omega⟩
    · split at hf <;> cases hf
  · rintro ⟨k, hfirst, hfeed, rfl⟩
    rw [Text.unescaped_ok_iff.2 ⟨k, rfl, hfirst⟩]
    dsimp only
    rw [if_neg hfeed]
    congr 4
    omega

theorem failed_iff (h : text[start]? = some mark) {failure : Failure} :
    scanner mark text start stop = .error (.failure failure) ↔ ∃ k,
      (text.window (start + 1) stop).FirstIn (fun c => c = '\n' || c = mark) '\n' k ∧
        failure = .because .stringExceedsLine (start + 1 + k : Nat) [] := by
  rw [scanner_marked h]
  constructor
  · intro hf
    split at hf
    · rename_i i c hu
      obtain ⟨k, rfl, hfirst⟩ := Text.unescaped_ok_iff.1 hu
      split at hf
      · rename_i hc
        subst hc
        cases hf
        exact ⟨k, hfirst, rfl⟩
      · cases hf
    · split at hf <;> cases hf
  · rintro ⟨k, hfirst, rfl⟩
    rw [Text.unescaped_ok_iff.2 ⟨k, rfl, hfirst⟩]
    rfl

theorem slash_before_feed (h : text[start]? = some mark) {x : Nat}
    (hx : scanner mark text start stop = .ok (some ⟨.token, start, x⟩))
    (hmem : '\n' ∈ text.window start x) :
    ∃ j, start < j ∧ j + 2 < x ∧ text[j]? = some '\\' ∧ text[j + 1]? = some '\n' := by
  obtain ⟨k, hfirst, hmark, hfound⟩ := (found_iff h).1 hx
  obtain rfl : x = start + k + 2 := Int.ofNat_inj.1 (congrArg Found.stop hfound)
  obtain ⟨-, -, hclose, hbefore⟩ := firstIn_ends.1 hfirst
  obtain ⟨hk, hclose⟩ := Text.getElem?_window_eq_some.1 hclose.1
  obtain ⟨m, hm⟩ := List.mem_iff_getElem?.1 hmem
  obtain ⟨hm, hfeed⟩ := Text.getElem?_window_eq_some.1 hm
  -- neither the first nor the last character of the range is a feed, since both are the mark
  obtain rfl | ⟨i, rfl⟩ : m = 0 ∨ ∃ i, m = i + 1 := by cases m <;> simp
  · exact absurd (Option.some.inj (h.symm.trans hfeed)) hmark
  rw [Nat.add_comm i, ← Nat.add_assoc] at hfeed
  obtain rfl | hi : i = k ∨ i < k := by omega
  · exact absurd (Option.some.inj (hclose.symm.trans hfeed)) hmark
  have hbody : (text.window (start + 1) stop)[i]? = some '\n' :=
    Text.getElem?_window_eq_some.2 ⟨by omega, hfeed⟩
  have hescaped : (text.window (start + 1) stop).isEscapedAt i :=
    Bool.of_not_eq_false fun hbare => (hbefore i hi).1 ⟨hbody, hbare⟩
  obtain ⟨j, rfl, hslash⟩ :=
    Text.slash_of_isEscapedAt hescaped (List.getElem?_eq_some_iff.1 hbody).1
  exact ⟨start + 1 + j, by omega, by omega, (Text.getElem?_window_eq_some.1 hslash).2, hfeed⟩

/-- A quotation is found up to the first bare mark behind the one that opens it, where no bare line
feed comes before; a bare line feed that comes before is where the scanner fails. What is found
holds a line feed only right behind a backslash. -/
theorem scanner_lines (h : text[start]? = some mark) :
    let body := text.window (start + 1) stop
    (∀ found, scanner mark text start stop = .ok (some found) ↔ ∃ k, body.FirstBare mark k ∧
      (∀ j < k, ¬ body.Bare '\n' j) ∧ mark ≠ '\n' ∧ mark ≠ '\\' ∧
        found = ⟨.token, start, (start + k + 2 : Nat)⟩) ∧
    (∀ failure, scanner mark text start stop = .error (.failure failure) ↔ ∃ k,
      body.FirstBare '\n' k ∧ (mark = '\\' ∨ ∀ j < k, ¬ body.Bare mark j) ∧
        failure = .because .stringExceedsLine (start + 1 + k : Nat) []) ∧
    ∀ x : Nat, scanner mark text start stop = .ok (some ⟨.token, start, x⟩) →
      '\n' ∈ text.window start x → ∃ j, start < j ∧ j + 2 < x ∧ text[j]? = some '\\' ∧
        text[j + 1]? = some '\n' := by
  intro body
  refine ⟨fun found => ?_, fun failure => ?_, fun x => slash_before_feed h⟩
  · rw [found_iff h]
    refine exists_congr fun k => ?_
    rw [firstIn_ends]
    constructor
    · rintro ⟨⟨-, hs, hbare, hbefore⟩, hmark, rfl⟩
      exact ⟨⟨hbare, fun j hj => (hbefore j hj).2.resolve_left hs⟩, fun j hj => (hbefore j hj).1,
        hmark, hs, rfl⟩
    · rintro ⟨⟨hbare, hfirst⟩, hnone, hmark, hs, rfl⟩
      exact ⟨⟨.inr rfl, hs, hbare, fun j hj => ⟨hnone j hj, .inr (hfirst j hj)⟩⟩, hmark, rfl⟩
  · rw [failed_iff h]
    refine exists_congr fun k => ?_
    rw [firstIn_ends]
    constructor
    · rintro ⟨⟨-, -, hbare, hbefore⟩, rfl⟩
      refine ⟨⟨hbare, fun j hj => (hbefore j hj).1⟩, ?_, rfl⟩
      exact or_iff_not_imp_left.2 fun hs j hj => (hbefore j hj).2.resolve_left hs
    · rintro ⟨⟨hbare, hfirst⟩, hnone, rfl⟩
      refine ⟨⟨.inl rfl, by decide, hbare, fun j hj => ⟨hfirst j hj, ?_⟩⟩, rfl⟩
      exact hnone.imp_right fun hnone => hnone j hj

def quotations : Text := "\"a\\\"\\\nb\" \"c\nd\"".toList

theorem quotations_lines : quotations[0]? = some '"' ∧ quotations[9]? = some '"' ∧
    scanner '"' quotations 0 14 = .ok (some ⟨.token, 0, 8⟩) ∧
    scanner '"' quotations 9 14 = .error (.failure (.because .stringExceedsLine 11 [])) := by
  have hopening : quotations[0]? = some '"' := rfl
  have hopening' : quotations[9]? = some '"' := rfl
  obtain ⟨hfound, -, -⟩ := @scanner_lines quotations '"' 0 14 hopening
  obtain ⟨-, hfailed, -⟩ := @scanner_lines quotations '"' 9 14 hopening'
  refine ⟨hopening, hopening', (hfound _).2 ⟨6, ?_⟩, (hfailed _).2 ⟨1, ?_⟩⟩
  · exact ⟨by decide, by decide, by decide, by decide, rfl⟩
  · exact ⟨by decide, .inr (by decide), rfl⟩

/-- A quotation on two lines: the line feed within it is escaped. -/
theorem feed_in_quotation :
    let text : Text := "\"a\\\nb\"".toList
    text[0]? = some '"' ∧ text[3]? = some '\n' ∧ (text.window 1 6).FirstBare '"' 4 ∧
      scanner '"' text 0 6 = .ok (some ⟨.token, 0, 6⟩) ∧ '\n' ∈ text.window 0 6 := by
  intro text
  exact ⟨rfl, rfl, by decide, rfl, by decide⟩

end Quotation
end OrderedBnf
