import OrderedBnf.Lexical.CurlyBrace
import OrderedBnf.Proofs.Coverage
import OrderedBnf.Proofs.Gaps

/-! The words that the scanners of the curly-brace languages find, and what such a word depends on
besides its own characters: no more than how the text goes on. -/
namespace OrderedBnf

namespace Numeral
variable {p : Char → Bool} {text rest : Text}

theorem one?_eq_some : one? p text = some rest ↔ ∃ c, p c ∧ text = c :: rest := by
  cases text with
  | nil => simp [one?]
  | cons c text => grind [one?]

theorem one?_eq_none : one? p text = none ↔ text.head?.any p = false := by
  cases text with
  | nil => simp [one?]
  | cons c text => grind [one?]

/-- A run goes on for as long as it can. -/
theorem some?_eq_some : some? p text = some rest ↔
    ∃ run, run ≠ [] ∧ (∀ c ∈ run, p c) ∧ text = run ++ rest ∧ rest.head?.any p = false := by
  rw [some?, Option.map_eq_some_iff]
  constructor
  · rintro ⟨more, hmore, rfl⟩
    obtain ⟨c, hc, rfl⟩ := one?_eq_some.1 hmore
    refine ⟨c :: more.takeWhile p, List.cons_ne_nil _ _, ?_, ?_, ?_⟩
    · intro d hd
      rcases List.mem_cons.1 hd with rfl | hd
      · exact hc
      · exact List.all_eq_true.1 List.all_takeWhile d hd
    · rw [List.cons_append, List.takeWhile_append_dropWhile]
    · have := List.head?_dropWhile_not p more
      cases h : (more.dropWhile p).head? <;> simp_all
  · rintro ⟨run, hne, hrun, rfl, hrest⟩
    obtain ⟨c, run, rfl⟩ := List.exists_cons_of_ne_nil hne
    refine ⟨run ++ rest, one?_eq_some.2 ⟨c, hrun c List.mem_cons_self, rfl⟩, ?_⟩
    rw [List.dropWhile_append_of_pos fun d hd => hrun d (List.mem_cons_of_mem _ hd)]
    cases rest with
    | nil => rfl
    | cons d rest => exact List.dropWhile_cons_of_neg (by simpa using hrest)

theorem skipOne_of_not (h : text.head?.any p = false) : skipOne p text = text := by
  cases text with
  | nil => rfl
  | cons c text => exact if_neg (by simpa using h)

/-- What is skipped is a word of its own: at most one character. -/
theorem skipOne_cases (p : Char → Bool) (text : Text) :
    (∃ c, p c ∧ text = c :: skipOne p text) ∨ text.head?.any p = false ∧ skipOne p text = text := by
  cases text with
  | nil => exact .inr ⟨rfl, rfl⟩
  | cons c text => by_cases hc : p c <;> simp [skipOne, hc]

/-- A run in `p` is the same before a text that goes on alike. -/
theorem some?_joins (hspace : p ' ' = false) (hbrace : p '{' = false)
    (h : some? p text = some rest) : ∃ run, run ≠ [] ∧ (∀ c ∈ run, p c) ∧ text = run ++ rest ∧
      ∀ rest', Comment.Joins rest rest' → some? p (run ++ rest') = some rest' := by
  obtain ⟨run, hne, hrun, htext, hrest⟩ := some?_eq_some.1 h
  refine ⟨run, hne, hrun, htext, fun rest' hj => ?_⟩
  exact some?_eq_some.2 ⟨run, hne, hrun, rfl, hj.any hrest hspace hbrace⟩

theorem skipOne_joins (hspace : p ' ' = false) (hbrace : p '{' = false) (text : Text) :
    ∃ lead, text = lead ++ skipOne p text ∧ ∀ rest', Comment.Joins (skipOne p text) rest' →
      skipOne p (lead ++ rest') = rest' ∧ Comment.Joins text (lead ++ rest') := by
  rcases skipOne_cases p text with ⟨c, hc, htext⟩ | ⟨hnot, htext⟩
  · refine ⟨[c], htext, fun rest' _ => ⟨if_pos hc, ?_⟩⟩
    rw [htext]
    exact Comment.joins_append (List.cons_ne_nil c []) _ _
  · rw [htext]
    exact ⟨[], rfl, fun rest' hj => ⟨skipOne_of_not (hj.any hnot hspace hbrace), hj⟩⟩

def magnitude? (text : Text) : Option Text :=
  ((one? (· = '0') text).bind fun rest =>
    (one? (fun c => c = 'x' || c = 'X') rest).bind (some? isHexDigit)).or (digits? text)

theorem integer?_eq (text : Text) :
    integer? text = (magnitude? (skipSign text)).map (skipOne fun c => c = 'l' || c = 'L') := rfl

theorem magnitude?_joins (h : magnitude? text = some rest)
    (hrest : rest.head?.any (fun c => c = 'x' || c = 'X') = false) : ∃ run, run ≠ [] ∧
      text = run ++ rest ∧
      ∀ rest', Comment.Joins rest rest' → magnitude? (run ++ rest') = some rest' := by
  rw [magnitude?, Option.or_eq_some_iff] at h
  rcases h with h | ⟨hnot, h⟩
  · obtain ⟨after, hzero, h⟩ := Option.bind_eq_some_iff.1 h
    obtain ⟨more, hx, h⟩ := Option.bind_eq_some_iff.1 h
    obtain ⟨run, -, -, rfl, hrun⟩ := some?_joins (by decide) (by decide) h
    obtain ⟨zero, hz, rfl⟩ := one?_eq_some.1 hzero
    obtain ⟨x, hmark, rfl⟩ := one?_eq_some.1 hx
    refine ⟨zero :: x :: run, List.cons_ne_nil _ _, rfl, fun rest' hj => ?_⟩
    have hfirst : one? (· = '0') (zero :: x :: run ++ rest') = some (x :: run ++ rest') :=
      one?_eq_some.2 ⟨zero, hz, rfl⟩
    have hsecond : one? (fun c => c = 'x' || c = 'X') (x :: run ++ rest') = some (run ++ rest') :=
      one?_eq_some.2 ⟨x, hmark, rfl⟩
    rw [magnitude?, hfirst, Option.bind_some, hsecond, Option.bind_some, hrun rest' hj]
    rfl
  · obtain ⟨run, hne, hdigits, rfl, hrun⟩ := some?_joins (by decide) (by decide) h
    refine ⟨run, hne, rfl, fun rest' hj => ?_⟩
    rw [magnitude?, digits?, hrun rest' hj, Option.or_eq_some_iff]
    refine .inr ⟨?_, rfl⟩
    -- No hexadecimal mark comes after the first digit.
    have hx := hj.any hrest (by decide) (by decide)
    obtain ⟨d, run, rfl⟩ := List.exists_cons_of_ne_nil hne
    rw [Option.bind_eq_none_iff]
    intro after hzero
    obtain ⟨_, -, he⟩ := one?_eq_some.1 hzero
    cases he
    rw [one?_eq_none.2]
    · rfl
    · cases run with
      | nil => exact hx
      | cons e run =>
        have he := hdigits e (by simp)
        change (decide (e = 'x') || decide (e = 'X')) = false
        rw [Bool.or_eq_false_iff, decide_eq_false_iff_not, decide_eq_false_iff_not]
        constructor <;> rintro rfl <;> exact absurd he (by decide)

/-- A whole number is the same word before any text that goes on alike. -/
theorem integer?_joins (h : integer? text = some rest) (hrest : rest.head?.any isLetter = false) :
    ∃ word, word ≠ [] ∧ text = word ++ rest ∧
      ∀ rest', Comment.Joins rest rest' → integer? (word ++ rest') = some rest' := by
  rw [integer?_eq, Option.map_eq_some_iff] at h
  obtain ⟨marked, hm, rfl⟩ := h
  obtain ⟨sign, hsign, hs⟩ := skipOne_joins (p := fun c => c = '+' || c = '-') rfl rfl text
  obtain ⟨mark, hmark, hk⟩ := skipOne_joins (p := fun c => c = 'l' || c = 'L') rfl rfl marked
  have hx : marked.head?.any (fun c => c = 'x' || c = 'X') = false := by
    cases marked with
    | nil => rfl
    | cons c marked =>
      simp only [List.head?_cons, Option.any_some, Bool.or_eq_false_iff, decide_eq_false_iff_not]
      constructor
      · rintro rfl
        exact absurd (show isLetter 'x' = false from hrest) (by decide)
      · rintro rfl
        exact absurd (show isLetter 'X' = false from hrest) (by decide)
  obtain ⟨run, hne, hrun, hr⟩ := magnitude?_joins hm hx
  refine ⟨sign ++ run ++ mark, by simp [hne], ?_, fun rest' hj => ?_⟩
  · calc text = sign ++ (run ++ marked) := by rw [← hrun]; exact hsign
      _ = sign ++ run ++ mark ++ _ := by rw [List.append_assoc, List.append_assoc, ← hmark]
  · obtain ⟨hlong, hj⟩ := hk rest' hj
    have hbody : Comment.Joins (skipSign text) (run ++ (mark ++ rest')) :=
      hrun ▸ Comment.joins_append hne _ _
    rw [integer?_eq, List.append_assoc, List.append_assoc]
    change Option.map _ (magnitude? (skipOne _ _)) = _
    rw [(hs _ hbody).1, hr _ hj, Option.map_some, hlong]

end Numeral

namespace Text
variable {p : Char → Bool} {i : Nat} {c : Char} {rest : Text}

theorem unescaped_escape : unescaped p i ('\\' :: c :: rest) = unescaped p (i + 2) rest := rfl

theorem unescaped_cons (h : c ≠ '\\') : unescaped p i (c :: rest) =
    if p c then .ok (i, c) else unescaped p (i + 1) rest := by
  conv => lhs; unfold unescaped
  split <;> simp_all

/-- The character that is looked for is found in the same place before any text. -/
theorem unescaped_append {j : Nat} {text : Text} (h : text.unescaped p i = .ok (j, c)) :
    ∃ body rest, text = body ++ c :: rest ∧ j = i + body.length ∧
      ∀ rest' i', (body ++ c :: rest').unescaped p i' = .ok (i' + body.length, c) := by
  fun_induction unescaped p i text with
  | case1 => cases h
  | case2 => cases h
  | case3 i d rest ih =>
    obtain ⟨body, after, rfl, rfl, hbody⟩ := ih h
    refine ⟨'\\' :: d :: body, after, rfl, by simp only [List.length_cons]; omega,
      fun rest' i' => ?_⟩
    rw [List.cons_append, List.cons_append, unescaped_escape, hbody, List.length_cons,
      List.length_cons]
    congr 2
    omega
  | case4 i d rest hone hmore hp =>
    cases h
    refine ⟨[], rest, rfl, rfl, fun rest' i' => ?_⟩
    have hslash : c ≠ '\\' := by
      rintro rfl
      cases rest with
      | nil => exact hone rfl rfl
      | cons d rest => exact hmore _ _ rfl rfl
    rw [List.nil_append, unescaped_cons hslash, if_pos hp]
    rfl
  | case5 i d rest hone hmore hp ih =>
    obtain ⟨body, after, rfl, rfl, hbody⟩ := ih h
    have hslash : d ≠ '\\' := by
      rintro rfl
      cases body with
      | nil => exact hmore _ _ rfl rfl
      | cons e body => exact hmore _ _ rfl rfl
    refine ⟨d :: body, after, rfl, by simp only [List.length_cons]; omega, fun rest' i' => ?_⟩
    rw [List.cons_append, unescaped_cons hslash, if_neg hp, hbody, List.length_cons]
    congr 2
    omega

theorem window_length (text : Text) (start : Nat) :
    text.window start text.length = text.drop start := by
  rw [window, ← List.length_drop, List.take_length]

end Text

/-- A scanner that finds nothing but words, each of them wherever it stands in a text that goes on
alike. -/
def Scanner.Stable (scan : Scanner) : Prop :=
  ∀ ⦃text start found⦄, start < text.length → scan text start text.length = .ok (some found) →
    ∃ word rest, text.drop start = word ++ rest ∧ word ≠ [] ∧
      found = ⟨.token, start, (start + word.length : Nat)⟩ ∧
        ∀ ⦃text' start' rest'⦄, Comment.Joins rest rest' → text'.drop start' = word ++ rest' →
          scan text' start' text'.length = .ok (some ⟨.token, start', (start' + word.length : Nat)⟩)

/-- The scanner of numerals reads the characters of its range, and no others. -/
theorem Numeral.scanner_window {read? : Text → Option Text} {text : Text} {start stop : Nat}
    (ht : stop ≤ text.length) : Numeral.scanner read? text start stop =
      match read? (text.window start stop) with
      | none => .ok none
      | some rest =>
        if rest.head?.any isLetter then .ok none
        else .ok (some ⟨.token, start,
          (start + ((text.window start stop).length - rest.length) : Nat)⟩) := by
  rw [Numeral.scanner]
  cases read? (text.window start stop) with
  | none => rfl
  | some rest =>
    dsimp only
    rw [Text.lacks_eq_false ht, if_neg Bool.false_ne_true]

theorem Numeral.scanner_eq (read? : Text → Option Text) (text : Text) (start : Nat) :
    Numeral.scanner read? text start text.length = match read? (text.drop start) with
      | none => .ok none
      | some rest =>
        if rest.head?.any isLetter then .ok none
        else .ok (some ⟨.token, start,
          (start + ((text.drop start).length - rest.length) : Nat)⟩) := by
  rw [Numeral.scanner_window (Nat.le_refl _), Text.window_length]

/-- A number is read wherever it stands in a text that goes on alike. -/
theorem Numeral.scanner_stable : (Numeral.scanner Numeral.integer?).Stable := by
  intro text start found hlt h
  rw [Numeral.scanner_eq] at h
  split at h
  · cases h
  · rename_i rest hread
    split at h
    · cases h
    · rename_i hletter
      replace hletter : rest.head?.any isLetter = false := by simpa using hletter
      obtain ⟨word, hne, htext, hword⟩ := integer?_joins hread hletter
      cases h
      refine ⟨word, rest, htext, hne, ?_, fun text' start' rest' hj htext' => ?_⟩
      · rw [htext, List.length_append, Nat.add_sub_cancel]
      · have hletter' := hj.any hletter (by decide) (by decide)
        rw [Numeral.scanner_eq, htext', hword rest' hj]
        dsimp only
        rw [if_neg (by rw [hletter']; exact Bool.false_ne_true), List.length_append,
          Nat.add_sub_cancel]

/-- The scanner of quotations reads the characters of its range, and no others. -/
theorem Quotation.scanner_window {mark c : Char} {text rest : Text} {start stop : Nat}
    (h : text.window start stop = c :: rest) : Quotation.scanner mark text start stop =
      if c ≠ mark then .ok none
      else match rest.unescaped (fun c => c = '\n' || c = mark) (start + 1) with
        | .ok (i, c) =>
          if c = '\n' then .error (.failure (.because .stringExceedsLine i []))
          else .ok (some ⟨.token, start, (i + 1 : Nat)⟩)
        | .error i => if i < stop then .error (.abort .beyondText) else .ok none := by
  cases hdrop : text.drop start with
  | nil =>
    rw [Text.window, hdrop, List.take_nil] at h
    cases h
  | cons d after =>
    have hafter : text.drop (start + 1) = after := by rw [← List.drop_drop, hdrop]; rfl
    have hlt : 0 < stop - start := Nat.pos_of_ne_zero fun hzero => by
      rw [Text.window, hzero, List.take_zero] at h
      cases h
    obtain ⟨n, hn⟩ := Nat.exists_eq_add_one.2 hlt
    rw [Text.window, hdrop, hn, List.take_succ_cons] at h
    obtain ⟨rfl, hrest⟩ := List.cons.inj h
    have hwindow : text.window (start + 1) stop = rest := by
      rw [Text.window, hafter, show stop - (start + 1) = n by omega, hrest]
    simp only [Quotation.scanner, hdrop]
    subst hwindow
    rfl

theorem Quotation.scanner_eq {mark c : Char} {text rest : Text} {start : Nat}
    (h : text.drop start = c :: rest) : Quotation.scanner mark text start text.length =
      if c ≠ mark then .ok none
      else match rest.unescaped (fun c => c = '\n' || c = mark) (start + 1) with
        | .ok (i, c) =>
          if c = '\n' then .error (.failure (.because .stringExceedsLine i []))
          else .ok (some ⟨.token, start, (i + 1 : Nat)⟩)
        | .error i => if i < text.length then .error (.abort .beyondText) else .ok none :=
  Quotation.scanner_window ((text.window_length start).trans h)

/-- A quotation is read wherever it stands in a text that goes on alike. -/
theorem Quotation.scanner_stable (mark : Char) : (Quotation.scanner mark).Stable := by
  intro text start found hlt h
  obtain ⟨c, rest, hdrop⟩ := List.exists_cons_of_ne_nil (by simpa using hlt : text.drop start ≠ [])
  rw [Quotation.scanner_eq hdrop] at h
  split at h
  · cases h
  · rename_i hc
    split at h
    · rename_i i close hi
      split at h
      · cases h
      · rename_i hclose
        obtain ⟨body, after, rfl, rfl, hbody⟩ := Text.unescaped_append hi
        cases h
        refine ⟨c :: (body ++ [close]), after, by rw [hdrop]; simp, List.cons_ne_nil _ _, ?_, ?_⟩
        · simp only [List.length_cons, List.length_append, List.length_nil]
          congr 2
          omega
        · intro text' start' rest' _ hdrop'
          have hword : text'.drop start' = c :: (body ++ close :: rest') := by rw [hdrop']; simp
          rw [Quotation.scanner_eq hword, if_neg hc, hbody]
          dsimp only
          rw [if_neg hclose]
          simp only [List.length_cons, List.length_append, List.length_nil]
          congr 4
          omega
    · split at h <;> cases h

def Scanner.Advances (scan : Scanner) : Prop :=
  ∀ ⦃text start found⦄, start < text.length → scan text start text.length = .ok (some found) →
    found.start = start ∧ start < found.stop ∧ found.stop ≤ text.length

/-- A stable scanner finds a match that starts where it looks, and is not empty. -/
theorem Scanner.Stable.advances {scan : Scanner} (h : scan.Stable) : scan.Advances := by
  intro text start found hlt hf
  obtain ⟨word, rest, hdrop, hne, rfl, -⟩ := h hlt hf
  have hlength := congrArg List.length hdrop
  have hpos := List.length_pos_iff.2 hne
  rw [List.length_drop, List.length_append] at hlength
  refine ⟨rfl, ?_, ?_⟩ <;> dsimp only <;> omega

namespace Numeral
variable {text rest : Text} {p : Char → Bool}

theorem one?_shorter (h : one? p text = some rest) : rest.length < text.length := by
  obtain ⟨c, -, rfl⟩ := one?_eq_some.1 h
  exact Nat.lt_succ_self _

theorem some?_shorter (h : some? p text = some rest) : rest.length < text.length := by
  obtain ⟨run, hne, -, rfl, -⟩ := some?_eq_some.1 h
  have := List.length_pos_iff.2 hne
  rw [List.length_append]
  omega

theorem skipOne_length_le (p : Char → Bool) (text : Text) :
    (skipOne p text).length ≤ text.length := by
  rcases skipOne_cases p text with ⟨c, -, h⟩ | ⟨-, h⟩
  · rw [congrArg List.length h]
    exact Nat.le_succ _
  · exact Nat.le_of_eq (congrArg List.length h)

theorem exponent?_shorter (h : exponent? text = some rest) : rest.length < text.length := by
  obtain ⟨after, hafter, h⟩ := Option.bind_eq_some_iff.1 h
  have := one?_shorter hafter
  have := some?_shorter h
  have := skipOne_length_le (fun c => c = '+' || c = '-') after
  unfold skipSign at *
  omega

theorem pointed?_shorter (h : pointed? text = some rest) : rest.length < text.length := by
  unfold pointed? at h
  split at h
  · rename_i after hafter
    exact Nat.lt_trans (some?_shorter h) (one?_shorter hafter)
  · obtain ⟨after, hafter, rfl⟩ := Option.map_eq_some_iff.1 h
    obtain ⟨digits, hdigits, hpoint⟩ := Option.bind_eq_some_iff.1 hafter
    have := some?_shorter hdigits
    have := one?_shorter hpoint
    have := (List.dropWhile_sublist (p := isAsciiDigit) (l := after)).length_le
    omega

theorem floating?_shorter (h : floating? text = some rest) : rest.length < text.length := by
  have hsign := skipOne_length_le (fun c => c = '+' || c = '-') text
  unfold floating? at h
  dsimp only at h
  split at h
  · rename_i after hafter
    cases h
    have := pointed?_shorter hafter
    have := skipOne_length_le isFloatSuffix ((exponent? after).getD after)
    have hexp : ((exponent? after).getD after).length ≤ after.length := by
      cases he : exponent? after with
      | none => exact Nat.le_refl _
      | some more => exact Nat.le_of_lt (exponent?_shorter he)
    unfold skipSign at *
    omega
  · obtain ⟨after, hafter, h⟩ := Option.bind_eq_some_iff.1 h
    have := some?_shorter hafter
    split at h
    · rename_i more hmore
      cases h
      have := exponent?_shorter hmore
      have := skipOne_length_le isFloatSuffix more
      unfold skipSign at *
      omega
    · have := one?_shorter h
      unfold skipSign at *
      omega

theorem scanner_advances {read? : Text → Option Text}
    (hread : ∀ text rest, read? text = some rest → rest.length < text.length) :
    (scanner read?).Advances := by
  intro text start found hlt h
  rw [scanner_eq] at h
  split at h
  · cases h
  · rename_i rest hrest
    have hshorter := hread _ _ hrest
    split at h
    · cases h
    · cases h
      rw [List.length_drop] at *
      refine ⟨rfl, ?_, ?_⟩ <;> dsimp only <;> omega

end Numeral

namespace CurlyBrace

theorem literal_advances {name : String} {scan : Scanner} (h : literals.lookup name = some scan) :
    scan.Advances := by
  simp only [literals, List.lookup_cons, List.lookup_nil] at h
  split at h
  · cases h
    exact (Quotation.scanner_stable _).advances
  · split at h
    · cases h
      exact (Quotation.scanner_stable _).advances
    · split at h
      · cases h
        exact Numeral.scanner_stable.advances
      · split at h
        · cases h
          exact Numeral.scanner_advances fun _ _ => Numeral.floating?_shorter
        · cases h

/-- The hooks of the curly-brace languages keep to the text. -/
theorem advances (grammar : Grammar) (text : Text) :
    (language grammar).lexis.Advances text text.length where
  skip {start i} hs h := by
    change Comment.skip text start text.length = _ at h
    rw [Comment.skip, Text.window_length] at h
    have hlength : start + (text.drop start).length = text.length := by
      rw [List.length_drop]
      omega
    rcases Comment.skipFrom_ok h hlength with rfl | ⟨gap, rest, hdrop, -, -, rfl⟩
    · exact ⟨hs, Nat.le_refl _⟩
    · rw [hdrop, List.length_append] at hlength
      omega
  extend {rule start found} hlt h := by
    change (literals.lookup rule.target).getD Scanner.never text start text.length = _ at h
    cases hscan : literals.lookup rule.target with
    | none =>
      rw [hscan] at h
      cases h
    | some scan =>
      rw [hscan] at h
      exact literal_advances hscan hlt h

end CurlyBrace
end OrderedBnf
