import OrderedBnf.Proofs.Completeness
import OrderedBnf.Proofs.Excerpts

/-! A leaf of an expression that compiles may be written as another: what stands around it compiles
as before. The search for a cut goes over an operand without a trace, whatever that holds. -/
namespace OrderedBnf
variable {text : Text} {s : Stretch} {rule : Rule} {cut : Cut}

/-- A text that is not cut, and that no blank ends, is passed over in any brackets. -/
theorem cutFrom_uncut {first i depth : Nat} {quote : Option Char} {chars : Text}
    (h : cutFrom first i depth quote none chars = .ok none)
    (hl : ∀ rest c, chars = rest ++ [c] → isBlank c = false) (first' i' more : Nat)
    (blank' : Option Nat) (rest' : Text) :
    cutFrom first' i' (more + depth) quote blank' (chars ++ rest') =
      cutFrom first' (i' + chars.length) more none blank' rest' := by
  generalize hn : none = blank at h
  have htail {c : Char} {rest : Text} (hl : ∀ tail d, c :: rest = tail ++ [d] → isBlank d = false) :
      ∀ tail d, rest = tail ++ [d] → isBlank d = false :=
    fun tail d he => hl (c :: tail) d (by rw [he]; rfl)
  fun_induction cutFrom first i depth quote blank chars generalizing i' blank' with
  | case3 => simp_all
  | case13 => exact absurd h cutFrom_some_ne_none
  | case14 i blank c rest hq ho hc hbar hs ih =>
    have hs' : (isBlank c && blank'.isNone && separates (rest ++ rest')) = false := by
      by_cases hb : isBlank c
      · have hex : ∃ d ∈ rest, isBlank d = false := by
          rcases List.eq_nil_or_concat' rest with rfl | ⟨tail, d, rfl⟩
          · have := hl [] c rfl
            rw [hb] at this
            cases this
          · exact ⟨d, by simp, htail hl tail d rfl⟩
        rw [separates_append_of_exists hex]
        subst hn
        simp_all
      · simp [hb]
    have hi := ih (htail hl) (i' + 1) blank' hn h
    rw [Nat.add_assoc, Nat.add_comm 1] at hi
    rw [List.cons_append, List.length_cons, ← hi, cutFrom.eq_def]
    simp only [hq, ho, hc, hbar, hs']
    simp
  | case5 =>
    rename_i ih
    have hi := ih (htail (htail hl)) (i' + 2) blank' hn h
    rw [Nat.add_assoc, Nat.add_comm 2] at hi
    rw [List.cons_append, List.length_cons, List.length_cons, ← hi, cutFrom.eq_def]
    simp_all
  | case6 | case7 | case8 | case10 | case15 =>
    rename_i ih
    have hi := ih (htail hl) (i' + 1) blank' hn h
    rw [Nat.add_assoc, Nat.add_comm 1] at hi
    rw [List.cons_append, List.length_cons, ← hi, cutFrom.eq_def]
    clear ih hi
    simp_all <;> grind
  | _ => cases h

theorem Stretch.after_trim_stop (ht : Tight s.chars) (hc : s.cut? = .ok (some cut)) :
    (s.after cut).trim.stop = s.stop := by
  obtain ⟨before, after, -, ha, hs, hstart⟩ := (s.after cut).trim_parts
  have hchars : s.chars = s.chars.take (cut.offset + 1) ++ before ++ (s.after cut).trim.chars ++
      after := by
    rw [List.append_assoc, List.append_assoc, ← List.append_assoc before, ← hs]
    exact (List.take_append_drop _ _).symm
  have hlength := congrArg List.length hs
  rw [ht.after_eq_nil ha hchars] at hlength
  have hstop := s.after_stop hc
  simp only [List.length_append, List.length_nil] at hlength
  rw [stop] at hstop
  rw [stop, hstart, ← hstop]
  omega

theorem Stretch.unseen (h : s.cut? = .ok none) (ht : Tight s.chars) : Unseen s.chars :=
  fun first i depth blank rest => cutFrom_uncut h ht.last first i depth blank rest

theorem Level.Passes.mono {level level' : Level} (h : level.Passes text)
    (hle : level.rank ≤ level'.rank) : level'.Passes text := by
  have hsequence (h : Level.operand.Passes text) : Level.sequence.Passes text := Unseen.scans h
  have hchoice (h : Level.sequence.Passes text) : Level.choice.Passes text := fun depth _ => h depth
  cases level <;> cases level' <;> first | exact h | exact absurd hle (by decide) | skip
  · exact hsequence h
  · exact hchoice (hsequence h)
  · exact hchoice h

theorem not_bar_of_starter {c : Char} (h : isStarter c) : c ≠ '|' ∧ isClosing c = false := by
  simp only [isStarter, Bool.or_eq_true] at h
  rcases h with (h | h) | h
  · simp only [isQuote, Bool.or_eq_true, decide_eq_true_eq] at h
    rcases h with rfl | rfl <;> decide
  · unfold closingOf? at h
    grind [isClosing]
  · obtain ⟨-, -, hclosing, hbar⟩ := of_not_sign (not_sign_of_identifierChar h)
    exact ⟨hbar, hclosing⟩

theorem Tight.firm (h : Tight text) (hs : Starts text) : Firm text := by
  obtain ⟨c, hhead, hstarter⟩ := hs
  obtain ⟨hbar, hclosing⟩ := not_bar_of_starter hstarter
  cases text with
  | nil => cases hhead
  | cons d rest =>
    have hd := h.head d rest rfl
    rw [List.dropWhile_cons_of_neg (by simp [hd])] at hhead
    cases hhead
    refine ⟨⟨c, rest, rfl, hd, hbar, hclosing⟩, ?_⟩
    obtain ⟨front, e, he⟩ := (List.eq_nil_or_concat' (c :: rest)).resolve_left (List.cons_ne_nil _ _)
    exact ⟨front, e, he, h.last front e he⟩

theorem Firm.tight {text : Text} (h : Firm text) : Tight text := by
  obtain ⟨⟨c, rest, hhead, hc, -⟩, front, d, hlast, hd⟩ := h
  constructor
  · intro c' rest' he
    obtain ⟨rfl, -⟩ := List.cons.inj (hhead.symm.trans he)
    exact hc
  · intro front' d' he
    obtain ⟨-, he⟩ := List.append_inj' (hlast.symm.trans he) rfl
    exact (List.cons.inj he).1 ▸ hd

theorem Tight.append {u v : Text} (hu : Tight u) (hv : Tight v) (hu' : u ≠ []) (hv' : v ≠ [])
    (between : Text) : Tight (u ++ between ++ v) := by
  obtain ⟨c, rest, rfl⟩ := List.exists_cons_of_ne_nil hu'
  obtain ⟨front, d, rfl⟩ := (List.eq_nil_or_concat' v).resolve_left hv'
  constructor
  · intro c' rest' he
    obtain ⟨rfl, -⟩ := List.cons.inj he
    exact hu.head _ _ rfl
  · intro front' d' he
    rw [← List.append_assoc] at he
    obtain ⟨-, he⟩ := List.append_inj' he rfl
    cases he
    exact hv.last _ _ rfl

theorem isClosing_of_closingOf? {opening closing : Char} (h : closingOf? opening = some closing) :
    isClosing closing := by
  obtain ⟨_, henc⟩ := exists_encloses h (.leaf .literal [])
  exact henc.brackets.2

theorem tight_enclosed {opening closing : Char} (h : closingOf? opening = some closing)
    (inner : Text) : Tight (opening :: (inner ++ [closing])) := by
  constructor
  · intro c rest he
    obtain ⟨rfl, -⟩ := List.cons.inj he
    by_contra hb
    obtain ⟨-, hopening, -⟩ := of_not_sign (not_sign_of_blank (by simpa using hb))
    cases hopening.symm.trans h
  · intro front c he
    obtain ⟨-, he⟩ := List.append_inj' (show opening :: inner ++ [closing] = front ++ [c] from he) rfl
    cases he
    by_contra hb
    obtain ⟨-, -, hclosing, -⟩ := of_not_sign (not_sign_of_blank (by simpa using hb))
    cases hclosing.symm.trans (isClosing_of_closingOf? h)

/-- One expression within another written in place of a different one. -/
inductive Expression.Swapped (old new : Expression) : Expression → Expression → Prop
  | self : Swapped old new old new
  | operand {operator before e e' after} : Swapped old new e e' →
      Swapped old new (.several operator (before ++ e :: after))
        (.several operator (before ++ e' :: after))
  | optional {e e'} : Swapped old new e e' → Swapped old new (.optional e) (.optional e')
  | repetition {e e'} : Swapped old new e e' → Swapped old new (.repetition e) (.repetition e')

namespace Expression
variable {form form' : Leaf} {word word' : Text} {e e' : Expression}

/-- Swapping a leaf swaps it among the last operands. -/
theorem Swapped.lastOperands (operator : Operator)
    (h : Swapped (.leaf form word) (.leaf form' word') e e') : ∃ before f f' after,
      e.lastOperands operator = before ++ f :: after ∧
      e'.lastOperands operator = before ++ f' :: after ∧
      Swapped (.leaf form word) (.leaf form' word') f f' := by
  have hwhole (he : e.lastOperands operator = [e]) (he' : e'.lastOperands operator = [e']) :
      ∃ before f f' after, e.lastOperands operator = before ++ f :: after ∧
        e'.lastOperands operator = before ++ f' :: after ∧
        Swapped (.leaf form word) (.leaf form' word') f f' := ⟨[], e, e', [], he, he', h⟩
  cases h with
  | self => exact hwhole rfl rfl
  | @operand operator' before f f' after hf =>
    by_cases ho : operator' = operator
    · exact ⟨before, f, f', after, if_pos ho, if_pos ho, hf⟩
    · exact hwhole (if_neg ho) (if_neg ho)
  | optional => exact hwhole rfl rfl
  | repetition => exact hwhole rfl rfl

end Expression

namespace Rule
open Expression

theorem Compiled.firm (h : Compiled text s rule) (ht : Tight s.chars) : Firm s.chars :=
  ht.firm (h.pieces ht).starts

theorem Compiled.exists_cut (h : Compiled text s rule) : ∃ c, s.cut? = .ok c := by
  cases h <;> exact ⟨_, ‹_›⟩

/-- The search passes over what compiles as it does over an expression of its level. -/
theorem Compiled.passes (h : Compiled text s rule) : Tight s.chars → ∀ {c}, s.cut? = .ok c →
    (Cut.level c).Passes s.chars := by
  induction h with
  | leaf hc _ | bracket hc _ _ _ _ _ =>
    intro ht c hc'
    cases hc.symm.trans hc'
    exact Stretch.unseen hc ht
  | @cut s cut left right hc hl hr ihl ihr =>
    intro ht c hc'
    cases hc.symm.trans hc'
    obtain ⟨operator, offset, gap, rfl, hb, hs, hleft, hright⟩ := Stretch.operands ht hc
    obtain ⟨cutl, hcl⟩ := hl.exists_cut
    obtain ⟨cutr, hcr⟩ := hr.exists_cut
    have hpl := (ihl (s.before _).trim_tight hcl).mono (hleft _ hcl)
    have hpr := (ihr (s.after _).trim_tight hcr).mono (hright _ hcr)
    rw [operator.level_cut, hs]
    exact hpl.between hb hpr

theorem bracket_wraps {opening closing : Char} (h : closingOf? opening = some closing) :
    ∃ wrap : Expression → Expression,
      (∀ text s body, (bracket text s opening body).expression = wrap body.expression) ∧
      ∀ {old new e e'}, Swapped old new e e' → Swapped old new (wrap e) (wrap e') := by
  obtain ⟨e', henc⟩ := exists_encloses h (.leaf .literal [])
  generalize Expression.leaf .literal [] = e at henc
  cases henc with
  | group => 
    refine ⟨id, fun text s body => ?_, fun h => h⟩
    cases body <;> rfl
  | optional => exact ⟨.optional, fun _ _ _ => rfl, .optional⟩
  | repetition => exact ⟨.repetition, fun _ _ _ => rfl, .repetition⟩

/-- What compiles in one text compiles alike wherever it stands in another. -/
theorem Compiled.elsewhere (h : Compiled text s rule) : s.Within text → Tight s.chars →
    ∀ {source n}, (Stretch.mk n s.chars).Within source →
      ∃ rule', Compiled source ⟨n, s.chars⟩ rule' ∧ rule'.expression = rule.expression := by
  induction h with
  | @leaf s form hc hword =>
    intro hw _ source n hw'
    refine ⟨_, .leaf (cutFrom_first hc n) hword, ?_⟩
    exact congrArg (Expression.leaf form) (hw'.window.trans hw.window.symm)
  | @bracket s opening closing inner body hc hs ho hne hbody ih =>
    intro hw ht source n hw'
    obtain ⟨wrap, hwrap, -⟩ := bracket_wraps ho
    have hinner : ((Stretch.mk n s.chars).inner.trim).chars = s.inner.trim.chars := rfl
    obtain ⟨body', hbody', he⟩ := @ih (hw.inner hs).trim s.inner.trim_tight source
      (Stretch.mk n s.chars).inner.trim.start (hw'.inner hs).trim
    exact ⟨_, .bracket (cutFrom_first hc n) hs ho hne hbody', by rw [hwrap, hwrap, he]⟩
  | @cut s cut left right hc hl hr ihl ihr =>
    intro hw ht source n hw'
    have hk := Stretch.cut?_offset_lt hc
    obtain ⟨left', hleft', hel⟩ := @ihl (hw.before cut).trim (s.before cut).trim_tight source
      ((Stretch.mk n s.chars).before cut).trim.start (hw'.before cut).trim
    obtain ⟨right', hright', her⟩ := @ihr (hw.after hk).trim (s.after cut).trim_tight source
      ((Stretch.mk n s.chars).after cut).trim.start (hw'.after hk).trim
    obtain ⟨operator, offset, gap, rfl, -⟩ := Stretch.operands ht hc
    refine ⟨_, .cut (cutFrom_first hc n) hleft' hright', ?_⟩
    rw [join_expression, join_expression, hel, her]

structure Renewed (source : Text) (s : Stretch) (position : Nat) (form : Leaf) (word : Text)
    (level : Level) (old e : Expression) (rule : Rule) : Prop where
  compiled : Compiled source s rule
  tight : Tight s.chars
  level : ∃ c, s.cut? = .ok c ∧ Cut.level c = level
  leaf : .leaf form ⟨position, position + word.length, false, none, source⟩ ∈ rule.nodes
  swapped : Swapped old (.leaf form word) e rule.expression

theorem Renewed.passes {source word : Text} {position : Nat} {form : Leaf} {level level' : Level}
    {old e : Expression} (h : Renewed source s position form word level old e rule)
    (hle : level.rank ≤ level'.rank) : level'.Passes s.chars := by
  obtain ⟨c, hc, rfl⟩ := h.level
  exact (h.compiled.passes h.tight hc).mono hle

/-- Operands that compile on either side of what may stand between them compile together. -/
theorem Compiled.joined {operator : Operator} {u gap v : Text} {start : Nat} {left right : Rule}
    (hl : Compiled text ⟨start, u⟩ left) (htl : Tight u) (hpl : operator.tighter.Passes u)
    (hb : operator.Between gap) (hr : Compiled text ⟨start + (u ++ gap).length, v⟩ right)
    (htr : Tight v) (hpr : operator.level.Passes v) : ∃ offset,
      (Stretch.mk start (u ++ gap ++ v)).cut? = .ok (some (operator.cut offset)) ∧
      Compiled text ⟨start, u ++ gap ++ v⟩ (join text (operator.cut offset) left right) ∧
      Tight (u ++ gap ++ v) := by
  obtain ⟨offset, hcut, hbefore, hafter⟩ := @cut_between start _ _ _ operator hpl (hl.firm htl) hb
    hpr (hr.firm htr)
  exact ⟨offset, hcut, .cut hcut (hbefore ▸ hl) (hafter ▸ hr),
    htl.append htr (hl.firm htl).ne_nil (hr.firm htr).ne_nil gap⟩

section
variable {source word : Text} {position start : Nat} {form : Leaf} {level : Level}
  {old : Expression} {left right other : Rule} {operator : Operator} {u gap v : Text}

theorem Renewed.leaf_self (hword : Opaque form word) (ht : Tight word)
    (hcut : (Stretch.mk 0 word).cut? = .ok none) (hw : (Stretch.mk start word).Within source) :
    ∃ rule, Renewed source ⟨start, word⟩ start form word (Cut.level none) old old rule := by
  have hexpression : (Rule.leaf form ⟨start, start + word.length, false, none, source⟩).expression =
      .leaf form word := congrArg (Expression.leaf form) hw.window
  exact ⟨_, .leaf (cutFrom_first hcut start) hword, ht, ⟨none, cutFrom_first hcut start, rfl⟩,
    List.mem_cons_self, hexpression.symm ▸ .self⟩

/-- What was renewed within brackets is renewed with them. -/
theorem Renewed.enclosed {opening closing : Char} {before chars after : Text} {body : Rule}
    (h : Renewed source ⟨start + 1 + before.length, chars⟩ position form word level old
      body.expression rule)
    (ho : closingOf? opening = some closing) (hb : Blanks before) (ha : Blanks after) : ∃ rule',
      Renewed source ⟨start, opening :: (before ++ chars ++ after ++ [closing])⟩ position form word
        (Cut.level none) old (bracket text s opening body).expression rule' := by
  obtain ⟨wrap, hwrap, hswapped⟩ := bracket_wraps ho
  have hunseen : Unseen (opening :: (before ++ chars ++ after ++ [closing])) :=
    unseen_of_enclosed ho (isClosing_of_closingOf? ho) fun depth hd =>
      ((hb.scans depth).append (h.passes (Level.rank_le_choice _) depth hd)).append (ha.scans depth)
  have hfirm := h.compiled.firm h.tight
  have htrim : (Stretch.mk start (opening :: (before ++ chars ++ after ++ [closing]))).inner.trim =
      ⟨start + 1 + before.length, chars⟩ := by
    rw [Stretch.inner, List.tail_cons, List.dropLast_concat]
    exact hfirm.trim hb ha (start + 1)
  refine ⟨_, .bracket hunseen.not_cut rfl ho (htrim ▸ hfirm.ne_nil) (htrim ▸ h.compiled),
    tight_enclosed ho _, ⟨none, hunseen.not_cut, rfl⟩, leaf_mem_bracket.2 h.leaf, ?_⟩
  rw [hwrap, hwrap]
  exact hswapped h.swapped

theorem Renewed.joined_left
    (h : Renewed source ⟨start, u⟩ position form word level old left.expression rule)
    (hle : level.rank ≤ operator.tighter.rank) (hb : operator.Between gap)
    (hr : Compiled source ⟨start + (u ++ gap).length, v⟩ other)
    (her : other.expression = right.expression) (htr : Tight v) (hpr : operator.level.Passes v)
    {offset : Nat} : ∃ rule', Renewed source ⟨start, u ++ gap ++ v⟩ position form word operator.level
      old (join text (operator.cut offset) left right).expression rule' := by
  obtain ⟨offset', hcut, hcompiled, htight⟩ := h.compiled.joined h.tight (h.passes hle) hb hr htr hpr
  refine ⟨_, hcompiled, htight, ⟨_, hcut, operator.level_cut _⟩, leaf_mem_join.2 (.inl h.leaf), ?_⟩
  rw [join_expression, join_expression, her]
  exact @Swapped.operand _ _ operator [] _ _ _ h.swapped

theorem Renewed.joined_right (hl : Compiled source ⟨start, u⟩ other)
    (hel : other.expression = left.expression) (htl : Tight u) (hpl : operator.tighter.Passes u)
    (hb : operator.Between gap)
    {form' : Leaf} {word' : Text}
    (h : Renewed source ⟨start + (u ++ gap).length, v⟩ position form word level (.leaf form' word')
      right.expression rule)
    (hle : level.rank ≤ operator.level.rank) {offset : Nat} : ∃ rule',
      Renewed source ⟨start, u ++ gap ++ v⟩ position form word operator.level (.leaf form' word')
        (join text (operator.cut offset) left right).expression rule' := by
  obtain ⟨offset', hcut, hcompiled, htight⟩ := hl.joined htl hpl hb h.compiled h.tight (h.passes hle)
  refine ⟨_, hcompiled, htight, ⟨_, hcut, operator.level_cut _⟩, leaf_mem_join.2 (.inr h.leaf), ?_⟩
  obtain ⟨before, f, f', after, he, he', hf⟩ := h.swapped.lastOperands operator
  rw [join_expression, join_expression, hel, he, he', ← List.cons_append, ← List.cons_append]
  exact .operand hf

end

/-- A leaf is written in a stretch at its own offset, and any other word may be written there. -/
def Renewable (text : Text) (s : Stretch) (rule : Rule) (form : Leaf) (o : Origin) : Prop :=
  ∃ pre word post, s.chars = pre ++ word ++ post ∧
    o = ⟨s.start + pre.length, s.start + pre.length + word.length, false, none, text⟩ ∧
    ∀ {c}, s.cut? = .ok c → ∀ {form' word'}, Opaque form' word' → Tight word' →
      (Stretch.mk 0 word').cut? = .ok none → ∀ {source start},
        (Stretch.mk start (pre ++ word' ++ post)).Within source → ∃ rule',
          Renewed source ⟨start, pre ++ word' ++ post⟩ (start + pre.length) form' word'
            (Cut.level c) (.leaf form word) rule.expression rule'

section
variable {form : Leaf} {o : Origin} {left right body : Rule}

theorem Renewable.leaf_self (hw : s.Within text) (hc : s.cut? = .ok none) :
    Renewable text s (.leaf form ⟨s.start, s.stop, false, none, text⟩) form
      ⟨s.start, s.stop, false, none, text⟩ := by
  have hexpression : (Rule.leaf form ⟨s.start, s.stop, false, none, text⟩).expression =
      .leaf form s.chars := congrArg (Expression.leaf form) hw.window
  refine ⟨[], s.chars, [], by simp, rfl, fun hc' _ word' hword' ht' huncut source start => ?_⟩
  cases hc.symm.trans hc'
  rw [List.nil_append, List.append_nil, hexpression]
  exact Renewed.leaf_self hword' ht' huncut

/-- A bracket is renewable where its inner stretch is. -/
theorem Renewable.bracket {opening closing : Char} {inner : Text} (hc : s.cut? = .ok none)
    (hs : s.chars = opening :: (inner ++ [closing])) (ho : closingOf? opening = some closing)
    (hbody : Compiled text s.inner.trim body) (h : Renewable text s.inner.trim body form o) :
    Renewable text s (bracket text s opening body) form o := by
  obtain ⟨cut, hcut⟩ := hbody.exists_cut
  obtain ⟨pre, word, post, hinner, hplace, hrenew⟩ := h
  obtain ⟨before, after, hb, ha, hparts, hoffset⟩ := s.inner.trim_parts
  -- The bracket and the blanks behind it stand before the leaf in either text.
  have hposition (start : Nat) : start + (opening :: (before ++ pre)).length =
      start + 1 + before.length + pre.length := by
    rw [List.length_cons, List.length_append]
    omega
  have hstart : s.inner.trim.start + pre.length = s.start + (opening :: (before ++ pre)).length :=
    (congrArg (· + pre.length) hoffset).trans (hposition s.start).symm
  refine ⟨opening :: (before ++ pre), word, post ++ after ++ [closing], ?_, hstart ▸ hplace,
    fun hc' form' word' hword' ht' huncut source start hw' => ?_⟩
  · rw [hs, ← Stretch.inner_chars hs, hparts, hinner]
    simp
  · cases hc.symm.trans hc'
    have hchars : opening :: (before ++ pre) ++ word' ++ (post ++ after ++ [closing]) =
        opening :: (before ++ (pre ++ word' ++ post) ++ after ++ [closing]) := by simp
    have hwithin : (Stretch.mk (start + (opening :: before).length) (pre ++ word' ++ post)).Within
        source := hw'.part (opening :: before) (after ++ [closing]) (by simp)
    obtain ⟨body', hbody'⟩ := hrenew hcut hword' ht' huncut hwithin
    have hoffset' : start + (opening :: before).length = start + 1 + before.length := by
      rw [List.length_cons]
      omega
    rw [hoffset'] at hbody'
    rw [hchars, hposition]
    exact hbody'.enclosed ho hb ha

theorem Renewable.join_left (hw : s.Within text) (ht : Tight s.chars)
    (hc : s.cut? = .ok (some cut)) (hl : Compiled text (s.before cut).trim left)
    (hr : Compiled text (s.after cut).trim right)
    (h : Renewable text (s.before cut).trim left form o) :
    Renewable text s (join text cut left right) form o := by
  have hwr := (hw.after (Stretch.cut?_offset_lt hc)).trim
  have htr := (s.after cut).trim_tight
  obtain ⟨operator, offset, gap, rfl, hb, hs, hleft, hright⟩ := Stretch.operands ht hc
  obtain ⟨cutl, hcl⟩ := hl.exists_cut
  obtain ⟨cutr, hcr⟩ := hr.exists_cut
  obtain ⟨pre, word, post, hsplit, hplace, hrenew⟩ := h
  refine ⟨pre, word, post ++ gap ++ (s.after (operator.cut offset)).trim.chars, ?_,
    Stretch.before_trim_start ht ▸ hplace,
    fun hc' form' word' hword' ht' huncut source start hw' => ?_⟩
  · rw [hs, hsplit]
    simp
  · cases hc.symm.trans hc'
    have hchars : pre ++ word' ++ (post ++ gap ++ (s.after (operator.cut offset)).trim.chars) =
        pre ++ word' ++ post ++ gap ++ (s.after (operator.cut offset)).trim.chars := by simp
    rw [hchars] at hw' ⊢
    obtain ⟨left', hleft'⟩ := hrenew hcl hword' ht' huncut
      (hw'.part [] (gap ++ (s.after (operator.cut offset)).trim.chars) (by simp))
    obtain ⟨right', hright', her⟩ := hr.elsewhere hwr htr
      (hw'.part (pre ++ word' ++ post ++ gap) [] (by simp))
    rw [operator.level_cut]
    exact hleft'.joined_left (hleft _ hcl) hb hright' her htr
      ((hr.passes htr hcr).mono (hright _ hcr))

theorem Renewable.join_right (hw : s.Within text) (ht : Tight s.chars)
    (hc : s.cut? = .ok (some cut)) (hl : Compiled text (s.before cut).trim left)
    (hr : Compiled text (s.after cut).trim right)
    (h : Renewable text (s.after cut).trim right form o) :
    Renewable text s (join text cut left right) form o := by
  have hwl := (hw.before cut).trim
  have htl := (s.before cut).trim_tight
  obtain ⟨operator, offset, gap, rfl, hb, hs, hleft, hright⟩ := Stretch.operands ht hc
  obtain ⟨cutl, hcl⟩ := hl.exists_cut
  obtain ⟨cutr, hcr⟩ := hr.exists_cut
  obtain ⟨pre, word, post, hsplit, hplace, hrenew⟩ := h
  generalize hfront : (s.before (operator.cut offset)).trim.chars ++ gap = front at hs
  have hstart : (s.after (operator.cut offset)).trim.start + pre.length =
      s.start + (front ++ pre).length := by
    have hend := Stretch.after_trim_stop ht hc
    rw [Stretch.stop, Stretch.stop, hs] at hend
    simp only [List.length_append] at hend ⊢
    omega
  refine ⟨front ++ pre, word, post, ?_, hstart ▸ hplace,
    fun hc' form' word' hword' ht' huncut source start hw' => ?_⟩
  · rw [hs, hsplit]
    simp
  · cases hc.symm.trans hc'
    have hchars : front ++ pre ++ word' ++ post = front ++ (pre ++ word' ++ post) := by simp
    have hposition : start + (front ++ pre).length = start + front.length + pre.length := by
      rw [List.length_append, Nat.add_assoc]
    rw [hchars] at hw' ⊢
    obtain ⟨right', hright'⟩ := hrenew hcr hword' ht' huncut (hw'.part front [] (by simp))
    rw [← hfront] at hw' hright' ⊢
    obtain ⟨left', hleft', hel⟩ := hl.elsewhere hwl htl
      (hw'.part [] (gap ++ (pre ++ word' ++ post)) (by simp))
    rw [← hfront] at hposition
    rw [hposition, operator.level_cut]
    exact Renewed.joined_right hleft' hel htl ((hl.passes htl hcl).mono (hleft _ hcl)) hb hright'
      (hright _ hcr)

end

/-- A leaf of what compiles may be written as any other word. -/
theorem Compiled.renewable (h : Compiled text s rule) {form : Leaf} {o : Origin} : s.Within text →
    Tight s.chars → Rule.leaf form o ∈ rule.nodes → Renewable text s rule form o := by
  induction h with
  | @leaf s form' hc _ =>
    intro hw _ ho
    obtain ⟨rfl, rfl⟩ : form = form' ∧ o = ⟨s.start, s.stop, false, none, text⟩ := by
      simpa [nodes] using ho
    exact .leaf_self hw hc
  | @bracket s _ _ _ _ hc hs ho _ hbody ih =>
    intro hw _ hmem
    exact .bracket hc hs ho hbody (ih (hw.inner hs).trim s.inner.trim_tight (leaf_mem_bracket.1 hmem))
  | @cut s cut _ _ hc hl hr ihl ihr =>
    intro hw ht hmem
    rcases leaf_mem_join.1 hmem with hmem | hmem
    · exact .join_left hw ht hc hl hr (ihl (hw.before cut).trim (s.before cut).trim_tight hmem)
    · have hwr := (hw.after (Stretch.cut?_offset_lt hc)).trim
      exact .join_right hw ht hc hl hr (ihr hwr (s.after cut).trim_tight hmem)

end Rule
end OrderedBnf
