import OrderedBnf.Proofs.Nesting
import OrderedBnf.Proofs.Quoting
import OrderedBnf.Proofs.Relocation

/-! The excerpts of an expression that its nodes are written as. A group that is a leaf, or that is
spliced, leaves its brackets outside the range of the node that it was an operand of; so an excerpt
can lack brackets at its ends. Where it lacks none, it compiles again to the node itself. -/
namespace OrderedBnf

namespace Place
variable {place : Place} {c : Char} {text : Text} {depth k : Nat}

def raise (k : Nat) : Place → Place
  | outside depth => outside (depth + k)
  | inside depth mark => inside (depth + k) mark
  | escaped depth mark => escaped (depth + k) mark
  | lost => lost

theorem after_lost (text : Text) : lost.after text = lost := by
  induction text with
  | nil => rfl
  | cons c text ih => exact ih

theorem step_raise (k : Nat) (h : place.step c ≠ lost) :
    (place.raise k).step c = (place.step c).raise k := by
  cases place with
  | outside depth => cases depth <;> (simp only [raise, step, stepOutside] at *; grind [raise])
  | inside depth mark => simp only [raise, step]; grind [raise]
  | escaped => rfl
  | lost => rfl

/-- Brackets around a text that closes none of them change nothing in it. -/
theorem after_raise (k : Nat) (h : place.after text ≠ lost) :
    (place.raise k).after text = (place.after text).raise k := by
  induction text generalizing place with
  | nil => rfl
  | cons c text ih =>
    have hstep : place.step c ≠ lost := by
      intro hc
      exact h (by rw [after_cons, hc, after_lost])
    rw [after_cons, after_cons, step_raise k hstep, ih h]

theorem eq_zero_of_raise (h : place.raise k = outside 0) : k = 0 := by
  cases place with
  | outside depth =>
    rw [raise, outside.injEq] at h
    omega
  | _ => cases h

theorem after_front (depth : Nat) {front : Text} (h : ∀ c ∈ front, c = '(' ∨ isBlank c) :
    ∃ k, (outside depth).after front = outside (depth + k) ∧ (k = 0 → Blanks front) := by
  induction front generalizing depth with
  | nil => exact ⟨0, rfl, fun _ => Blanks.nil⟩
  | cons c front ih =>
    rw [List.forall_mem_cons] at h
    rcases h.1 with rfl | hc
    · obtain ⟨k, hk, -⟩ := ih (depth + 1) h.2
      refine ⟨k + 1, ?_, fun h0 => absurd h0 (Nat.succ_ne_zero k)⟩
      rw [← Nat.add_assoc, Nat.add_right_comm]
      exact hk
    · obtain ⟨k, hk, hblanks⟩ := ih depth h.2
      refine ⟨k, ?_, fun h0 => List.forall_mem_cons.2 ⟨hc, hblanks h0⟩⟩
      rw [after_cons, step_blank hc, hk]

theorem blanks_of_back {back : Text} (h : ∀ c ∈ back, c = ')' ∨ isBlank c)
    (hclosed : (outside 0).after back = outside 0) : Blanks back := by
  induction back with
  | nil => exact Blanks.nil
  | cons c back ih =>
    rw [List.forall_mem_cons] at h
    rw [after_cons] at hclosed
    rcases h.1 with rfl | hc
    · cases (after_lost back).symm.trans hclosed
    · rw [step_blank hc] at hclosed
      exact List.forall_mem_cons.2 ⟨hc, ih h.2 hclosed⟩

end Place

open Place

/-- Between two offsets stand only blanks and one bracket, any number of times. -/
def Margin (text : Text) (bracket : Char) (a b : Nat) : Prop :=
  a ≤ b ∧ ∀ c ∈ text.window a b, c = bracket ∨ isBlank c

namespace Margin
variable {text : Text} {bracket : Char} {a b c : Nat}

theorem refl (a : Nat) : Margin text bracket a a :=
  ⟨Nat.le_refl a, by rw [Text.window_self]; nofun⟩

/-- Margins that meet make up a margin. -/
theorem trans (h : Margin text bracket a b) (h' : Margin text bracket b c) :
    Margin text bracket a c := by
  refine ⟨Nat.le_trans h.1 h'.1, ?_⟩
  rw [text.window_append h.1 h'.1]
  exact List.forall_mem_append.2 ⟨h.2, h'.2⟩

end Margin

theorem Tight.trim {chars : Text} (h : Tight chars) (n : Nat) :
    (Stretch.mk n chars).trim = ⟨n, chars⟩ := by
  obtain ⟨before, after, hb, ha, hs, hstart⟩ := (Stretch.mk n chars).trim_parts
  generalize (Stretch.mk n chars).trim = trimmed at *
  obtain rfl := h.before_eq_nil hb (by rw [← List.append_assoc]; exact hs)
  obtain rfl := h.after_eq_nil ha hs
  cases trimmed
  simp_all

namespace Stretch
variable {text : Text} {s : Stretch}

theorem Within.margin (h : s.Within text) {bracket : Char} (pre : Text) {chars : Text} (post : Text)
    (hs : s.chars = pre ++ chars ++ post) (hall : ∀ c ∈ chars, c = bracket ∨ isBlank c) {a b : Nat}
    (ha : a = s.start + pre.length) (hb : b = a + chars.length) : Margin text bracket a b := by
  subst ha hb
  have hwindow : text.window (s.start + pre.length) (s.start + pre.length + chars.length) = chars :=
    (h.part pre post hs).window
  exact ⟨Nat.le_add_right _ _, hwindow.symm ▸ hall⟩

theorem Within.margins (h : s.Within text) (bracket : Char) :
    Margin text bracket s.start s.trim.start ∧ Margin text bracket s.trim.stop s.stop := by
  obtain ⟨before, after, hb, ha, hs, hstart⟩ := s.trim_parts
  have hlength := congrArg List.length hs
  simp only [List.length_append] at hlength
  constructor
  · apply h.margin [] (s.trim.chars ++ after)
    · simpa using hs
    · exact fun c hc => .inr (hb c hc)
    · rfl
    · exact hstart
  · apply h.margin (before ++ s.trim.chars) []
    · simpa using hs
    · exact fun c hc => .inr (ha c hc)
    · rw [stop, hstart, List.length_append, Nat.add_assoc]
    · rw [stop, stop]
      omega

theorem before_trim_start {cut : Cut} (ht : Tight s.chars) :
    (s.before cut).trim.start = s.start := by
  obtain ⟨before, after, hb, -, hs, hstart⟩ := (s.before cut).trim_parts
  have hchars : s.chars = before ++ ((s.before cut).trim.chars ++ after ++
      s.chars.drop cut.offset) := by
    rw [← List.append_assoc, ← List.append_assoc, ← hs]
    exact (List.take_append_drop _ _).symm
  rw [hstart, ht.before_eq_nil hb hchars]
  rfl

theorem range_eq (hne : s.chars ≠ []) {a b : Nat}
    (hw : text.window a b = s.chars) (ha : s.start ≤ a) (hb : b ≤ s.stop) :
    a = s.start ∧ b = s.stop := by
  have hlength := congrArg List.length hw
  have hpos := List.length_pos_iff.2 hne
  rw [Text.length_window] at hlength
  rw [stop] at *
  omega

theorem Within.bracket_margins (h : s.Within text) {opening closing : Char} {inner : Text}
    (hs : s.chars = opening :: (inner ++ [closing])) :
    Margin text opening s.start s.inner.start ∧ Margin text closing s.inner.stop s.stop := by
  constructor
  · apply h.margin [] (inner ++ [closing]) (show s.chars = [] ++ [opening] ++ _ from hs)
    · exact List.forall_mem_singleton.2 (.inl rfl)
    · rfl
    · rfl
  · apply h.margin (opening :: inner) [] (by rw [hs, List.append_nil]; rfl)
    · exact List.forall_mem_singleton.2 (.inl rfl)
    · rw [stop, inner_chars hs, Stretch.inner, List.length_cons, Nat.add_assoc, Nat.add_comm 1]
    · rw [stop, stop, inner_chars hs, hs, Stretch.inner]
      simp only [List.length_cons, List.length_append, List.length_nil]
      omega

end Stretch

namespace Rule

def reach : Rule → Nat
  | sequence rules _ | choice rules _ => (rules.map stop).foldl max 0
  | rule => rule.stop

theorem reach_of_chain {rule : Rule} (h : rule.kind = .sequence ∨ rule.kind = .choice) :
    rule.reach = (rule.branches.map stop).foldl max 0 := by
  cases rule with
  | leaf form => cases form <;> simp [kind, Leaf.kind] at h
  | sequence | choice => rfl
  | optional | repetition => simp [kind] at h

/-- What a node leaves out of the stretch that it is compiled from: blanks and brackets of groups at
the ends of it. -/
structure Extent (text : Text) (s : Stretch) (rule : Rule) : Prop where
  front : Margin text '(' s.start rule.start
  start_le : rule.start ≤ s.stop
  back : ∀ stop ∈ [rule.stop, rule.reach], s.start ≤ stop ∧ Margin text ')' stop s.stop

section Joining
variable (text : Text) (cut : Cut) (left right : Rule)

theorem join_start : (join text cut left right).start = left.start := by
  rw [start, join_origin]

theorem join_reach : (join text cut left right).reach = (join text cut left right).stop := by
  rw [reach_of_chain (join_kind .. ▸ cut.kind_isChain), join_branches, stop, join_origin]

theorem join_writtenAs : (join text cut left right).writtenAs =
    text.window (join text cut left right).start (join text cut left right).stop := by
  rw [writtenAs, join_origin]

theorem join_stop : ∃ stop ∈ [right.stop, right.reach],
    (join text cut left right).stop = max left.stop stop := by
  have hcons (rules : List Rule) : ((left :: rules).map stop).foldl max 0 =
      max left.stop ((rules.map stop).foldl max 0) := by
    rw [List.map_cons, List.foldl_cons, Nat.max_comm, List.foldl_assoc]
  have horigin := join_origin text cut left right
  have hstop : (join text cut left right).stop = _ := congrArg Origin.stop horigin
  rw [hstop, hcons, operands]
  split
  · rename_i hkind
    exact ⟨right.reach, by simp, by rw [reach_of_chain (hkind ▸ cut.kind_isChain)]⟩
  · exact ⟨right.stop, List.mem_cons_self, by simp⟩

end Joining

section Enclosing
variable (text : Text) (s : Stretch) (opening : Char) (body : Rule)

/-- Brackets are the node's own, except that a grouped leaf is left as it is. -/
theorem bracket_range : opening = '(' ∧ body.branches = [] ∧ bracket text s opening body = body ∨
    (bracket text s opening body).start = s.start ∧
      (bracket text s opening body).stop = s.stop := by
  unfold bracket
  split
  · cases body with
    | leaf => exact .inl ⟨‹_›, rfl, rfl⟩
    | _ => exact .inr ⟨rfl, rfl⟩
  · split <;> exact .inr ⟨rfl, rfl⟩

theorem bracket_reach : (bracket text s opening body).reach = (bracket text s opening body).stop ∨
    opening = '(' ∧ (bracket text s opening body).reach = body.reach := by
  unfold bracket
  split
  · cases body with
    | sequence | choice => exact .inr ⟨‹_›, rfl⟩
    | _ => exact .inl rfl
  · split <;> exact .inl rfl

end Enclosing

variable {text : Text} {s : Stretch} {rule node : Rule}

theorem Extent.widen {s' : Stretch} (h : Extent text s' rule)
    (hfront : Margin text '(' s.start s'.start) (hback : Margin text ')' s'.stop s.stop) :
    Extent text s rule where
  front := hfront.trans h.front
  start_le := Nat.le_trans h.start_le hback.1
  back stop hstop := by
    obtain ⟨hle, hmargin⟩ := h.back stop hstop
    exact ⟨Nat.le_trans hfront.1 hle, hmargin.trans hback⟩

theorem join_extent {cut : Cut} {left right : Rule} (hc : s.cut? = .ok (some cut))
    (hw : s.Within text) (hl : Extent text (s.before cut).trim left)
    (hr : Extent text (s.after cut).trim right) : Extent text s (join text cut left right) ∧
      (join text cut left right).start ≤ (s.before cut).trim.stop ∧
      (s.before cut).trim.stop ≤ (join text cut left right).stop := by
  have hk := Stretch.cut?_offset_lt hc
  obtain ⟨stop, hmem, hstop⟩ := join_stop text cut left right
  obtain ⟨hright, hback⟩ := hr.back stop hmem
  have hleft := (hl.back left.stop List.mem_cons_self).2.1
  have hbefore : (s.before cut).trim.stop ≤ s.start + cut.offset :=
    s.before_length hc ▸ (s.before cut).trim_within.2
  have hafter : s.start + cut.offset + 1 ≤ (s.after cut).trim.start := (s.after cut).trim_within.1
  rw [Nat.max_eq_right (by omega)] at hstop
  refine ⟨⟨?_, ?_, ?_⟩, (join_start ..).trans_le hl.start_le, by omega⟩
  · rw [join_start]
    exact ((hw.before cut).margins '(').1.trans hl.front
  · rw [join_start, Stretch.stop]
    have := hl.start_le
    omega
  · rw [join_reach, hstop, List.forall_mem_cons, List.forall_mem_singleton, and_self]
    exact ⟨by omega, s.after_stop hc ▸ hback.trans ((hw.after hk).margins ')').2⟩

/-- The range of a compiled rule leaves out nothing of its stretch but round brackets and blanks. -/
theorem Compiled.extent (h : Compiled text s rule) : s.Within text → Extent text s rule := by
  induction h with
  | @leaf s form _ _ =>
    intro hw
    have hle : s.start ≤ s.stop := Nat.le_add_right _ _
    have hend : s.start ≤ s.stop ∧ Margin text ')' s.stop s.stop := ⟨hle, .refl _⟩
    refine ⟨.refl _, hle, ?_⟩
    rw [List.forall_mem_cons, List.forall_mem_singleton]
    exact ⟨hend, hend⟩
  | @bracket s opening closing inner body _ hs ho _ _ ih =>
    intro hw
    have hle : s.start ≤ s.stop := Nat.le_add_right _ _
    have hinner := hw.inner hs
    obtain ⟨hopening, hclosing⟩ := hw.bracket_margins hs
    have hbody (hgroup : opening = '(') : Extent text s body := by
      subst hgroup
      obtain rfl : ')' = closing := Option.some.inj ho
      apply (ih hinner.trim).widen
      · exact hopening.trans (hinner.margins '(').1
      · exact (hinner.margins ')').2.trans hclosing
    rcases bracket_range text s opening body with ⟨hgroup, -, he⟩ | ⟨hstart, hstop⟩
    · rw [he]
      exact hbody hgroup
    · refine ⟨by rw [hstart]; exact .refl _, by rw [hstart]; exact hle, ?_⟩
      rw [List.forall_mem_cons, List.forall_mem_singleton, hstop]
      refine ⟨⟨hle, .refl _⟩, ?_⟩
      rcases bracket_reach text s opening body with he | ⟨hgroup, he⟩
      · rw [he, hstop]
        exact ⟨hle, .refl _⟩
      · rw [he]
        exact (hbody hgroup).back _ (by simp)
  | cut hc _ _ ihl ihr =>
    intro hw
    exact (join_extent hc hw (ihl (hw.before _).trim)
      (ihr (hw.after (Stretch.cut?_offset_lt hc)).trim)).1

theorem Compiled.ne_nil (h : Compiled text s rule) : s.chars ≠ [] := by
  cases h with
  | leaf _ hword =>
    obtain ⟨c, rest, hs, -⟩ := hword.head
    exact hs ▸ List.cons_ne_nil c rest
  | bracket _ hs _ _ _ => exact hs ▸ List.cons_ne_nil _ _
  | cut hc _ _ => exact List.ne_nil_of_length_pos (Nat.zero_lt_of_lt (Stretch.cut?_offset_lt hc))

/-- A chain whose excerpt lacks no brackets is written as all of the stretch that it is compiled
from. -/
theorem join_exact {cut : Cut} {left right : Rule} (hc : s.cut? = .ok (some cut))
    (hl : Compiled text (s.before cut).trim left) (hr : Compiled text (s.after cut).trim right)
    (hw : s.Within text) (ht : Tight s.chars)
    (h : (outside 0).after (join text cut left right).writtenAs = outside 0) :
    (join text cut left right).start = s.start ∧ (join text cut left right).stop = s.stop := by
  have hwl := (hw.before cut).trim
  obtain ⟨hjoin, hstart, hstop⟩ := join_extent hc hw (hl.extent hwl)
    (hr.extent (hw.after (Stretch.cut?_offset_lt hc)).trim)
  obtain ⟨hfront, hle, hback⟩ := hjoin
  replace hback := (hback _ List.mem_cons_self).2
  have hclosed := ((Compiled.cut hc hl hr).pieces ht).closed
  have hclosedl := (hl.pieces (s.before cut).trim_tight).closed
  have hsplit : s.chars = text.window s.start (join text cut left right).start ++
      (text.window (join text cut left right).start (join text cut left right).stop ++
        text.window (join text cut left right).stop s.stop) := by
    rw [← text.window_append (Nat.le_trans hstart hstop) hback.1, ← text.window_append hfront.1 hle,
      hw.window]
  rw [← hwl.window, Stretch.before_trim_start ht, text.window_append hfront.1 hstart,
    after_append] at hclosedl
  obtain ⟨k, hk, hblanks⟩ := after_front 0 hfront.2
  rw [hk] at hclosedl
  -- the left side opens nothing that the chain goes on to close, so nothing is opened before it
  have hk0 : k = 0 := by
    rw [join_writtenAs, text.window_append hstart hstop, after_append] at h
    have hlost : (outside 0).after (text.window (join text cut left right).start
        (s.before cut).trim.stop) ≠ lost := by
      intro hlost
      rw [hlost, after_lost] at h
      cases h
    exact eq_zero_of_raise ((after_raise k hlost).symm.trans hclosedl)
  rw [ht.before_eq_nil (hblanks hk0) hsplit, List.nil_append] at hsplit
  rw [hsplit, after_append, ← join_writtenAs, h] at hclosed
  rw [ht.after_eq_nil (blanks_of_back hback.2 hclosed) hsplit, List.append_nil] at hsplit
  exact Stretch.range_eq (Compiled.cut hc hl hr).ne_nil hsplit.symm hfront.1 hback.1

/-- A node is written as a range of the text that it is compiled from. -/
theorem Compiled.writtenAs (h : Compiled text s rule) :
    rule.writtenAs = text.window rule.start rule.stop := by
  induction h with
  | leaf => rfl
  | @bracket s opening _ _ body _ _ _ _ _ ih =>
    unfold Rule.bracket
    split
    · cases body with
      | leaf => exact ih
      | _ => rfl
    · split <;> rfl
  | cut => exact join_writtenAs ..

def IsChain (rule : Rule) : Prop := rule.kind = .sequence ∨ rule.kind = .choice

theorem join_isChain {cut : Cut} {left right : Rule} : (join text cut left right).IsChain := by
  rw [IsChain, join_kind]
  exact cut.kind_isChain

/-- What is written as a stretch lacks no brackets. -/
theorem Compiled.closed (h : Compiled text s rule) (hw : s.Within text) (ht : Tight s.chars)
    (hrange : rule.start = s.start ∧ rule.stop = s.stop) :
    rule.writtenAs = s.chars ∧ (outside 0).after rule.writtenAs = outside 0 := by
  have hs : rule.writtenAs = s.chars := by rw [h.writtenAs, hrange.1, hrange.2, hw.window]
  exact ⟨hs, hs ▸ (h.pieces ht).closed⟩

/-- A node with branches is written as all of the stretch that it is compiled from, unless it is a
chain whose excerpt lacks brackets. -/
theorem Compiled.range (h : Compiled text s rule) (hw : s.Within text) (ht : Tight s.chars)
    (hbranches : rule.branches ≠ [])
    (hclosed : rule.IsChain → (outside 0).after rule.writtenAs = outside 0) :
    rule.start = s.start ∧ rule.stop = s.stop := by
  cases h with
  | leaf => exact absurd rfl hbranches
  | @bracket _ opening _ _ body =>
    rcases bracket_range text s opening body with ⟨-, hleaf, he⟩ | hrange
    · rw [he] at hbranches
      exact absurd hleaf hbranches
    · exact hrange
  | @cut _ cut left right hc hl hr =>
    exact join_exact hc hl hr hw ht (hclosed join_isChain)

theorem mem_nodes_bracket {opening : Char} {body : Rule}
    (h : node ∈ (bracket text s opening body).nodes) :
    node = bracket text s opening body ∨ node ∈ body.nodes := by
  have hbranches : (bracket text s opening body).branches = body.branches ∨
      (bracket text s opening body).branches = [body] := by
    unfold bracket
    split
    · exact .inl (by cases body <;> rfl)
    · split <;> exact .inr rfl
  rw [mem_nodes] at h
  refine h.imp_right fun ⟨branch, hb, hn⟩ => ?_
  rcases hbranches with he | he
  · exact mem_nodes.2 (.inr ⟨branch, he ▸ hb, hn⟩)
  · rw [he, List.mem_singleton] at hb
    exact hb ▸ hn

/-- A chain has the nodes of its two sides, and its root. -/
theorem mem_nodes_join {cut : Cut} {left right : Rule}
    (h : node ∈ (join text cut left right).nodes) :
    node = join text cut left right ∨ node ∈ left.nodes ∨ node ∈ right.nodes := by
  rw [mem_nodes, join_branches] at h
  refine h.imp_right fun ⟨branch, hb, hn⟩ => ?_
  rcases List.mem_cons.1 hb with rfl | hb
  · exact .inl hn
  · rw [operands] at hb
    split at hb
    · exact .inr (mem_nodes.2 (.inr ⟨branch, hb, hn⟩))
    · exact .inr (List.mem_singleton.1 hb ▸ hn)

/-- Each node below one that compiles is compiled from a stretch itself, and written as all of it
unless it is a chain whose excerpt lacks brackets. -/
theorem Compiled.stretch (h : Compiled text s rule) :
    s.Within text → Tight s.chars → node ∈ rule.nodes →
      ∃ s', Compiled text s' node ∧ s'.Within text ∧ Tight s'.chars ∧
        ((node.IsChain → (outside 0).after node.writtenAs = outside 0) →
          node.start = s'.start ∧ node.stop = s'.stop) := by
  induction h with
  | @leaf s form hc hword =>
    intro hw ht hn
    obtain rfl := List.mem_singleton.1 hn
    exact ⟨s, .leaf hc hword, hw, ht, fun _ => ⟨rfl, rfl⟩⟩
  | @bracket s opening closing inner body hc hs ho hne hbody ih =>
    intro hw ht hn
    replace ih := ih (hw.inner hs).trim s.inner.trim_tight
    rcases mem_nodes_bracket hn with rfl | hn
    · rcases bracket_range text s opening body with ⟨-, -, he⟩ | hrange
      · exact ih (he.symm ▸ self_mem_nodes body)
      · exact ⟨s, .bracket hc hs ho hne hbody, hw, ht, fun _ => hrange⟩
    · exact ih hn
  | @cut s cut left right hc hl hr ihl ihr =>
    intro hw ht hn
    rcases mem_nodes_join hn with rfl | hn | hn
    · exact ⟨s, .cut hc hl hr, hw, ht, fun h => join_exact hc hl hr hw ht (h join_isChain)⟩
    · exact ihl (hw.before cut).trim (s.before cut).trim_tight hn
    · exact ihr (hw.after (Stretch.cut?_offset_lt hc)).trim (s.after cut).trim_tight hn

/-- A rule that was written as its whole stretch compiles to the same rule again, from its own text.
-/
theorem Compiled.again (h : Compiled text s rule) (ht : Tight s.chars)
    (hs : rule.writtenAs = s.chars) (hstart : rule.start = s.start) :
    ∃ again, compile rule.writtenAs = .ok again ∧ again.placed text rule.start = rule := by
  have hshift : s = (Stretch.mk 0 s.chars).shift s.start :=
    congrArg (Stretch.mk · s.chars) (Nat.zero_add _).symm
  obtain ⟨again, hagain, hplaced⟩ := h.moved s.chars _ hshift
  refine ⟨again, ?_, hstart ▸ hplaced⟩
  rw [hs, compile, ht.trim, if_neg h.ne_nil]
  exact hagain.compileStretch

theorem closed_of_compile (h : compile text = .ok rule) :
    (outside 0).after text = outside 0 := by
  obtain ⟨-, hcompiled⟩ := compile_ok h
  obtain ⟨before, after, hb, ha, htext, -⟩ := (Stretch.mk 0 text).trim_parts
  have hclosed := (hcompiled.pieces (Stretch.trim_tight _)).closed
  replace htext : text = before ++ (Stretch.mk 0 text).trim.chars ++ after := htext
  generalize (Stretch.mk 0 text).trim.chars = piece at *
  rw [htext, after_append, after_append, after_blanks hb, hclosed, after_blanks ha]

/-- Each node of what compiles is written as an excerpt of the text. Where the excerpt leaves no
bracket open and closes none that it does not open, it compiles again, to the same node but for the
offset. Else the node is a chain, and its excerpt does not compile. A root with branches is written
as the whole text without the blanks around it just where its own excerpt lacks no brackets. -/
theorem compile_excerpts (h : compile text = .ok rule) :
    (∀ node ∈ rule.nodes,
      ((outside 0).after node.writtenAs = outside 0 → ∃ again,
        compile node.writtenAs = .ok again ∧ again.placed text node.start = node) ∧
      ((outside 0).after node.writtenAs ≠ outside 0 →
        node.IsChain ∧ ∃ error, compile node.writtenAs = .error error)) ∧
    (rule.branches ≠ [] →
      (rule.writtenAs = text.trim isBlank ↔ (outside 0).after rule.writtenAs = outside 0)) := by
  obtain ⟨-, hcompiled⟩ := compile_ok h
  have hw : (Stretch.mk 0 text).trim.Within text := Stretch.Within.trim ⟨[], [], by simp, rfl⟩
  have ht := (Stretch.mk 0 text).trim_tight
  refine ⟨fun node hn => ?_, fun hb => ?_⟩
  · obtain ⟨s, hnode, hws, hts, hrange⟩ := hcompiled.stretch hw ht hn
    refine ⟨fun hclosed => ?_, fun hopen => ?_⟩
    · have hrange := hrange fun _ => hclosed
      exact hnode.again hts (hnode.closed hws hts hrange).1 hrange.1
    · have hchain : node.IsChain := by
        by_contra hchain
        exact hopen (hnode.closed hws hts (hrange fun h => absurd h hchain)).2
      refine ⟨hchain, ?_⟩
      cases hc : compile node.writtenAs with
      | error error => exact ⟨error, rfl⟩
      | ok again => exact absurd (closed_of_compile hc) hopen
  · refine ⟨fun hs => ?_, fun hclosed => ?_⟩
    · rw [hs]
      exact (hcompiled.pieces ht).closed
    · exact (hcompiled.closed hw ht (hcompiled.range hw ht hb fun _ => hclosed)).1

/-- A choice between a sequence that ends in a group, which is spliced, and an optional name. -/
theorem grouped_end_excerpts :
    let text := " a (b c) | [d]".toList
    ∃ rule chain, compile text = .ok rule ∧ chain ∈ rule.nodes ∧
      chain.writtenAs = "a (b c".toList ∧ (∃ error, compile chain.writtenAs = .error error) ∧
      rule.writtenAs = "a (b c) | [d]".toList ∧
      ∃ again, compile rule.writtenAs = .ok again ∧ again.placed text rule.start = rule := by
  intro text
  let origin (start stop : Nat) : Origin := ⟨start, stop, false, none, text⟩
  let name (start : Nat) : Rule := .leaf .reference (origin start (start + 1))
  let chain : Rule := .sequence [name 1, name 4, name 6] (origin 1 7)
  let rule : Rule := .choice [chain, .optional (name 12) (origin 11 14)] (origin 1 14)
  have h : compile text = .ok rule := by decide +kernel
  have hchain : chain ∈ rule.nodes := by decide +kernel
  obtain ⟨hnodes, hroot⟩ := compile_excerpts h
  exact ⟨rule, chain, h, hchain, by decide +kernel, ((hnodes chain hchain).2 (by decide +kernel)).2,
    (hroot (List.cons_ne_nil _ _)).2 (by decide +kernel),
    (hnodes rule (self_mem_nodes rule)).1 (by decide +kernel)⟩

/-- A sequence ends with the last of its operands, which here is the last of a group. -/
theorem spliced_group_excerpt :
    let text := "a (b c)".toList
    ∃ rule, compile text = .ok rule ∧ rule.IsChain ∧ rule.writtenAs = "a (b c".toList ∧
      compile rule.writtenAs = .error (Fault.unclosedBracket.atOffset 0) := by
  intro text
  let origin (start stop : Nat) : Origin := ⟨start, stop, false, none, text⟩
  let name (start : Nat) : Rule := .leaf .reference (origin start (start + 1))
  refine ⟨.sequence [name 0, name 3, name 5] (origin 0 6), ?_, .inl rfl, ?_, ?_⟩ <;> decide +kernel

end Rule
end OrderedBnf
