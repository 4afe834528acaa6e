import OrderedBnf.Proofs.Enclosures
import OrderedBnf.Proofs.Instrumenting
import OrderedBnf.Proofs.Positions

/-! What instrumenting does to the text of a program: it puts a numbered pair of brackets around
each statement, and changes nothing else. -/
namespace OrderedBnf.StatementTrace
open Reader

section Writing

def Written (names : List String) (rule : Rule) : Prop :=
  ∃ title sketch, rule.is title sketch ∧ sketch.mentions ⊆ names ∧
    ∀ name, title = some name → name ∈ names ∧ sketches.lookup name = some (some sketch)

def complete (names : List String) : Bool :=
  names.all fun name =>
    match sketches.lookup name with
    | some (some sketch) => sketch.mentions.all names.contains
    | some none => true
    | none => false

variable {names : List String}

theorem Written.branch {rule branch : Rule} (h : Written names rule)
    (hb : branch ∈ rule.branches) : Written names branch := by
  obtain ⟨title, sketch, his, hmentions, -⟩ := h
  obtain ⟨part, hpart, his⟩ := Rule.is_part his hb
  exact ⟨none, part, his, List.Subset.trans (Sketch.mentions_of_part hpart) hmentions, nofun⟩

theorem written_body (hc : complete names) {name : String} (hn : name ∈ names) {body : Rule}
    (hb : grammar.body? name = some (some body)) : Written names body := by
  have hall := List.all_eq_true.1 hc name hn
  split at hall
  · rename_i sketch hs
    obtain ⟨body', hb', his⟩ := body?_of_sketch hs
    cases hb'.symm.trans hb
    refine ⟨some name, sketch, his, fun m hm => ?_, ?_⟩
    · exact List.contains_iff_mem.1 (List.all_eq_true.1 hall m hm)
    · rintro _ ⟨⟩
      exact ⟨hn, hs⟩
  · rename_i hs
    cases (body?_extension hs).symm.trans hb
  · cases hall

/-- The body of a rule that is referred to was written too. -/
theorem Written.body (h : Written names (.leaf .reference o)) (hc : complete names) {body : Rule}
    (hb : grammar.body? (Rule.leaf .reference o).target = some (some body)) :
    Written names body := by
  obtain ⟨title, sketch, his, hmentions, -⟩ := h
  refine written_body hc (hmentions ?_) hb
  cases sketch with
  | rule name =>
    obtain ⟨o', ho, rfl⟩ := Rule.is_rule his
    cases ho
    exact List.mem_singleton_self _
  | _ => cases his

def expressions : List String :=
  ["Expression", "Term", "Factor", "Call", "Arguments", "IntegerLiteral", "StringLiteral"]

end Writing

variable {text : Text} {rule : Rule} {start : Nat} {tree : ParseTree}

theorem statementsOfAll_eq (branches : List (Option ParseTree)) :
    statementsOfAll branches = (branches.filterMap id).flatMap statements := by
  rw [statementsOfAll, Tree.subtreesOfAll_eq, List.filter_flatMap]
  rfl

theorem statements_leaf (m : Match) : statements (.leaf m) = [] :=
  statements_plain (announced?_leaf m)

/-- There is no statement in an expression. -/
theorem statements_expression (hf : (language.reader text).Fits rule start tree)
    (hw : Written expressions rule) : statements tree = [] := by
  refine Fits.ind (motive := fun rule _ tree => Written expressions rule → statements tree = [])
    (fun rule start tree hf hw => ?_) hf hw
  cases hf with
  | leaf => exact statements_leaf _
  | reference hb hf => exact hf.2 (hw.body (by decide) hb)
  | node hb _ hr =>
    have hname : rule.name? ≠ some "Statement" := by
      obtain ⟨title, sketch, his, -, htitle⟩ := hw
      intro hname
      have := (htitle "Statement" ((Rule.name?_of_is his).symm.trans hname)).1
      exact absurd this (by decide)
    rw [statements_plain (unannounced hr hname), statementsOfAll_eq, List.flatMap_eq_nil_iff]
    intro t ht
    obtain ⟨part, hpart, _, hf⟩ := hb.mem (by simpa using ht)
    exact hf.2 (hw.branch hpart)

section Fronts

/-- A tree in order after a cursor, if its branches are. -/
theorem frontedAll_of_inSuccession {r : Reader} {branches : List (Option ParseTree)} :
    ∀ {start cursor : Nat},
      cursor ≤ ((branches.filterMap id).head?.map ParseTree.start).getD start →
      InSuccession r.Sits start (branches.filterMap id) →
      (∀ t, some t ∈ branches → Fronted t) →
      FrontedAll cursor (lastStop start (branches.filterMap id)) branches := by
  induction branches with
  | nil => exact fun hc _ _ => hc
  | cons branch rest ih =>
    intro start cursor hc h hfronted
    have hrest := fun t ht => hfronted t (List.mem_cons_of_mem _ ht)
    cases branch with
    | none => exact ih hc h hrest
    | some t =>
      rw [List.filterMap_cons_some (show id (some t) = some t from rfl)] at hc h ⊢
      rw [lastStop_cons]
      refine ⟨⟨hc, h.1.le⟩, hfronted t List.mem_cons_self, ih ?_ h.2 hrest⟩
      have hahead := h.2
      cases hr : rest.filterMap id with
      | nil => exact Nat.le_refl _
      | cons next more =>
        rw [hr] at hahead
        exact hahead.1.ahead

inductive Opening : Sketch → Prop
  | word {c more} : Opening (.word (c :: more))
  | name : Opening .name
  | expression : Opening (.rule "Expression")

/-- What opens with a word, a name or an expression matches no empty text. -/
theorem Opening.solid {sketch : Sketch} (h : Opening sketch) (his : rule.is none sketch)
    (hf : (language.reader text).Fits rule start tree) (hs : start ≤ text.length) :
    tree.start < tree.stop ∧ statements tree = [] := by
  have hcarries : ∃ after before, ∀ size, CarriesAs text text "" size none sketch after before := by
    cases h with
    | word => exact ⟨fun _ => True, _, fun _ => carriesAs_word⟩
    | name => exact ⟨fun _ => True, _, fun _ => carriesAs_name⟩
    | expression => exact ⟨_, _, carriesAs_expression⟩
  have hmentions : sketch.mentions ⊆ expressions := by
    cases h with
    | word | name => exact List.nil_subset _
    | expression => decide
  obtain ⟨after, before, hcarries⟩ := hcarries
  exact ⟨(hcarries (sizeOf tree) his (Nat.le_refl _) hf hs).solid,
    statements_expression hf ⟨none, sketch, his, hmentions, nofun⟩⟩

theorem opening_others : ∀ sketch ∈ [conditional, loop, returning, declaration, assignment,
    evaluation], ∃ first parts, sketch = .sequence (first :: parts) ∧ Opening first := by
  simp only [List.forall_mem_cons]
  exact ⟨⟨_, _, rfl, .word⟩, ⟨_, _, rfl, .word⟩, ⟨_, _, rfl, .word⟩, ⟨_, _, rfl, .word⟩,
    ⟨_, _, rfl, .name⟩, ⟨_, _, rfl, .expression⟩, List.forall_mem_nil _⟩

/-- The first part of a statement is not empty and has no statement in it. -/
theorem front_of_sequence {first : Sketch} {parts : List Sketch} (hfirst : Opening first)
    (his : rule.is none (.sequence (first :: parts)))
    (hf : (language.reader text).Fits rule start tree) (hs : start ≤ text.length)
    (h : Fronted tree) :
    tree.start < tree.stop ∧ ∀ s ∈ statements tree, tree.start < s.start := by
  obtain ⟨rules, o, rfl, hname, hrules⟩ := Rule.is_sequence his
  obtain ⟨rule, rules, rfl, hrule, -⟩ := Rule.areAll_cons hrules
  obtain ⟨m, t, ts, rfl, -, hr, hstart, -, hft, -⟩ := fits_sequence hf
  obtain ⟨hsolid, hnone⟩ := hfirst.solid hrule hft hs
  obtain ⟨-, -, hrest⟩ := h.2
  have hstop := hrest.le
  have hm : (ParseTree.start (.node m (some t :: ts.map some)) = t.start) := hstart
  rw [hm, statements_plain (unannounced hr (hname ▸ untitled)), statementsOfAll_some, hnone]
  refine ⟨Nat.lt_of_lt_of_le hsolid hstop, fun s hs => ?_⟩
  exact Nat.lt_of_lt_of_le hsolid (hrest.statement hs).1

def titles : List String := sketches.map Prod.fst

theorem fronted_of_fits (hf : (language.reader text).Fits rule start tree)
    (hs : start ≤ text.length) (hw : Written titles rule) : Fronted tree := by
  have hooks := CurlyBrace.advances grammar text
  refine Fits.ind (motive := fun rule start tree => start ≤ text.length → Written titles rule →
    Fronted tree) (fun rule start tree hf hs hw => ?_) hf hs hw
  cases hf with
  | leaf hm =>
    have hsits := hm.sits hooks hs
    refine ⟨fun start ha => ?_, hsits.le⟩
    rw [show announced? (.node _ []) = none from announced?_leaf _] at ha
    cases ha
  | reference hb hf => exact hf.2 hs (hw.body (by decide) hb)
  | @node _ _ m branches hb _ hr hspan =>
    have hfronted (t : ParseTree) (ht : some t ∈ branches) : Fronted t := by
      obtain ⟨part, hpart, start', hs', hf⟩ :=
        hb.mem_from hs (fun _ _ _ hf hs => (hf.1.sits hooks hs).within) ht
      exact hf.2 hs' (hw.branch hpart)
    have hall := frontedAll_of_inSuccession (Nat.le_of_eq hspan.1)
      (hb.inSuccession (fun _ _ _ hf hs => hf.1.sits hooks hs) hs) hfronted
    rw [show lastStop start (branches.filterMap id) = m.stop from hspan.2.symm] at hall
    refine ⟨fun s ha => ?_, hall⟩
    have hname : rule.name? = some "Statement" := by
      by_contra hname
      rw [unannounced hr hname] at ha
      cases ha
    obtain ⟨title, sketch, his, -, htitle⟩ := hw
    have hlookup := (htitle "Statement" ((Rule.name?_of_is his).symm.trans hname)).2
    cases lookup_statement.symm.trans hlookup
    obtain ⟨rules, o, rfl, -, hrules⟩ := Rule.is_choice his
    generalize hchoice : Rule.choice rules o = choice at hb
    cases hb with
    | @choice front alternative back _ _ t hft =>
      cases hchoice
      have hbranch := hfronted t (by simp)
      rw [announced?_single hr hname] at ha
      rw [filterMap_single] at hspan
      rw [statementsOfAll_eq, filterMap_single, List.flatMap_singleton,
        show m.start = t.start from hspan.1, show m.stop = t.stop from hspan.2]
      split at ha
      · cases ha
      · rename_i hblock
        cases ha
        obtain ⟨sketch, hsketch, halternative⟩ := Rule.mem_of_areAll hrules alternative
          (List.mem_append_right _ List.mem_cons_self)
        rcases List.mem_cons.1 (show sketch ∈ Sketch.rule "Block" :: [conditional, loop, returning,
          declaration, assignment, evaluation] from hsketch) with rfl | hsketch
        · exact absurd (ruleName?_of_fits rfl halternative hft.1) hblock
        · obtain ⟨first, parts, rfl, hfirst⟩ := opening_others sketch hsketch
          exact ⟨rfl, front_of_sequence hfirst halternative hft.1 hs hbranch⟩
    | _ => cases hchoice

end Fronts

/-- The brackets with a number stand around a statement: the one directly before its first
character, the other behind its last, with nothing between but the ends of statements within it.
Between them lies the statement, with the brackets of the statements that are part of it and of no
others. -/
structure Encloses (text : Text) (all : List ParseTree) (word before inner after : List Letter)
    (number : Nat) (t : ParseTree) : Prop where
  split : word = before ++ .opens number :: (inner ++ .closes number :: after)
  start : before.filterMap Letter.char? = text.take t.start
  covered : inner.filterMap Letter.char? = (Tree.label t).covered text
  first : ∃ c rest, inner = .char c :: rest
  last : Letter.Ends inner
  nested : ∀ m s, all[m]? = some s →
    (.opens (m + 1) ∈ inner ↔ s ∈ Tree.subtreesOfAll (Tree.branches t)) ∧
    (.closes (m + 1) ∈ inner ↔ s ∈ Tree.subtreesOfAll (Tree.branches t))

section Numbers
variable {α : Type} {all earlier middle later : List α} (hnodup : all.Nodup)
include hnodup

theorem index_unique {i j : Nat} {s : α} (hi : all[i]? = some s) (hj : all[j]? = some s) : i = j :=
  (List.getElem?_inj (List.getElem?_eq_some_iff.1 hi).1 hnodup).1 (hi.trans hj.symm)

/-- A part of a list has the numbers after those of what comes before it. -/
theorem mem_middle_iff (hall : all = earlier ++ (middle ++ later)) {m : Nat} {s : α}
    (hs : all[m]? = some s) :
    s ∈ middle ↔ earlier.length ≤ m ∧ m < earlier.length + middle.length := by
  constructor
  · intro hm
    obtain ⟨i, hi, rfl⟩ := List.mem_iff_getElem.1 hm
    have hi' : all[earlier.length + i]? = some middle[i] := by
      rw [hall, List.getElem?_append_right (Nat.le_add_right _ _), Nat.add_sub_cancel_left,
        List.getElem?_append_left hi, List.getElem?_eq_getElem hi]
    have := index_unique hnodup hs hi'
    omega
  · intro ⟨hle, hlt⟩
    rw [hall, List.getElem?_append_right hle, List.getElem?_append_left (by omega)] at hs
    exact List.mem_of_getElem? hs

end Numbers

section Texts
variable {call : String}

def lettersOf (text : Text) (tree : ParseTree) : List Letter :=
  (text.take tree.start).map .char ++ (letters text 0 tree ++ (text.drop tree.stop).map .char)

theorem window_zero (stop : Nat) : text.window 0 stop = text.take stop := rfl

/-- No statement of a fronted tree comes twice. -/
theorem Fronted.nodup (h : Fronted tree) : (statements tree).Nodup :=
  h.ascending.imp fun hlt he => Nat.ne_of_lt hlt (congrArg ParseTree.start he)

/-- Each statement of a tree is enclosed by the brackets with its number. -/
theorem Fronted.encloses (h : Fronted tree) (hs : tree.stop ≤ text.length) {number : Nat}
    {t : ParseTree} (ht : (statements tree)[number]? = some t) : ∃ before inner after,
      Encloses text (statements tree) (lettersOf text tree) before inner after (number + 1) t := by
  have hmem := List.mem_of_getElem? ht
  obtain ⟨hsub, his⟩ := List.mem_filter.1 hmem
  obtain ⟨hf, hstart, hlt, hstop⟩ := h.statement hmem
  obtain ⟨earlier, later, before, after, hstatements, hletters, hchars⟩ :=
    @Fronted.split text 0 tree h t hsub
  obtain ⟨m, branches⟩ := t
  rw [isStatement_eq, Option.isSome_iff_exists] at his
  obtain ⟨start, ha⟩ := his
  rw [statements_announced ha] at hstatements
  have hnumber : number = earlier.length := by
    refine index_unique h.nodup ht ?_
    rw [hstatements, List.getElem?_append_right (Nat.le_refl _), Nat.sub_self]
    rfl
  have hwithin : statements tree =
      (earlier ++ [.node m branches]) ++ (statementsOfAll branches ++ later) := by
    rw [hstatements]
    simp
  refine ⟨(text.take tree.start).map .char ++ before,
    lettersOfAll text (number + 1) m.start m.stop branches,
    after ++ (text.drop tree.stop).map .char, ?_, ?_, ?_, ?_, ?_, fun k s hk => ?_⟩
  · rw [lettersOf, hletters, letters_announced ha, Nat.zero_add, ← hnumber]
    simp only [List.append_assoc, List.cons_append, List.nil_append]
  · rw [List.filterMap_append, Letter.filterMap_char, hchars, ← window_zero, ← window_zero,
      ← text.window_append (Nat.zero_le _) hstart]
  · exact chars_lettersOfAll _ hf.2
  · exact hf.2.begins _ hlt (Nat.le_trans hstop hs) (hf.1 start ha).2.2
  · exact hf.2.ends _ hlt (Nat.le_trans hstop hs)
  · have hmiddle := mem_middle_iff h.nodup hwithin hk
    have hpart : s ∈ statementsOfAll branches ↔ s ∈ Tree.subtreesOfAll branches := by
      have := (List.mem_filter.1 (List.mem_of_getElem? hk)).2
      rw [statementsOfAll, List.mem_filter, and_iff_left this]
    rw [List.length_append, List.length_singleton, ← hnumber, hpart] at hmiddle
    have hrange : k + 1 ∈ List.range' (number + 1 + 1) (statementsOfAll branches).length ↔
        s ∈ Tree.subtreesOfAll branches := by
      rw [hmiddle, List.mem_range'_1]
      omega
    rw [← Letter.mem_opened, ← Letter.mem_closed, opened_lettersOfAll,
      (closed_lettersOfAll _ _).mem_iff]
    exact ⟨hrange, hrange⟩

theorem chars_lettersOf (h : Fronted tree) (hs : tree.stop ≤ text.length) :
    (lettersOf text tree).filterMap Letter.char? = text := by
  rw [lettersOf, List.filterMap_append, List.filterMap_append, Letter.filterMap_char,
    Letter.filterMap_char, chars_letters 0 h, ← text.window_length tree.stop, ← window_zero,
    ← text.window_append h.le hs, ← text.window_append (Nat.zero_le _) (Nat.le_trans h.le hs),
    text.window_length, List.drop_zero]

theorem fronted_of_parse (h : language.parse "Program" text none = .ok tree) :
    Fronted tree ∧ tree.stop ≤ text.length := by
  obtain ⟨body, hb, hrun, -⟩ := Language.parse_ok h
  have hooks := CurlyBrace.advances grammar text
  have hfits := run_fits (r := language.reader text) hooks _ hrun (Nat.zero_le _)
  have hwritten : Written titles body := written_body (by decide) (by decide) hb
  exact ⟨fronted_of_fits hfits (Nat.zero_le _) hwritten, (hfits.sits hooks (Nat.zero_le _)).within⟩

theorem parse_of_instrument {result : Instrumented} (h : instrument text call = .ok result) :
    ∃ tree, language.parse "Program" text none = .ok tree := by
  cases hparse : language.parse "Program" text none with
  | ok tree => exact ⟨tree, rfl⟩
  | error e =>
    rw [instrument, hparse] at h
    cases h

/-- An instrumented text is the text of the program with a pair of brackets around each statement
that is no block, and with nothing else changed. The pairs are numbered in the order in which the
statements begin, they lie within one another as the statements do, and the positions are those of
the first characters, in their order. -/
theorem instrument_inserts {result : Instrumented} (h : instrument text call = .ok result) :
    ∃ tree word, language.parse "Program" text none = .ok tree ∧
      (statements tree).Pairwise (fun s s' => s.start < s'.start) ∧
      result.text = word.flatMap (Letter.render call) ∧
      word.filterMap Letter.char? = text ∧
      word.filterMap Letter.opened? = List.range' 1 (statements tree).length ∧
      (word.filterMap Letter.closed?).Perm (List.range' 1 (statements tree).length) ∧
      (∀ number t, (statements tree)[number]? = some t → ∃ before inner after,
        Encloses text (statements tree) word before inner after (number + 1) t) ∧
      result.places = (statements tree).map (fun s =>
        Source.position { content := text } (s.start : Nat)) ∧
      result.places.Pairwise Position.Before := by
  obtain ⟨tree, hparse⟩ := parse_of_instrument h
  obtain ⟨hf, hstop⟩ := fronted_of_parse hparse
  obtain ⟨_, hresult, htext, hplaces⟩ := @instrument_spelled text call tree hparse
  cases h.symm.trans hresult
  rw [announced_eq [] hf, List.nil_append, List.map_map] at hplaces
  refine ⟨tree, lettersOf text tree, hparse, hf.ascending, ?_, chars_lettersOf hf hstop, ?_, ?_,
    fun number t ht => hf.encloses hstop ht, hplaces, ?_⟩
  · rw [lettersOf, List.flatMap_append, List.flatMap_append, Letter.flatMap_render,
      Letter.flatMap_render, htext, ← render_letters hf]
    rfl
  · rw [lettersOf, List.filterMap_append, List.filterMap_append, Letter.filterMap_opened,
      Letter.filterMap_opened, opened_letters, List.nil_append, List.append_nil]
  · rw [lettersOf, List.filterMap_append, List.filterMap_append, Letter.filterMap_closed,
      Letter.filterMap_closed, List.nil_append, List.append_nil]
    exact closed_letters 0 tree
  · have htab : (1 : Int) ≤ 2 := by decide
    rw [hplaces, List.pairwise_map]
    exact hf.ascending.imp fun hlt => Source.position_before htab hlt

/-- The conditional that ends where the one within it does. -/
theorem dangling_inserts : ∃ result tree word, instrument dangling "trace" = .ok result ∧
    language.parse "Program" dangling none = .ok tree ∧ (statements tree).length = 4 ∧
    result.text = word.flatMap (Letter.render "trace") ∧
    word.filterMap Letter.char? = dangling ∧
    ∀ number t, (statements tree)[number]? = some t → ∃ before inner after,
      Encloses dangling (statements tree) word before inner after (number + 1) t := by
  have hrun : (language.parse "Program" dangling none).toOption.any fun tree =>
      (statements tree).length = 4 := by
    decide +kernel
  obtain ⟨tree, hparse, hcount⟩ := exists_of_any hrun
  obtain ⟨result, hresult, -⟩ := @instrument_spelled dangling "trace" tree hparse
  obtain ⟨tree', word, hparse', -, htext, hchars, -, -, hencloses, -⟩ :=
    @instrument_inserts dangling "trace" result hresult
  cases hparse.symm.trans hparse'
  exact ⟨result, tree, word, hresult, hparse, of_decide_eq_true hcount, htext, hchars, hencloses⟩

end Texts

end OrderedBnf.StatementTrace
