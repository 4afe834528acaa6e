import OrderedBnf.Proofs.Carrying
import OrderedBnf.Proofs.TakingRules

/-! Rules of the tiny language carried over to the instrumented program, as they are sketched. -/
namespace OrderedBnf.StatementTrace
open Reader Comment

theorem alike (text text' : Text) : Alike (language.reader text) (language.reader text') where
  grammar := rfl
  lexis := rfl
  skips := skipsComments text
  skips' := skipsComments text'
  advances := CurlyBrace.advances grammar text

section
variable (text text' : Text) (call : String)

def CarriesAs (size : Nat) (title : Option String) (sketch : Sketch) (after before : Text → Prop) :
    Prop :=
  ∀ ⦃rule⦄, rule.is title sketch →
    Carries (language.reader text) (language.reader text') call size rule after before

def PassesAs (size : Nat) (title : Option String) (sketch : Sketch) (after before : Text → Prop) :
    Prop :=
  ∀ ⦃rule⦄, rule.is title sketch →
    Passes (language.reader text) (language.reader text') call size rule after before

def PassesAllAs (size : Nat) (sketches : List Sketch) (after before : Text → Prop) : Prop :=
  ∀ ⦃rules⦄, Rule.areAll sketches rules →
    PassesAll (language.reader text) (language.reader text') call size rules after before

def OrderedAs (size : Nat) (after before : Text → Prop) : (passed rest : List Sketch) → Prop
  | _, [] => True
  | passed, sketch :: rest =>
    (∃ first, CarriesAs text text' call size none sketch after first ∧
      ∀ left, first left → left <:+ text' →
        before left ∧ ∀ sketch ∈ passed, RefusesAs text' sketch left) ∧
    OrderedAs size after before (passed ++ [sketch]) rest

end

variable {text text' : Text} {call : String} {size : Nat} {title : Option String}
  {sketch : Sketch} {sketches : List Sketch} {after before middle : Text → Prop}

theorem CarriesAs.mono {size' : Nat} (h : CarriesAs text text' call size title sketch after before)
    (hle : size' ≤ size) : CarriesAs text text' call size' title sketch after before :=
  fun _ his => (h his).mono hle

theorem CarriesAs.imp {after' before' : Text → Prop}
    (h : CarriesAs text text' call size title sketch after before)
    (ha : ∀ left, after' left → after left) (hb : ∀ left, before left → before' left) :
    CarriesAs text text' call size title sketch after' before' :=
  fun _ his => (h his).imp ha hb

theorem CarriesAs.anywhere
    (h : CarriesAs text text' call size title sketch (fun _ => True) before) :
    CarriesAs text text' call size title sketch after before :=
  h.imp (fun _ _ => trivial) fun _ hl => hl

theorem CarriesAs.before_mono {heads heads' : List Head}
    (h : CarriesAs text text' call size title sketch (Begins heads) before) (hm : heads' ⊆ heads) :
    CarriesAs text text' call size title sketch (Begins heads') before :=
  h.imp (fun _ hl => hl.mono hm) fun _ hl => hl

theorem CarriesAs.passes (h : CarriesAs text text' call size title sketch after before) :
    PassesAs text text' call size title sketch after before :=
  fun _ his => (h his).passes (alike text text')

theorem carriesAs_zero : CarriesAs text text' call 0 title sketch after before :=
  fun _ _ => carries_zero

section Leaves

/-- A word is carried over whatever stands behind it. -/
theorem carriesAs_word {c : Char} {more : Text} :
    CarriesAs text text' call size title (.word (c :: more)) after
      (Begins [.word (c :: more)]) := by
  intro rule his
  obtain ⟨o, rfl, hword⟩ := Rule.is_word his
  generalize hw : c :: more = word at hword ⊢
  have hne : word ≠ [] := hw ▸ List.cons_ne_nil c more
  have hr := skipsComments text
  refine carries_leaf fun start tree hf hs => ?_
  cases hf with
  | intro hf =>
    cases hf with
    | leaf hm =>
      cases hm with
      | nothing h => exact absurd (hword.symm.trans h) hne
      | @literal _ _ i _ hw _ hreads hruns =>
        subst hw
        rw [hword] at hreads hruns ⊢
        obtain ⟨rest, hdrop, hrest, hsharp⟩ := hreads.parted hr hs hne
        refine ⟨.token, i, word, rest, rfl, hne, hdrop, hsharp,
          fun gap left hstands hj _ => ⟨?_, ?_⟩⟩
        · exact ⟨gap, word ++ left, rfl, hstands.skipped, hstands.sharp, .word word,
            List.mem_singleton_self _, List.prefix_append word left⟩
        · have hleft : (language.reader text).rest (i + word.length) = rest := by
            rw [Reader.rest, hr.stop, Text.window_length, hrest]
          refine takes_literal Ends.closes (hstands.meets (skipsComments text')) hword hne
            (fun hlong hlast => ?_)
            fun hkey => ?_
          · refine hj.any ?_ (by decide) (by decide)
            rw [← Bool.not_eq_true]
            intro hnext
            exact hruns (.inl ⟨hlong, hlast, hrest ▸ hnext⟩)
          · refine hj.any ?_ (by decide) (by decide)
            rw [← Bool.not_eq_true]
            intro hnext
            exact hruns (.inr ⟨hkey, hleft ▸ hnext⟩)
    | node hb => cases hb

theorem carriesAs_name : CarriesAs text text' call size title .name after
    (Names after) := by
  intro rule his
  obtain ⟨o, rfl⟩ := Rule.is_name his
  have hr := skipsComments text
  refine carries_leaf fun start tree hf hs => ?_
  cases hf with
  | intro hf =>
    cases hf with
    | leaf hm =>
      cases hm with
      | @anyIdentifier _ _ i c tail word hw hc htail hreads hnext hkey =>
        have hne : word ≠ [] := hw ▸ List.cons_ne_nil c tail
        obtain ⟨rest, hdrop, hrest, hsharp⟩ := hreads.parted hr hs hne
        have hname : language.lexis.IsName word := ⟨⟨c, tail, hw, hc, htail⟩, hkey⟩
        refine ⟨.identifier, i, word, rest, rfl, hne, hdrop, hsharp,
          fun gap left hstands hj hafter => ?_⟩
        have hleft : left.head?.any isIdentifierChar = false := by
          refine hj.any ?_ (by decide) (by decide)
          rw [← hrest]
          rwa [Reader.rest, hr.stop, Text.window_length] at hnext
        exact ⟨⟨gap, word, left, rfl, hstands.skipped, hname, hleft, hafter⟩,
          takes_identifier Ends.closes (hstands.meets (skipsComments text')) hname hleft⟩
    | node hb => cases hb

theorem stable_of_openings {name : String} {chars : List Char}
    (ho : openings.lookup name = some chars) : (Scanner.byName CurlyBrace.literals name).Stable := by
  rcases openings_cases ho with ⟨rfl, -⟩ | ⟨rfl, -⟩
  · exact Numeral.scanner_stable
  · exact Quotation.scanner_stable '"'

theorem carriesAs_extension {name : String} {chars : List Char}
    (hb : StatementTrace.sketches.lookup name = some none)
    (ho : openings.lookup name = some chars) :
    CarriesAs text text' call size title (.rule name) after
      (Begins (chars.map fun c => .word [c])) := by
  intro rule his
  obtain ⟨o, rfl, rfl⟩ := Rule.is_rule his
  have hr := skipsComments text
  have hbody := body?_extension hb
  refine carries_leaf fun start tree hf hs => ?_
  cases hf with
  | intro hf =>
    cases hf with
    | leaf hm =>
      cases hm with
      | @extension _ _ i found stop _ hi hlt hw hfound hstart hstop =>
        have hi' : i < text.length := Nat.lt_of_lt_of_le hlt hw
        obtain ⟨word, rest, hdrop, hne, rfl, hstable⟩ := stable_of_openings ho hi' hfound
        obtain ⟨gap, text₁, hdrop₁, -, hsharp, hgap⟩ := skip_parted hr hs hi hi'
        have hsplit : text₁ = word ++ rest := by
          have hdrop₁ : text.drop start = gap ++ text₁ := hdrop₁
          have hdrop := hdrop
          rwa [hgap, ← List.drop_drop, hdrop₁, List.drop_left] at hdrop
        have hstop : stop = i + word.length := (Int.ofNat_inj.1 hstop).symm
        refine ⟨.token, i, word, rest, by rw [hstop], hne, hdrop, hsplit ▸ hsharp,
          fun gap left hstands hj _ => ⟨?_, ?_⟩⟩
        · obtain ⟨c, word, rfl⟩ := List.exists_cons_of_ne_nil hne
          have hc : chars.contains c := by
            rw [← Bool.not_eq_false]
            intro hc
            have := extend_none ho hc hdrop
            rw [show Scanner.byName _ _ text i text.length = _ from hfound] at this
            cases this
          exact ⟨gap, c :: word ++ left, rfl, hstands.skipped, hstands.sharp, .word [c],
            List.mem_map_of_mem (List.contains_iff_mem.1 hc), word ++ left, rfl⟩
        · exact takes_extension Ends.closes (hstands.meets (skipsComments text')) hbody
            (hstable hj (drop_offset hstands.word_suffix))
    | reference hb' =>
      rw [show (language.reader text).grammar.body? _ = _ from hbody] at hb'
      cases hb'
    | node hb => cases hb

end Leaves

section Nodes

theorem untitled : none ≠ some "Statement" := nofun

/-- A rule is carried over as what its name stands for. -/
theorem carriesAs_rule {name : String}
    (hs : StatementTrace.sketches.lookup name = some (some sketch))
    (h : CarriesAs text text' call size (some name) sketch after before) :
    CarriesAs text text' call size title (.rule name) after before := by
  intro rule his
  obtain ⟨o, rfl, rfl⟩ := Rule.is_rule his
  obtain ⟨body, hb, hbody⟩ := body?_of_sketch hs
  exact carries_reference hb (h hbody) (alike text text')

theorem passesAllAs_nil : PassesAllAs text text' call size [] after after := by
  intro rules hrules
  rw [Rule.areAll_nil hrules]
  exact passesAll_nil

theorem passesAllAs_cons (h : PassesAs text text' call size none sketch middle before)
    (hrest : PassesAllAs text text' call size sketches after middle) :
    PassesAllAs text text' call size (sketch :: sketches) after before := by
  intro rules hrules
  obtain ⟨rule, rest, rfl, hrule, hrules⟩ := Rule.areAll_cons hrules
  exact passesAll_cons (h hrule) (hrest hrules) (alike text text')

theorem passesAllAs_word {c : Char} {more : Text}
    (hrest : PassesAllAs text text' call size sketches after middle) :
    PassesAllAs text text' call size (.word (c :: more) :: sketches) after
      (Begins [.word (c :: more)]) :=
  passesAllAs_cons carriesAs_word.passes hrest

variable (ht : title ≠ some "Statement")
include ht

/-- A sequence is carried over where its parts are. -/
theorem carriesAs_sequence (h : CarriesAs text text' call size none sketch middle before)
    (hrest : PassesAllAs text text' call size sketches after middle) :
    CarriesAs text text' call size title (.sequence (sketch :: sketches)) after before := by
  intro rule his
  obtain ⟨parts, o, rfl, hname, hparts⟩ := Rule.is_sequence his
  obtain ⟨first, rest, rfl, hfirst, hparts⟩ := Rule.areAll_cons hparts
  exact (carries_sequence (h hfirst) (hrest hparts) (alike text text') (hname ▸ ht)).mono
    (Nat.le_succ size)

omit ht in
theorem areAll_both {sketches sketches' : List Sketch} {rules rules' : List Rule}
    (h : Rule.areAll sketches rules) (h' : Rule.areAll sketches' rules') :
    Rule.areAll (sketches ++ sketches') (rules ++ rules') := by
  induction sketches generalizing rules with
  | nil => rwa [Rule.areAll_nil h]
  | cons sketch sketches ih =>
    obtain ⟨rule, rest, rfl, hrule, hrest⟩ := Rule.areAll_cons h
    rw [List.cons_append, List.cons_append, Rule.areAll, hrule, ih hrest]
    rfl

omit ht in
theorem OrderedAs.ordered {passed : List Sketch} {before' rest : List Rule}
    (h : OrderedAs text text' call size after before passed sketches)
    (hpassed : Rule.areAll passed before') (hrest : Rule.areAll sketches rest) :
    Ordered (language.reader text) (language.reader text') call size after before before' rest := by
  induction sketches generalizing passed before' rest with
  | nil =>
    rw [Rule.areAll_nil hrest]
    trivial
  | cons sketch sketches ih =>
    obtain ⟨rule, rest, rfl, hrule, hrest⟩ := Rule.areAll_cons hrest
    obtain ⟨⟨first, hcarries, hfirst⟩, h⟩ := h
    refine ⟨⟨first, hcarries hrule, fun left hl hs => ?_⟩, ih h (areAll_both hpassed ?_) hrest⟩
    · obtain ⟨hbefore, hrefuses⟩ := hfirst left hl hs
      refine ⟨hbefore, fun rule hm => ?_⟩
      obtain ⟨sketch, hsketch, his⟩ := Rule.mem_of_areAll hpassed rule hm
      exact hrefuses sketch hsketch his
    · rw [Rule.areAll, hrule]
      rfl

/-- A choice is carried over where its alternatives are, in their order. -/
theorem carriesAs_choice (h : OrderedAs text text' call size after before [] sketches) :
    CarriesAs text text' call (size + 1) title (.choice sketches) after before := by
  intro rule his
  obtain ⟨rules, o, rfl, hname, hrules⟩ := Rule.is_choice his
  exact carries_choice (h.ordered rfl hrules) (hname ▸ ht)

/-- An optional is passed where its body refuses whatever may follow it. -/
theorem passesAs_optional {heads : List Head}
    (h : CarriesAs text text' call size none sketch (Begins heads) before)
    (habsent : heads.all (refuses 12 sketch ·)) :
    PassesAs text text' call size title (.optional sketch) (Begins heads) fun _ => True := by
  intro rule his
  obtain ⟨body, o, rfl, hname, hbody⟩ := Rule.is_optional his
  intro start tree starts left hsize
  exact passes_optional (h hbody) (alike text text')
    (fun left hl hs => ⟨trivial, refusesAs habsent hl hs hbody⟩) (fun _ _ => trivial)
    (hname ▸ ht) (Nat.le_succ_of_le hsize)

theorem passesAs_repetition {first : Text → Prop}
    (h : CarriesAs text text' call size none sketch middle first)
    (hnext : ∀ left, first left ∨ after left → middle left)
    (hdone : ∀ left, after left → left <:+ text' → RefusesAs text' sketch left)
    (hbefore : ∀ left, first left ∨ after left → before left) :
    PassesAs text text' call size title (.repetition sketch) after before := by
  intro rule his
  obtain ⟨body, o, rfl, hname, hbody⟩ := Rule.is_repetition his
  intro start tree starts left hsize
  exact passes_repetition (h hbody) (alike text text') hnext
    (fun left hl hs => hdone left hl hs hbody) hbefore (hname ▸ ht) (Nat.le_succ_of_le hsize)

omit ht in
/-- Words of which none is the beginning of another. -/
theorem orderedAs_words {marks : List Head} {passed words : List Text} (hne : ∀ w ∈ words, w ≠ [])
    (hmarks : ∀ w ∈ words, .word w ∈ marks)
    (hp : (passed ++ words).Pairwise fun w w' => refuses 12 (.word w) (.word w')) :
    OrderedAs text text' call size after (Begins marks) (passed.map .word) (words.map .word) := by
  induction words generalizing passed with
  | nil => trivial
  | cons w words ih =>
    obtain ⟨c, more, rfl⟩ := List.exists_cons_of_ne_nil (hne w List.mem_cons_self)
    refine ⟨⟨_, carriesAs_word, fun left hl hs => ⟨hl.mono ?_, fun sketch hm => ?_⟩⟩, ?_⟩
    · exact List.cons_subset.2 ⟨hmarks _ List.mem_cons_self, List.nil_subset _⟩
    · obtain ⟨w, hw, rfl⟩ := List.mem_map.1 hm
      have := (List.pairwise_append.1 hp).2.2 w hw _ List.mem_cons_self
      exact refusesAs (List.all_eq_true.2 fun head hm => by rwa [List.mem_singleton.1 hm]) hl hs
    · have hrest : OrderedAs text text' call size after (Begins marks)
          ((passed ++ [c :: more]).map .word) (words.map .word) :=
        ih (fun w hw => hne w (List.mem_cons_of_mem _ hw))
          (fun w hw => hmarks w (List.mem_cons_of_mem _ hw)) (by rwa [List.append_assoc])
      rwa [List.map_append] at hrest

end Nodes

end OrderedBnf.StatementTrace
