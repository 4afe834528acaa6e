import OrderedBnf.Proofs.Sketches

/-! What rules of the tiny language match and fail on, as they are sketched. -/
namespace OrderedBnf

namespace StatementTrace
open Reader Comment

/-- The tree of a sequence has the name that the sequence is the body of. -/
theorem ruleName?_of_sequence {r : Reader} {title : Option String} {parts : List Sketch}
    {rule : Rule} (his : rule.is title (.sequence parts)) {start : Nat} {tree : ParseTree}
    (hf : r.Fits rule start tree) : (Tree.label tree).ruleName? = title := by
  obtain ⟨rules, o, rfl, hname, -⟩ := Rule.is_sequence his
  cases hf with
  | intro hf =>
    cases hf with
    | leaf hm => cases hm
    | node _ _ hr => exact (congrArg Rule.name? hr).trans hname

theorem ruleName?_of_fits {text : Text} {name : String} {parts : List Sketch} {rule : Rule}
    (hs : sketches.lookup name = some (some (.sequence parts))) (his : rule.is none (.rule name))
    {start : Nat} {tree : ParseTree} (hf : (language.reader text).Fits rule start tree) :
    (Tree.label tree).ruleName? = some name := by
  obtain ⟨o, rfl, rfl⟩ := Rule.is_rule his
  obtain ⟨body, hb, hbody⟩ := body?_of_sketch hs
  have hb : (language.reader text).grammar.body? (Rule.leaf .reference o).target = _ := hb
  cases hf with
  | intro hf =>
    cases hf with
    | leaf hm =>
      cases hm with
      | extension hb' =>
        rw [hb] at hb'
        cases hb'
    | reference hb' hf =>
      rw [hb] at hb'
      cases hb'
      exact ruleName?_of_sequence hbody hf
    | node hb => cases hb

section
variable (whole : Text)

def RefusesAs (sketch : Sketch) (left : Text) : Prop :=
  ∀ ⦃title rule⦄, rule.is title sketch → (language.reader whole).Refuses rule left

/-- Every rule that was written as sketched matches what one remainder has before another, from an
offset on. -/
def TakesAs (sketch : Sketch) (left left' : Text) (start : Nat) : Prop :=
  ∀ ⦃title rule⦄, rule.is title sketch →
    ∃ tree, (language.reader whole).Takes rule left left' tree ∧ tree.start = start

def TakesAllAs (sketches : List Sketch) (left left' : Text) : Prop :=
  ∀ ⦃rules⦄, Rule.areAll sketches rules →
    ∃ trees, (language.reader whole).TakesAll rules left left' trees

end

variable {whole : Text} {sketch : Sketch} {sketches passed : List Sketch} {heads : List Head}
  {name : String} {gap word left middle left' : Text} {start : Nat}

/-- No rule of the tiny language has its first word deeper than twelve sketches down. -/
theorem refusesAs (h : heads.all (refuses 12 sketch ·)) (hb : Begins heads left)
    (hs : left <:+ whole) : RefusesAs whole sketch left :=
  fun _ _ his => refuses_begins h his hb hs

/-- A remainder that begins with heads which every sketch refuses is refused by each of them. -/
theorem refusesAs_all (h : passed.all fun sketch => heads.all (refuses 12 sketch ·))
    (hb : Begins heads left) (hs : left <:+ whole) :
    ∀ sketch ∈ passed, RefusesAs whole sketch left :=
  fun sketch hm => refusesAs (List.all_eq_true.1 h sketch hm) hb hs

theorem refusesAs_rule (hs : StatementTrace.sketches.lookup name = some (some sketch))
    (h : RefusesAs whole sketch left) : RefusesAs whole (.rule name) left := by
  intro title rule his
  obtain ⟨o, rfl, rfl⟩ := Rule.is_rule his
  obtain ⟨body, hb, hbody⟩ := body?_of_sketch hs
  exact refuses_reference Ends.closes hb (h hbody)

/-- A sequence fails where the rest of it does after what it starts with. -/
theorem refusesAs_rest (h : TakesAs whole sketch left middle start)
    (hrest : RefusesAs whole (.sequence sketches) middle) :
    RefusesAs whole (.sequence (sketch :: sketches)) left := by
  intro title rule his
  obtain ⟨rules, o, rfl, -, hrules⟩ := Rule.is_sequence his
  obtain ⟨first, rules, rfl, hfirst, hmore⟩ := Rule.areAll_cons hrules
  have his' : (Rule.sequence rules o).is (Rule.sequence rules o).name? (.sequence sketches) := by
    rw [Rule.is, hmore, decide_eq_true rfl]
    rfl
  obtain ⟨tree, ht, -⟩ := h hfirst
  exact refuses_rest ht (hrest his')

theorem takesAs_mark {c : Char} (h : (language.reader whole).Stands gap (c :: left))
    (hkey : reserved.contains [c] = false) : TakesAs whole (.word [c]) (gap ++ c :: left) left
      ((language.reader whole).offset (c :: left)) := by
  intro title rule his
  obtain ⟨o, rfl, hword⟩ := Rule.is_word his
  refine ⟨_, takes_literal Ends.closes (h.meets (skipsComments whole)) hword
    (List.cons_ne_nil c []) (fun hlong => ?_)
    (fun hk => ?_), rfl⟩
  · exact absurd hlong (Nat.lt_irrefl 1)
  · rw [show (language.reader whole).lexis.isKeyword [c] = _ from isKeyword_eq [c], hkey] at hk
    cases hk

/-- A name is taken up to where no character of a name follows. -/
theorem takesAs_name (h : (language.reader whole).Stands gap (word ++ left))
    (hname : language.lexis.IsName word) (hnext : left.head?.any isIdentifierChar = false) :
    TakesAs whole .name (gap ++ (word ++ left)) left
      ((language.reader whole).offset (word ++ left)) := by
  intro title rule his
  obtain ⟨o, rfl⟩ := Rule.is_name his
  exact ⟨_, takes_identifier Ends.closes (h.meets (skipsComments whole)) hname hnext, rfl⟩

/-- A sequence fails after the name that it starts with where the rest of it does. -/
theorem refusesAs_named {after : Text → Prop} (h : Names after left) (hs : left <:+ whole)
    (hrest : ∀ rest, after rest → rest <:+ whole → RefusesAs whole (.sequence sketches) rest) :
    RefusesAs whole (.sequence (.name :: sketches)) left := by
  obtain ⟨gap, name, rest, rfl, hg, hname, hnext, hafter⟩ := h
  have hstands : (language.reader whole).Stands gap (name ++ rest) := ⟨hg, hname.sharp rest, hs⟩
  have hsuffix : rest <:+ whole := (List.suffix_append name rest).trans hstands.word_suffix
  exact refusesAs_rest (takesAs_name hstands hname hnext) (hrest rest hafter hsuffix)

theorem takesAs_rule (hs : StatementTrace.sketches.lookup name = some (some sketch))
    (h : TakesAs whole sketch left left' start) : TakesAs whole (.rule name) left left' start := by
  intro title rule his
  obtain ⟨o, rfl, rfl⟩ := Rule.is_rule his
  obtain ⟨body, hb, hbody⟩ := body?_of_sketch hs
  obtain ⟨tree, ht, hstart⟩ := h hbody
  exact ⟨tree, takes_reference Ends.closes hb ht, hstart⟩

theorem takesAllAs_nil : TakesAllAs whole [] left left := by
  intro rules hrules
  rw [Rule.areAll_nil hrules]
  exact ⟨[], .nil⟩

theorem takesAllAs_cons (h : TakesAs whole sketch left middle start)
    (hrest : TakesAllAs whole sketches middle left') :
    TakesAllAs whole (sketch :: sketches) left left' := by
  intro rules hrules
  obtain ⟨rule, rest, rfl, hrule, hrules⟩ := Rule.areAll_cons hrules
  obtain ⟨tree, ht, -⟩ := h hrule
  obtain ⟨trees, hts⟩ := hrest hrules
  exact ⟨tree :: trees, .cons ht hts⟩

/-- A sequence is taken where its parts are. -/
theorem takesAs_sequence (h : TakesAs whole sketch left middle start)
    (hrest : TakesAllAs whole sketches middle left') :
    TakesAs whole (.sequence (sketch :: sketches)) left left' start := by
  intro title rule his
  obtain ⟨rules, o, rfl, -, hrules⟩ := Rule.is_sequence his
  obtain ⟨rule, rest, rfl, hrule, hrules⟩ := Rule.areAll_cons hrules
  obtain ⟨tree, ht, hstart⟩ := h hrule
  obtain ⟨trees, hts⟩ := hrest hrules
  exact ⟨_, takes_sequence Ends.closes (.cons ht hts),
    (ParseTree.spanning_start (List.filterMap_cons_some rfl)).trans hstart⟩

/-- A choice is taken as one of its parts, where those before it are refused. -/
theorem takesAs_choice (passed : List Sketch)
    (hpassed : ∀ sketch ∈ passed, RefusesAs whole sketch left)
    (h : TakesAs whole sketch left left' start) :
    TakesAs whole (.choice (passed ++ sketch :: sketches)) left left' start := by
  intro title rule his
  obtain ⟨rules, o, rfl, -, hrules⟩ := Rule.is_choice his
  obtain ⟨front, rules, rfl, hfront, hrules⟩ := Rule.areAll_append hrules
  obtain ⟨rule, back, rfl, hrule, -⟩ := Rule.areAll_cons hrules
  obtain ⟨tree, ht, hstart⟩ := h hrule
  refine ⟨_, takes_choice Ends.closes (fun rule hm => ?_) ht,
    (ParseTree.spanning_start (filterMap_single front back tree)).trans hstart⟩
  obtain ⟨sketch, hsketch, his⟩ := Rule.mem_of_areAll hfront rule hm
  exact hpassed sketch hsketch his

theorem takesAs_optional (h : TakesAs whole sketch left left' start) :
    TakesAs whole (.optional sketch) left left' start := by
  intro title rule his
  obtain ⟨body, o, rfl, -, hbody⟩ := Rule.is_optional his
  obtain ⟨tree, ht, hstart⟩ := h hbody
  exact ⟨_, takes_present Ends.closes ht, hstart⟩

theorem takesAs_none (h : RefusesAs whole sketch left) (hs : left <:+ whole) :
    TakesAs whole (.repetition sketch) left left ((language.reader whole).offset left) := by
  intro title rule his
  obtain ⟨body, o, rfl, -, hbody⟩ := Rule.is_repetition his
  exact ⟨_, takes_repetition Ends.closes (.done (h hbody)) hs, rfl⟩

theorem takesAs_single {more : Sketch}
    (hs : StatementTrace.sketches.lookup name = some (some (.sequence [sketch, .repetition more])))
    (h : TakesAs whole sketch left left' start) (hr : RefusesAs whole more left')
    (hw : left' <:+ whole) : TakesAs whole (.rule name) left left' start :=
  takesAs_rule hs (takesAs_sequence h (takesAllAs_cons (takesAs_none hr hw) takesAllAs_nil))

end StatementTrace
end OrderedBnf
