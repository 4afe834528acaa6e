import OrderedBnf.Proofs.CarryingExpressions
import OrderedBnf.Proofs.DepthLimit

/-! The statement that announces another, as it is matched in the instrumented program. -/
namespace OrderedBnf

namespace Reader
variable {r : Reader} {rule : Rule} {left left' word : Text} {tree : ParseTree}

/-- What a parse takes from the text fits the rule that takes it. -/
theorem Takes.fits (h : r.Takes rule left left' tree) (hooks : r.lexis.Advances r.text r.stop)
    (hr : r.SkipsComments) : r.Fits rule (r.offset left) tree := by
  refine run_fits hooks (r.depthBound rule) h.ends.attempt ?_
  rw [hr.stop]
  exact Nat.sub_le _ _

/-- A tree that starts at a word and ends behind it covers that word. -/
theorem Takes.covered (h : r.Takes rule left left' tree)
    (hstart : tree.start = r.offset (word ++ left')) (hs : word ++ left' <:+ r.text) :
    (Tree.label tree).covered r.text = word := by
  change r.text.window tree.start tree.stop = word
  rw [hstart, h.stop, window_offset hs]

end Reader

namespace StatementTrace
open Reader Comment
variable {whole gap left left' : Text} {start : Nat}

theorem findSome?_single (front back : List Rule) {tree : ParseTree} :
    (front.map (fun _ => none) ++ some tree :: back.map fun _ => none).findSome? id =
      some tree := by
  induction front with
  | nil => rfl
  | cons _ front ih => exact ih

theorem chosen?_spanning {kind : Kind} {rule : Rule} {cursor : Nat} (front back : List Rule)
    {tree : ParseTree} : chosen? (.spanning kind rule cursor
      (front.map (fun _ => none) ++ some tree :: back.map fun _ => none)) = some tree := by
  rw [chosen?, ParseTree.spanning_branches, findSome?_single]

theorem takesAs_expression (h : TakesAs whole (.rule "Factor") left left' start)
    (hl : Begins closers left') (hs : left' <:+ whole) :
    TakesAs whole (.rule "Expression") left left' start :=
  takesAs_single rfl (takesAs_single rfl h (refusesAs (by decide) hl hs) hs)
    (refusesAs (by decide) hl hs) hs

section Marks
variable {c : Char} (hg : Gap .nothing gap) (hc : isBlank c = false) (hslash : c ≠ '/')
include hg hc hslash

/-- A mark that stands after a gap. -/
theorem stands_mark (hs : gap ++ c :: left <:+ whole) :
    (language.reader whole).Stands gap (c :: left) :=
  ⟨hg, ⟨hc, fun he => absurd he hslash⟩, hs⟩

theorem begins_mark (left : Text) : Begins [.word [c]] (gap ++ c :: left) :=
  ⟨gap, c :: left, rfl, hg, ⟨hc, fun he => absurd he hslash⟩, .word [c],
    List.mem_singleton_self _, left, rfl⟩

end Marks

section Numbers
variable {run : Text} (hne : run ≠ []) (hrun : ∀ c ∈ run, isAsciiDigit c)
include hne hrun

theorem integer?_digits (left : Text) :
    Numeral.integer? (run ++ ')' :: left) = some (')' :: left) := by
  have hdigits : Numeral.digits? (run ++ ')' :: left) = some (')' :: left) :=
    Numeral.some?_eq_some.2 ⟨run, hne, hrun, rfl, rfl⟩
  have hother {d e : Char} (hd : isAsciiDigit d) (he : isAsciiDigit e = false) : d ≠ e := by
    rintro rfl
    rw [hd] at he
    cases he
  obtain ⟨d, run, rfl⟩ := List.exists_cons_of_ne_nil hne
  have hd := hrun d List.mem_cons_self
  have hsign : Numeral.skipSign (d :: run ++ ')' :: left) = d :: run ++ ')' :: left :=
    Numeral.skipOne_of_not (by simp [hother hd (e := '+') rfl, hother hd (e := '-') rfl])
  have hmark : Numeral.one? (fun c => c = 'x' || c = 'X') (run ++ ')' :: left) = none := by
    rw [Numeral.one?_eq_none]
    cases run with
    | nil => rfl
    | cons e run =>
      have he := hrun e (by simp)
      simp [hother he (e := 'x') rfl, hother he (e := 'X') rfl]
  have hmagnitude : Numeral.magnitude? (d :: run ++ ')' :: left) = some (')' :: left) := by
    rw [Numeral.magnitude?, hdigits, Option.or_eq_some_iff]
    refine .inr ⟨Option.bind_eq_none_iff.2 fun after hzero => ?_, rfl⟩
    obtain ⟨_, -, he⟩ := Numeral.one?_eq_some.1 hzero
    cases he
    exact congrArg (Option.bind · (Numeral.some? Numeral.isHexDigit)) hmark
  rw [Numeral.integer?_eq, hsign, hmagnitude]
  rfl

theorem takesAs_number (h : (language.reader whole).Stands gap (run ++ ')' :: left)) :
    TakesAs whole (.rule "IntegerLiteral") (gap ++ (run ++ ')' :: left)) (')' :: left)
      ((language.reader whole).offset (run ++ ')' :: left)) := by
  intro title rule his
  obtain ⟨o, rfl, hname⟩ := Rule.is_rule his
  have hdrop : whole.drop ((language.reader whole).offset (run ++ ')' :: left)) =
      run ++ ')' :: left := drop_offset h.word_suffix
  have hfound : Scanner.byName CurlyBrace.literals "IntegerLiteral" whole
      ((language.reader whole).offset (run ++ ')' :: left)) whole.length =
        .ok (some ⟨.token, (language.reader whole).offset (run ++ ')' :: left),
          ((language.reader whole).offset (run ++ ')' :: left) + run.length : Nat)⟩) := by
    change Numeral.scanner Numeral.integer? whole _ whole.length = _
    rw [Numeral.scanner_eq, hdrop, integer?_digits hne hrun]
    dsimp only
    rw [if_neg (by exact Bool.false_ne_true), List.length_append, Nat.add_sub_cancel]
  exact ⟨_, takes_extension Ends.closes (h.meets (skipsComments whole))
      (hname ▸ body?_extension rfl) (hname ▸ hfound),
    rfl⟩

end Numbers

section Statements

def assignment : Sketch := .sequence [.name, .word ['='], .rule "Expression", .word [';']]

def evaluation : Sketch := .sequence [.rule "Expression", .word [';']]

def conditional : Sketch :=
  .sequence [.word "if".toList, .word ['('], .rule "Expression", .word [')'], .rule "Statement",
    .optional (.sequence [.word "else".toList, .rule "Statement"])]

def loop : Sketch :=
  .sequence [.word "while".toList, .word ['('], .rule "Expression", .word [')'], .rule "Statement"]

def returning : Sketch :=
  .sequence [.word "return".toList, .optional (.rule "Expression"), .word [';']]

def declaration : Sketch :=
  .sequence [.word "var".toList, .name, .optional (.sequence [.word ['='], .rule "Expression"]),
    .word [';']]

def keyworded : List Sketch := [.rule "Block", conditional, loop, returning, declaration]

def others : List Sketch := keyworded ++ [assignment]

theorem lookup_statement :
    sketches.lookup "Statement" = some (some (.choice (others ++ [evaluation]))) := rfl

/-- A comparison is no assignment: no expression starts with what is left of its operator. -/
theorem refusesAs_comparison (h : Begins [.word ['=', '=']] left) (hs : left <:+ whole) :
    RefusesAs whole (.sequence [.word ['='], .rule "Expression", .word [';']]) left := by
  obtain ⟨gap, _, rfl, hg, hsharp, head, hhead, hl⟩ := h
  obtain ⟨rest, rfl⟩ := List.mem_singleton.1 hhead ▸ hl
  have hstands : (language.reader whole).Stands gap ('=' :: '=' :: rest) := ⟨hg, hsharp, hs⟩
  have hsuffix : '=' :: rest <:+ whole := (List.suffix_cons _ _).trans hstands.word_suffix
  exact refusesAs_rest (takesAs_mark hstands rfl)
    (refusesAs (by decide) (begins_mark .nil rfl (by decide) rest) hsuffix)

theorem refusesAs_assignment (h : Operand left) (hs : left <:+ whole) :
    RefusesAs whole assignment left := by
  rcases h with h | h
  · exact refusesAs (by decide) h hs
  · refine refusesAs_named h hs fun rest hrest hsuffix => ?_
    obtain ⟨head, hhead, hrest⟩ := hrest.mem
    by_cases he : head = .word ['=', '=']
    · exact refusesAs_comparison (he ▸ hrest) hsuffix
    · have hothers : ∀ head ∈ .word ['('] :: afterFactor, head ≠ .word ['=', '='] →
          refuses 12 (.sequence [.word ['='], .rule "Expression", .word [';']]) head := by
        decide
      refine refusesAs (List.all_eq_true.2 fun head' hm => ?_) hrest hsuffix
      rw [List.mem_singleton.1 hm]
      exact hothers head hhead he

/-- Where an expression may start, no statement of another kind does. -/
theorem refusesAs_others (h : Operand left) (hs : left <:+ whole) :
    ∀ sketch ∈ others, RefusesAs whole sketch left := by
  intro sketch hm
  rcases List.mem_append.1 (show sketch ∈ keyworded ++ [assignment] from hm) with hm | hm
  · exact refusesAs_all (by decide) h.begins hs sketch hm
  · rw [List.mem_singleton.1 hm]
    exact refusesAs_assignment h hs

end Statements

section Announcing
variable {call : String} (hcall : language.lexis.IsName call.toList) {number : Nat}

def announcing (call : String) (number : Nat) (left : Text) : Text :=
  call.toList ++ '(' :: ((toString number).toList ++ ')' :: ';' :: left)

theorem digits_of_number (number : Nat) : (toString number).toList ≠ [] ∧
    ∀ c ∈ (toString number).toList, isAsciiDigit c := by
  have hdigits : (toString number).toList = Nat.toDigits 10 number := Nat.toList_repr
  rw [hdigits]
  refine ⟨Nat.toDigits_ne_nil, fun c hc => ?_⟩
  exact Nat.isDigit_of_mem_toDigits (by decide) (by decide) hc

theorem sharp_of_digit {c : Char} (h : isAsciiDigit c) : isBlank c = false ∧ c ≠ '/' := by
  rw [isAsciiDigit, Bool.and_eq_true, decide_eq_true_eq, decide_eq_true_eq] at h
  have hlow : 48 ≤ c.toNat := h.1
  have hhigh : c.toNat ≤ 57 := h.2
  constructor
  · simp only [isBlank, Bool.or_eq_false_iff, Bool.and_eq_false_iff, decide_eq_false_iff_not]
    omega
  · rintro rfl
    exact absurd hlow (by decide)

/-- A number in brackets is all that is passed to a call. -/
theorem takesAs_argument (hs : (toString number).toList ++ ')' :: left <:+ whole) :
    TakesAs whole (.rule "Arguments") ((toString number).toList ++ ')' :: left) (')' :: left)
      ((language.reader whole).offset ((toString number).toList ++ ')' :: left)) := by
  obtain ⟨hne, hdigits⟩ := digits_of_number number
  have hsuffix : ')' :: left <:+ whole := (List.suffix_append _ _).trans hs
  have hclosing : Begins [.word [')']] (')' :: left) := begins_mark .nil (by decide) (by decide) left
  have hstands : (language.reader whole).Stands [] ((toString number).toList ++ ')' :: left) := by
    obtain ⟨d, run, hrun⟩ := List.exists_cons_of_ne_nil hne
    rw [hrun] at hs ⊢
    obtain ⟨hb, hslash⟩ := sharp_of_digit (hdigits d (hrun ▸ List.mem_cons_self))
    exact stands_mark .nil hb hslash hs
  have hnumber := takesAs_number hne hdigits hstands
  have hfactor : TakesAs whole (.rule "Factor") ((toString number).toList ++ ')' :: left)
      (')' :: left) ((language.reader whole).offset ((toString number).toList ++ ')' :: left)) :=
    takesAs_rule rfl (takesAs_choice [] nofun hnumber)
  exact takesAs_single rfl (takesAs_expression hfactor (hclosing.mono (by decide)) hsuffix)
    (refusesAs (by decide) hclosing hsuffix) hsuffix

section Expression
include hcall

/-- What a call starts with. -/
theorem names_announcing (hg : Gap .nothing gap) (left : Text) :
    Names (Begins [.word ['(']]) (gap ++ announcing call number left) :=
  ⟨gap, call.toList, _, rfl, hg, hcall, rfl, begins_mark .nil rfl (by decide) _⟩

theorem takesAs_announcing (hg : Gap .nothing gap)
    (hs : gap ++ announcing call number left <:+ whole) :
    TakesAs whole (.rule "Expression") (gap ++ announcing call number left) (';' :: left)
      ((language.reader whole).offset (announcing call number left)) := by
  have hhead : Names (Begins [.word ['(']]) (gap ++ announcing call number left) :=
    names_announcing hcall hg left
  have hname : (language.reader whole).Stands gap (announcing call number left) :=
    ⟨hg, hcall.sharp _, hs⟩
  have hopening : '(' :: ((toString number).toList ++ ')' :: ';' :: left) <:+ whole :=
    (List.suffix_append _ _).trans hname.word_suffix
  have hnumber : (toString number).toList ++ ')' :: ';' :: left <:+ whole :=
    (List.suffix_cons _ _).trans hopening
  have hclosing : ')' :: ';' :: left <:+ whole := (List.suffix_append _ _).trans hnumber
  have hend : ';' :: left <:+ whole := (List.suffix_cons _ _).trans hclosing
  have hcalled : TakesAs whole (.rule "Call") (gap ++ announcing call number left) (';' :: left)
      ((language.reader whole).offset (announcing call number left)) :=
    takesAs_rule rfl (takesAs_sequence (takesAs_name hname hcall rfl)
      (takesAllAs_cons (takesAs_mark (stands_mark .nil rfl (by decide) hopening) rfl)
        (takesAllAs_cons (takesAs_optional (takesAs_argument hnumber))
          (takesAllAs_cons (takesAs_mark (stands_mark .nil rfl (by decide) hclosing) rfl)
            takesAllAs_nil))))
  have hfactor : TakesAs whole (.rule "Factor") (gap ++ announcing call number left) (';' :: left)
      ((language.reader whole).offset (announcing call number left)) :=
    takesAs_rule rfl (takesAs_choice [.rule "IntegerLiteral", .rule "StringLiteral"]
      (refusesAs_all (by decide) hhead.begins hs) hcalled)
  exact takesAs_expression hfactor ((begins_mark .nil rfl (by decide) left).mono (by decide)) hend

/-- The announcing call reads as a statement of its own, whatever follows it. -/
theorem takes_announcing (hg : Gap .nothing gap)
    (hs : gap ++ announcing call number left <:+ whole) {title : Option String} {rule : Rule}
    (his : rule.is title (.rule "Statement")) :
    ∃ tree, (language.reader whole).Takes rule (gap ++ announcing call number left) left tree ∧
      Announces whole call number tree := by
  have hhead : Names (Begins [.word ['(']]) (gap ++ announcing call number left) :=
    names_announcing hcall hg left
  have hsuffix : announcing call number left <:+ whole := (List.suffix_append _ _).trans hs
  have hothers := refusesAs_others (.inr (hhead.imp fun _ hrest => hrest.mono (by decide))) hs
  obtain ⟨o, rfl, htarget⟩ := Rule.is_rule his
  obtain ⟨body, hb, hbody⟩ := body?_of_sketch lookup_statement
  obtain ⟨rules, o', rfl, hname, hrules⟩ := Rule.is_choice hbody
  obtain ⟨front, back, rfl, hfront, hback⟩ := Rule.areAll_append hrules
  obtain ⟨last, back, rfl, hlast, hback⟩ := Rule.areAll_cons hback
  obtain ⟨parts, o'', rfl, -, hparts⟩ := Rule.is_sequence hlast
  obtain ⟨expression, parts, rfl, hexpression, hparts⟩ := Rule.areAll_cons hparts
  obtain ⟨semicolon, parts, rfl, hsemicolon, hparts⟩ := Rule.areAll_cons hparts
  cases Rule.areAll_nil hparts
  obtain ⟨e, he, hstart⟩ := takesAs_announcing hcall hg hs hexpression
  have hend : ';' :: left <:+ whole := he.suffix.trans hs
  obtain ⟨s, hsemi, hstart'⟩ := takesAs_mark (stands_mark .nil rfl (by decide) hend) rfl hsemicolon
  have hsequence := takes_sequence Ends.closes (o := o'') (.cons he (.cons hsemi .nil))
  have hpassed (rule : Rule) (hm : rule ∈ front) : (language.reader whole).Refuses rule
      (gap ++ announcing call number left) := by
    obtain ⟨sketch, hsketch, his⟩ := Rule.mem_of_areAll hfront rule hm
    exact hothers sketch hsketch his
  have hchoice : (language.reader whole).Takes
      (.choice (front ++ .sequence [expression, semicolon] o'' :: back) o')
      (gap ++ announcing call number left) left _ := takes_choice Ends.closes hpassed hsequence
  have hsplit : announcing call number left =
      (call.toList ++ '(' :: ((toString number).toList ++ [')'])) ++ ';' :: left := by
    simp only [announcing, List.append_assoc, List.cons_append, List.nil_append]
  have hcovered : (Tree.label e).covered whole =
      call.toList ++ '(' :: ((toString number).toList ++ [')']) :=
    he.covered (hsplit ▸ hstart) (hsplit ▸ hsuffix)
  have hfits := he.fits (CurlyBrace.advances grammar whole) (skipsComments whole)
  exact ⟨_, takes_reference Ends.closes (htarget ▸ hb) hchoice,
    (congrArg Rule.name? ParseTree.spanning_rule).trans hname, _, e, s, chosen?_spanning front back,
    ParseTree.spanning_branches, ruleName?_of_fits rfl hexpression hfits, hcovered,
    hsemi.covered hstart' hend⟩

end Expression

end Announcing

end StatementTrace
end OrderedBnf
