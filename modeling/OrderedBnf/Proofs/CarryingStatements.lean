import OrderedBnf.Proofs.Announcements

/-! Statements of the tiny language carried over to the instrumented program: each that is no block
has become a block of two. -/
namespace OrderedBnf.StatementTrace
open Reader Comment

variable {call : String} {number : Nat}

theorem heralding_append (rest : Text) :
    heralding call number ++ rest = '{' :: ' ' :: announcing call number (' ' :: rest) := by
  simp [heralding, announcing]

theorem suffix_announcing (rest : Text) : rest <:+ announcing call number rest :=
  ⟨call.toList ++ '(' :: ((toString number).toList ++ [')', ';']), by simp [announcing]⟩

theorem suffix_heralding (rest : Text) : ' ' :: rest <:+ heralding call number ++ rest := by
  rw [heralding_append]
  exact (suffix_announcing _).trans ((List.suffix_cons _ _).trans (List.suffix_cons _ _))

theorem begins_heralding {gap : Text} (hg : Gap .nothing gap) (rest : Text) :
    Begins [.word ['{']] (gap ++ (heralding call number ++ rest)) := by
  rw [heralding_append]
  exact begins_mark hg rfl (by decide) _

/-- What stands after a statement within the braces. -/
theorem begins_closing (left : Text) : Begins [.word ['}']] (' ' :: '}' :: left) :=
  begins_mark (gap_blank (c := ' ') rfl) rfl (by decide) left

section Pairs
variable {whole gap spelling left : Text} {second : ParseTree}

/-- What statements match in a pair of braces is a block. -/
theorem takes_block {inner gap' : Text} {related : List ParseTree → Prop}
    (hopening : (language.reader whole).Stands gap ('{' :: inner))
    (hclosing : (language.reader whole).Stands gap' ('}' :: left))
    (h : ∀ ⦃statement⦄, statement.is none (.rule "Statement") → ∃ trees, related trees ∧
      (language.reader whole).TakesRounds statement inner (gap' ++ '}' :: left) trees)
    {title : Option String} {rule : Rule} (his : rule.is title (.rule "Block")) :
    ∃ block opening statements closing trees,
      (language.reader whole).Takes rule (gap ++ '{' :: inner) left block ∧
      (Tree.label block).ruleName? = some "Block" ∧
      Tree.branches block = [some opening, some statements, some closing] ∧
      (Tree.label opening).covered whole = ['{'] ∧ (Tree.label closing).covered whole = ['}'] ∧
      Tree.branches statements = trees.map some ∧ related trees := by
  obtain ⟨o, rfl, htarget⟩ := Rule.is_rule his
  obtain ⟨body, hb, hblock⟩ := body?_of_sketch (show sketches.lookup "Block" = some (some
    (.sequence [.word ['{'], .repetition (.rule "Statement"), .word ['}']])) from rfl)
  obtain ⟨parts, o', rfl, hname, hparts⟩ := Rule.is_sequence hblock
  obtain ⟨opening, parts, rfl, hopens, hparts⟩ := Rule.areAll_cons hparts
  obtain ⟨statements, parts, rfl, hstatements, hparts⟩ := Rule.areAll_cons hparts
  obtain ⟨closing, parts, rfl, hcloses, hparts⟩ := Rule.areAll_cons hparts
  cases Rule.areAll_nil hparts
  obtain ⟨statement, o'', rfl, -, hstatement⟩ := Rule.is_repetition hstatements
  obtain ⟨trees, hrelated, hrounds⟩ := h hstatement
  obtain ⟨brace, hbrace, hstart⟩ := takesAs_mark hopening rfl hopens
  obtain ⟨brace', hbrace', hstart'⟩ := takesAs_mark hclosing rfl hcloses
  have hinner : inner <:+ whole := (List.suffix_cons _ _).trans hopening.word_suffix
  have htakes : (language.reader whole).Takes
      (.sequence [opening, .repetition statement o'', closing] o') (gap ++ '{' :: inner) left _ :=
    takes_sequence Ends.closes (.cons hbrace
      (.cons (takes_repetition Ends.closes hrounds hinner) (.cons hbrace' .nil)))
  exact ⟨_, brace, _, brace', trees, takes_reference Ends.closes (htarget ▸ hb) htakes,
    (congrArg Rule.name? ParseTree.spanning_rule).trans hname, ParseTree.spanning_branches,
    hbrace.covered hstart hopening.word_suffix, hbrace'.covered hstart' hclosing.word_suffix,
    ParseTree.spanning_branches, hrelated⟩

/-- In a pair of braces the statement that announces another and this other one are a block. -/
theorem takes_pair (hcall : language.lexis.IsName call.toList) (hg : Gap .nothing gap)
    (hs : gap ++ (heralding call number ++ (spelling ++ ' ' :: '}' :: left)) <:+ whole)
    (hsecond : ∀ ⦃rule⦄, rule.is none (.rule "Statement") → (language.reader whole).Takes rule
      (' ' :: (spelling ++ ' ' :: '}' :: left)) (' ' :: '}' :: left) second)
    {title : Option String} {rule : Rule} (his : rule.is title (.rule "Block")) :
    ∃ block first, (language.reader whole).Takes rule
        (gap ++ (heralding call number ++ (spelling ++ ' ' :: '}' :: left))) left block ∧
      Pairs whole block first second ∧ Announces whole call number first := by
  rw [heralding_append] at hs ⊢
  have hopening : (language.reader whole).Stands gap
      ('{' :: ' ' :: announcing call number (' ' :: (spelling ++ ' ' :: '}' :: left))) :=
    stands_mark hg rfl (by decide) hs
  have hinner : ' ' :: announcing call number (' ' :: (spelling ++ ' ' :: '}' :: left)) <:+ whole :=
    (List.suffix_cons _ _).trans hopening.word_suffix
  have hend : ' ' :: '}' :: left <:+ whole :=
    ((List.suffix_append _ _).trans (List.suffix_cons _ _)).trans
      ((suffix_announcing _).trans ((List.suffix_cons _ _).trans hinner))
  have hclosing : (language.reader whole).Stands [' '] ('}' :: left) :=
    stands_mark (gap_blank rfl) rfl (by decide) hend
  have hrounds ⦃statement : Rule⦄ (his : statement.is none (.rule "Statement")) :
      ∃ trees, (∃ first, trees = [first, second] ∧ Announces whole call number first) ∧
        (language.reader whole).TakesRounds statement
          (' ' :: announcing call number (' ' :: (spelling ++ ' ' :: '}' :: left)))
          ([' '] ++ '}' :: left) trees := by
    obtain ⟨first, hfirst, hannounces⟩ := takes_announcing hcall (gap_blank rfl) hinner his
    have hrefuses : (language.reader whole).Refuses statement (' ' :: '}' :: left) :=
      refusesAs (by decide) (begins_closing left) hend his
    refine ⟨[first, second], ⟨first, rfl, hannounces⟩, .round hfirst ?_
      (.round (hsecond his) ?_ (.done hrefuses))⟩
    · simp only [announcing, List.length_cons, List.length_append]
      omega
    · simp only [List.length_cons, List.length_append]
      omega
  obtain ⟨block, opening, statements, closing, _, hblock, hname, hbranches, hopens, hcloses,
    hstatements, first, rfl, hannounces⟩ := takes_block hopening hclosing hrounds his
  exact ⟨block, first, hblock,
    ⟨hname, opening, statements, closing, hbranches, hopens, hstatements, hcloses⟩, hannounces⟩

end Pairs

section Announced
variable {text text' : Text} {rules front back : List Rule} {alternative : Rule} {o : Origin}
  {m : Match} {t : ParseTree} {first : Text → Prop} {start : Nat}

/-- A statement that is announced is spelled as what it is, in braces and after the one that announces
it. -/
theorem spelled_single {starts : List Nat}
    (hannounced : announced?
      (.node m (front.map (fun _ => none) ++ some t :: back.map fun _ => none)) = some start)
    (hm : m.start ≠ m.stop) (hstart : m.start = t.start) (hstop : m.stop = t.stop) :
    spelled text call starts
      (.node m (front.map (fun _ => none) ++ some t :: back.map fun _ => none)) =
        heralding call (starts.length + 1) ++ (spelled text call (starts ++ [start]) t ++
          [' ', '}']) := by
  rw [spelled_announced hannounced hm, hstart, hstop, spelledAll_single]

theorem node_eta (tree : ParseTree) : tree = .node (Tree.label tree) (Tree.branches tree) := by
  cases tree
  rfl

/-- A statement that is announced is carried, in a block, when what it is is carried before the end
of one. -/
theorem CarriesTree.announced {block : Rule} (hcall : language.lexis.IsName call.toList)
    (hb : grammar.body? "Statement" =
      some (some (.choice (block :: front ++ alternative :: back) o)))
    (hblock : block.is none (.rule "Block"))
    (ht : CarriesTree (language.reader text) (language.reader text') call alternative t
      (Begins [.word ['}']]) first)
    (hfirst : ∀ left, first left → left <:+ text' →
      ∀ rule ∈ block :: front, (language.reader text').Refuses rule left)
    (hannounced : announced? (.node m
      ((block :: front).map (fun _ => none) ++ some t :: back.map fun _ => none)) = some start)
    (hk : m.kind = .choice) (hr : m.rule = .choice (block :: front ++ alternative :: back) o)
    (hstart : m.start = t.start) (hstop : m.stop = t.stop) :
    CarriesTree (language.reader text) (language.reader text') call
      (.choice (block :: front ++ alternative :: back) o)
      (.node m ((block :: front).map (fun _ => none) ++ some t :: back.map fun _ => none))
      (fun _ => True) (Begins [.word ['{']]) := by
  have hlt : m.start < m.stop := by
    have := ht.solid
    omega
  have hspelled (starts : List Nat) := @spelled_single call text (block :: front) back m t start
    starts hannounced (Nat.ne_of_lt hlt) hstart hstop
  refine ⟨hlt, fun starts => ?_, fun starts gap left hg hj _ hsuffix => ?_⟩
  · exact (hspelled starts).symm ▸ List.cons_ne_nil _ _
  · rw [show spelled (language.reader text).text call starts _ = _ from hspelled starts,
      List.append_assoc, List.append_assoc] at hsuffix ⊢
    -- The statement itself is matched again, between what announces it and the closing brace.
    have hinner : [' '] ++ (spelled text call (starts ++ [start]) t ++ ' ' :: '}' :: left) <:+
        text' := (suffix_heralding _).trans ((List.suffix_append _ _).trans hsuffix)
    obtain ⟨-, hbefore, tree', ht', htraced⟩ := ht.carried (gap_blank (c := ' ') rfl)
      (.inr (.inl rfl)) (begins_closing left) hinner
    have hchosen : (language.reader text').Takes
        (.choice (block :: front ++ alternative :: back) o)
        (' ' :: (spelled text call (starts ++ [start]) t ++ ' ' :: '}' :: left))
        (' ' :: '}' :: left) _ := takes_choice Ends.closes (hfirst _ hbefore hinner) ht'
    obtain ⟨pair, announcement, hpair, hpairs, hannounces⟩ := takes_pair hcall hg hsuffix
      (fun rule his => by
        obtain ⟨o, rfl, htarget⟩ := Rule.is_rule his
        exact takes_reference Ends.closes (htarget ▸ hb) hchosen) hblock
    -- The block that it has become is the first alternative of all.
    have houter : (language.reader text').Takes
        (.choice (block :: (front ++ alternative :: back)) o)
        (gap ++ (heralding call (starts.length + 1) ++
          (spelled text call (starts ++ [start]) t ++ ' ' :: '}' :: left))) left _ :=
      takes_choice Ends.closes (List.forall_mem_nil _) hpair
    refine ⟨.inr (.inr rfl), begins_heralding hg _, _, houter, ?_⟩
    rw [node_eta (.spanning ..), ParseTree.spanning_branches]
    rw [node_eta (.spanning ..)] at hpairs
    refine .announced hannounced (ParseTree.spanning_kind.trans hk.symm)
      (ParseTree.spanning_rule.trans hr.symm) (by simp) hpairs hannounces
      (ParseTree.spanning_kind.trans hk.symm) (ParseTree.spanning_rule.trans hr.symm) ?_
    rw [ParseTree.spanning_branches, announced_announced hannounced]
    have hsingle := branchwise_single (block :: front) back htraced
    rw [List.length_append] at hsingle
    rwa [← announcedAll_single (block :: front) back] at hsingle

end Announced

section Alternatives
variable {text text' : Text} {size : Nat}

theorem carriesAs_assignment : CarriesAs text text' call size none assignment
    (Begins [.word ['}']]) (Names (Begins [.word ['=']])) :=
  carriesAs_sequence untitled carriesAs_name (passesAllAs_word
    (passesAllAs_cons ((carriesAs_expression size).before_mono (by decide)).passes
      (passesAllAs_word passesAllAs_nil)))

theorem carriesAs_evaluation : CarriesAs text text' call size none evaluation
    (Begins [.word ['}']]) Operand :=
  carriesAs_sequence untitled ((carriesAs_expression size).before_mono (by decide))
    (passesAllAs_word passesAllAs_nil)

theorem carriesAs_returning : CarriesAs text text' call size none returning
    (Begins [.word ['}']]) (Begins [.word "return".toList]) := by
  have hvalue : PassesAs text text' call size none (.optional (.rule "Expression"))
      (Begins [.word [';']]) fun _ => True :=
    passesAs_optional untitled ((carriesAs_expression size).before_mono (by decide))
      (by decide)
  exact carriesAs_sequence untitled carriesAs_word (passesAllAs_cons hvalue
    (passesAllAs_word passesAllAs_nil))

theorem carriesAs_declaration : CarriesAs text text' call size none declaration
    (Begins [.word ['}']]) (Begins [.word "var".toList]) := by
  have hgiven : CarriesAs text text' call size none (.sequence [.word ['='], .rule "Expression"])
      (Begins [.word [';']]) (Begins [.word ['=']]) :=
    carriesAs_sequence untitled carriesAs_word (passesAllAs_cons
      ((carriesAs_expression size).before_mono (by decide)).passes passesAllAs_nil)
  exact carriesAs_sequence untitled carriesAs_word (passesAllAs_cons carriesAs_name.passes
    (passesAllAs_cons (passesAs_optional untitled hgiven (by decide))
      (passesAllAs_word passesAllAs_nil)))

section Within
variable (h : CarriesAs text text' call size none (.rule "Statement") (fun _ => True)
  (Begins [.word ['{']]))
include h

/-- A block is carried whatever follows it. -/
theorem carriesAs_block : CarriesAs text text' call size none (.rule "Block") (fun _ => True)
    (Begins [.word ['{']]) := by
  have hstatements : PassesAs text text' call size none (.repetition (.rule "Statement"))
      (Begins [.word ['}']]) fun _ => True :=
    passesAs_repetition untitled h (fun _ _ => trivial)
      (fun left hl hs => refusesAs (by decide) hl hs) fun _ _ => trivial
  exact carriesAs_rule rfl (carriesAs_sequence (by decide) carriesAs_word
    (passesAllAs_cons hstatements (passesAllAs_word passesAllAs_nil)))

theorem carriesAs_loop : CarriesAs text text' call size none loop (Begins [.word ['}']])
    (Begins [.word "while".toList]) :=
  carriesAs_sequence untitled carriesAs_word (passesAllAs_word
    (passesAllAs_cons ((carriesAs_expression size).before_mono (by decide)).passes
      (passesAllAs_word (passesAllAs_cons h.anywhere.passes passesAllAs_nil))))

/-- The statement before an `else` has become a block, so that the `else` stays with its `if`. -/
theorem carriesAs_conditional : CarriesAs text text' call size none conditional
    (Begins [.word ['}']]) (Begins [.word "if".toList]) := by
  have helse : CarriesAs text text' call size none
      (.sequence [.word "else".toList, .rule "Statement"]) (Begins [.word ['}']])
      (Begins [.word "else".toList]) :=
    carriesAs_sequence untitled carriesAs_word
      (passesAllAs_cons h.anywhere.passes passesAllAs_nil)
  exact carriesAs_sequence untitled carriesAs_word (passesAllAs_word
    (passesAllAs_cons ((carriesAs_expression size).before_mono (by decide)).passes
      (passesAllAs_word (passesAllAs_cons h.passes
        (passesAllAs_cons (passesAs_optional untitled helse (by decide)) passesAllAs_nil)))))

/-- No alternative that was passed over matches where a later one does. -/
theorem ordered_alternatives : OrderedAs text text' call size (Begins [.word ['}']])
    (fun _ => True) [.rule "Block"]
    [conditional, loop, returning, declaration, assignment, evaluation] := by
  refine ⟨⟨_, carriesAs_conditional h, ?_⟩, ⟨_, carriesAs_loop h, ?_⟩,
    ⟨_, carriesAs_returning, ?_⟩, ⟨_, carriesAs_declaration, ?_⟩,
    ⟨_, carriesAs_assignment, fun left hl hs => ⟨trivial, ?_⟩⟩,
    ⟨_, carriesAs_evaluation, fun left hl hs => ⟨trivial, refusesAs_others hl hs⟩⟩, trivial⟩
  · exact fun left hl hs => ⟨trivial, refusesAs_all (by decide) hl hs⟩
  · exact fun left hl hs => ⟨trivial, refusesAs_all (by decide) hl hs⟩
  · exact fun left hl hs => ⟨trivial, refusesAs_all (by decide) hl hs⟩
  · exact fun left hl hs => ⟨trivial, refusesAs_all (by decide) hl hs⟩
  · exact refusesAs_all (by decide) hl.begins hs

end Within

theorem announced?_single {m : Match} {front back : List Rule} {t : ParseTree} {rules : List Rule}
    {o : Origin} (hr : m.rule = .choice rules o)
    (hname : (Rule.choice rules o).name? = some "Statement") :
    announced? (.node m (front.map (fun _ => none) ++ some t :: back.map fun _ => none)) =
      if (Tree.label t).ruleName? = some "Block" then none else some t.start := by
  have hm : m.ruleName? = some "Statement" := (congrArg Rule.name? hr).trans hname
  rw [announced?, chosen?, Tree.label, Tree.branches, if_pos hm, findSome?_single]

/-- A statement is carried as a block: as it was if it is one, and otherwise with the statement that
announces it before it. -/
theorem carriesAs_statement (hcall : language.lexis.IsName call.toList) :
    CarriesAs text text' call size none (.rule "Statement") (fun _ => True)
      (Begins [.word ['{']]) := by
  induction size with
  | zero => exact carriesAs_zero
  | succ size ih =>
    intro rule his
    obtain ⟨o, rfl, htarget⟩ := Rule.is_rule his
    obtain ⟨body, hb, hbody⟩ := body?_of_sketch lookup_statement
    obtain ⟨rules, o', rfl, hname, hrules⟩ := Rule.is_choice hbody
    obtain ⟨block, rest, rfl, hblock, hrest⟩ := Rule.areAll_cons hrules
    have hpassed : Rule.areAll [.rule "Block"] [block] := by
      rw [Rule.areAll, hblock]
      rfl
    have hordered := (ordered_alternatives ih).ordered hpassed hrest
    refine carries_reference (htarget ▸ hb) (fun start tree hsize hf hs => ?_) (alike text text')
    obtain ⟨m, front, back, alternative, t, hsplit, rfl, hk, hr, hstart, hstop, ht⟩ :=
      fits_choice hf
    have hsmaller := size_branch mem_alternatives hsize
    have hannounced := @announced?_single m front back t _ _ hr hname
    cases front with
    | nil =>
      cases hsplit
      rw [ruleName?_of_fits rfl hblock ht, if_pos rfl] at hannounced
      exact (carriesAs_block ih hblock hsmaller ht hs).alternative
        (fun left hl _ => ⟨hl, List.forall_mem_nil _⟩) hannounced hk hr hstart hstop
    | cons first front =>
      cases hsplit
      obtain ⟨sketch, hsketch, halternative⟩ := Rule.mem_of_areAll hrest alternative
        (List.mem_append_right _ List.mem_cons_self)
      obtain ⟨parts, rfl⟩ : ∃ parts, sketch = .sequence parts := by
        have hall : ∀ sketch ∈ [conditional, loop, returning, declaration, assignment, evaluation],
            ∃ parts, sketch = .sequence parts := by
          simp only [List.forall_mem_cons]
          exact ⟨⟨_, rfl⟩, ⟨_, rfl⟩, ⟨_, rfl⟩, ⟨_, rfl⟩, ⟨_, rfl⟩, ⟨_, rfl⟩, List.forall_mem_nil _⟩
        exact hall sketch hsketch
      rw [ruleName?_of_sequence halternative ht,
        if_neg (Option.some_ne_none "Block").symm] at hannounced
      obtain ⟨first, hc, hfirst⟩ := hordered.alternative
      exact (hc hsmaller ht hs).announced hcall hb hblock (fun left hl hs => (hfirst left hl hs).2)
        hannounced hk hr hstart hstop

end Alternatives

end OrderedBnf.StatementTrace
