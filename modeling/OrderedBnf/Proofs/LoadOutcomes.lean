import Mathlib.Data.List.Induction
import OrderedBnf.Proofs.DocumentBlocks
import OrderedBnf.Proofs.Loading
import OrderedBnf.Proofs.Signs

/-! What comes of loading a document. It is refused for the first fault there is: a line that stands
before any head, else the first block that is not in order, else the first extension point that has
a body, else all names that nothing defines. -/
namespace OrderedBnf

theorem Block.Makes.eq_none_iff {name : String} {text : Text} {body : Option Rule}
    (h : Makes name text body) : body = none ↔ text = [] := by
  cases h with
  | nothing => exact ⟨fun _ => rfl, fun _ => rfl⟩
  | rule hne _ => exact ⟨nofun, fun h => absurd h hne⟩

/-- A block is loaded to one entry. -/
theorem Block.Loads.unique {block : Block} {entry entry' : Entry} (h : block.Loads entry)
    (h' : block.Loads entry') : entry = entry' := by
  have hmakes {name : String} {text : Text} {body body' : Option Rule}
      (h : Block.Makes name text body) (h' : Block.Makes name text body') : body = body' := by
    cases h with
    | nothing => exact (h'.eq_none_iff.2 rfl).symm
    | rule hne hrule =>
      cases h' with
      | nothing => exact absurd rfl hne
      | rule _ hrule' =>
        cases hrule.symm.trans hrule'
        rfl
  obtain ⟨name, body, line⟩ := entry
  obtain ⟨name', body', line'⟩ := entry'
  obtain rfl : name = name' := h.name.trans h'.name.symm
  obtain rfl : line = line' := h.line.trans h'.line.symm
  obtain rfl : body = body' := hmakes h.body h'.body
  rfl

namespace Block

def mentions (block : Block) : List String :=
  match Rule.compile block.body with
  | .ok rule => rule.mentions
  | .error _ => []

/-- What is reported of a block that stands behind others. Of one whose name was given before, the
body does not matter. -/
inductive Offends (front : List Block) (block : Block) : SyntaxError → Prop
  | duplicate {first} : first ∈ front → first.name = block.name → Offends front block
      ⟨.duplicateRule block.name first.line, none, some block.name, some block.line⟩
  | malformed {error} : block.name ∉ front.map name → block.body ≠ [] →
      Rule.compile block.body = .error error →
      Offends front block { error with rule := some block.name, line := some block.line }

structure Clear (blocks : List Block) : Prop where
  distinct : (blocks.map name).Nodup
  sound : ∀ block ∈ blocks, block.Sound

variable {front blocks : List Block} {block : Block}

theorem Clear.snoc (h : Clear front) (hname : block.name ∉ front.map name) (hs : block.Sound) :
    Clear (front ++ [block]) where
  distinct := by
    rw [List.map_append, List.map_singleton, List.nodup_append_comm, List.singleton_append,
      List.nodup_cons]
    exact ⟨hname, h.distinct⟩
  sound := List.forall_mem_append.2 ⟨h.sound, List.forall_mem_singleton.2 hs⟩

/-- A block offends, or it does no harm to those before it. -/
theorem offends_or_clear (h : Clear front) (block : Block) :
    (∃ error, Offends front block error) ∨ Clear (front ++ [block]) := by
  by_cases hname : block.name ∈ front.map name
  · obtain ⟨first, hfirst, hname⟩ := List.mem_map.1 hname
    exact .inl ⟨_, .duplicate hfirst hname⟩
  · by_cases hbody : block.body = []
    · exact .inr (h.snoc hname (.inl hbody))
    · cases hcompile : Rule.compile block.body with
      | error error => exact .inl ⟨_, .malformed hname hbody hcompile⟩
      | ok rule => exact .inr (h.snoc hname (.inr ⟨rule, hcompile⟩))

theorem clear_or_offending (blocks : List Block) : Clear blocks ∨ ∃ front block back error,
    blocks = front ++ block :: back ∧ Clear front ∧ Offends front block error := by
  induction blocks using List.reverseRecOn with
  | nil => exact .inl ⟨List.nodup_nil, nofun⟩
  | append_singleton blocks block ih =>
    rcases ih with hclear | ⟨front, block', back, error, rfl, hfront, hoffends⟩
    · rcases offends_or_clear hclear block with ⟨error, hoffends⟩ | hclear
      · exact .inr ⟨blocks, block, [], error, rfl, hclear, hoffends⟩
      · exact .inl hclear
    · exact .inr ⟨front, block', back ++ [block], error, by simp, hfront, hoffends⟩

end Block

namespace Grammar
/-- The extension points that no block is about, each once, as they are first given. -/
def undeclared (blocks : List Block) (extensions : List String) : List String :=
  (extensions.filter fun name => name ∉ blocks.map Block.name).eraseDups

/-- The names that are referred to and that neither a block nor an extension point has, each once, as
they are first referred to. -/
def undefined (blocks : List Block) (extensions : List String) : List String :=
  ((blocks.flatMap Block.mentions).filter
    fun name => name ∉ blocks.map Block.name ∧ name ∉ extensions).eraseDups

def Conflicting (blocks : List Block) (extensions : List String) : Prop :=
  ∃ block ∈ blocks, block.name ∈ extensions ∧ block.body ≠ []

/-- The result of loading a document, clause by clause. -/
inductive Outcome (lines : List Text) (extensions : List String) :
    Except GrammarError Grammar → Prop
  | stray {number words} : Block.Stray 1 lines number words →
      Outcome lines extensions
        (.error (.malformed ⟨.strayContinuation words, none, none, some number⟩))
  | offending {front block back error} : Block.Grouped 1 lines (front ++ block :: back) →
      Block.Clear front → block.Offends front error →
      Outcome lines extensions (.error (.malformed error))
  | conflicting {blocks before block after} : Block.Grouped 1 lines blocks → Block.Clear blocks →
      extensions = before ++ block.name :: after → ¬ Conflicting blocks before → block ∈ blocks →
      block.body ≠ [] → Outcome lines extensions
        (.error (.malformed ⟨.definedExtension block.name, none, some block.name, some block.line⟩))
  | incomplete {blocks} : Block.Grouped 1 lines blocks → Block.Clear blocks →
      ¬ Conflicting blocks extensions → undefined blocks extensions ≠ [] →
      Outcome lines extensions (.error (.incomplete (undefined blocks extensions)))
  | complete {blocks declared grammar} : Block.Grouped 1 lines blocks → Block.Clear blocks →
      ¬ Conflicting blocks extensions → undefined blocks extensions = [] →
      List.Forall₂ Block.Loads blocks declared →
      grammar.entries = declared ++ (undeclared blocks extensions).map (⟨·, none, none⟩) →
      Outcome lines extensions (.ok grammar)

variable {grammar : Grammar} {lines : List Text} {blocks front : List Block} {block : Block}
  {extensions : List String} {name : String} {declared : List Entry}

theorem addBlock_offends (h : List.Forall₂ Block.Loads front grammar.entries) {error : SyntaxError}
    (ho : block.Offends front error) : grammar.addBlock block = .error error := by
  cases ho with
  | @duplicate first hfirst hname =>
    obtain ⟨entry, hentry, hloads⟩ := exists_of_mem_right h.flip hfirst
    have hfind := find?_of_mem hentry
    rw [hloads.name, hname] at hfind
    rw [addBlock, hfind]
    dsimp only
    rw [hloads.line]
    rfl
  | malformed hname hbody hcompile =>
    have hnew : block.name ∉ grammar.names := by
      rwa [names, names_of_loads h]
    rw [addBlock, find?_eq_none hnew]
    dsimp only
    rw [if_neg hbody, hcompile]

/-- Blocks without a fault become one entry each. -/
theorem addBlocks_clear (h : Block.Clear blocks) : ∃ grammar,
    blocks.foldlM addBlock empty = .ok grammar ∧ List.Forall₂ Block.Loads blocks grammar.entries := by
  obtain ⟨grammar, hgrammar⟩ := @addBlocks_new empty blocks h.sound h.distinct
  obtain ⟨declared, hdeclared, hentries⟩ := addBlocks_ok hgrammar
  exact ⟨grammar, hgrammar, hentries ▸ hdeclared⟩

def Holds (blocks : List Block) (extensions : List String) (grammar : Grammar) : Prop :=
  ∃ declared, List.Forall₂ Block.Loads blocks declared ∧
    grammar.entries = declared ++ (undeclared blocks extensions).map (⟨·, none, none⟩)

theorem Holds.find?_block (h : Holds blocks extensions grammar) (hblock : block ∈ blocks) :
    ∃ entry, grammar.find? block.name = some entry ∧ block.Loads entry := by
  obtain ⟨declared, hdeclared, hentries⟩ := h
  obtain ⟨entry, hentry, hloads⟩ := exists_of_mem_right hdeclared.flip hblock
  have hfind := find?_of_mem (hentries ▸ List.mem_append_left _ hentry : entry ∈ grammar.entries)
  rw [hloads.name] at hfind
  exact ⟨entry, hfind, hloads⟩

/-- A loaded grammar holds the names of the blocks, and the extensions that no block declares. -/
theorem Holds.names (h : Holds blocks extensions grammar) :
    grammar.names = blocks.map Block.name ++ undeclared blocks extensions := by
  obtain ⟨declared, hdeclared, hentries⟩ := h
  rw [Grammar.names, hentries, List.map_append, names_of_loads hdeclared, List.map_map]
  exact congrArg _ (List.map_id _)

theorem mem_undeclared : name ∈ undeclared blocks extensions ↔
    name ∈ extensions ∧ name ∉ blocks.map Block.name := by
  rw [undeclared, List.mem_eraseDups, List.mem_filter, decide_eq_true_iff]

theorem undeclared_append (name : String) : undeclared blocks (extensions ++ [name]) =
    if name ∈ blocks.map Block.name ∨ name ∈ extensions then undeclared blocks extensions
    else undeclared blocks extensions ++ [name] := by
  rw [undeclared, undeclared, List.filter_append, List.eraseDups_append]
  by_cases hname : name ∈ blocks.map Block.name
  · rw [if_pos (.inl hname), List.filter_singleton, decide_eq_false (not_not.2 hname)]
    exact List.append_nil _
  · rw [List.filter_singleton, decide_eq_true hname, cond_true, List.removeAll, List.filter_singleton]
    have hmem : name ∈ extensions.filter (fun name => name ∉ blocks.map Block.name) ↔
        name ∈ extensions := by
      rw [List.mem_filter, decide_eq_true hname]
      exact and_iff_left rfl
    by_cases hext : name ∈ extensions
    · rw [if_pos (.inr hext), List.elem_eq_true_of_mem (hmem.2 hext)]
      exact List.append_nil _
    · have hnew : (extensions.filter fun name => name ∉ blocks.map Block.name).elem name = false := by
        rw [Bool.eq_false_iff, ne_eq, List.elem_iff]
        exact mt hmem.1 hext
      rw [if_neg (not_or.2 ⟨hname, hext⟩), hnew]
      rfl

theorem addExtension_conflicting (h : Holds blocks extensions grammar) (hblock : block ∈ blocks)
    (hbody : block.body ≠ []) : grammar.addExtension block.name =
      .error ⟨.definedExtension block.name, none, some block.name, some block.line⟩ := by
  obtain ⟨⟨title, made, line⟩, hfind, hloads⟩ := h.find?_block hblock
  obtain ⟨rule, rfl⟩ := Option.ne_none_iff_exists'.1 (mt hloads.body.eq_none_iff.1 hbody)
  obtain rfl : line = some block.line := hloads.line
  rw [addExtension, hfind]

/-- An extension point that no body is given for is declared once. -/
theorem addExtension_holds (h : Holds blocks extensions grammar)
    (hno : ¬ Conflicting blocks [name]) : ∃ grammar', grammar.addExtension name = .ok grammar' ∧
      Holds blocks (extensions ++ [name]) grammar' := by
  by_cases hname : name ∈ blocks.map Block.name ∨ name ∈ extensions
  · have hfind : ∃ line, grammar.find? name = some ⟨name, none, line⟩ := by
      by_cases hblock : name ∈ blocks.map Block.name
      · obtain ⟨block, hmem, rfl⟩ := List.mem_map.1 hblock
        obtain ⟨⟨title, made, line⟩, hfind, hloads⟩ := h.find?_block hmem
        have hempty : block.body = [] := by
          by_contra hbody
          exact hno ⟨block, hmem, List.mem_singleton_self _, hbody⟩
        obtain rfl : made = none := hloads.body.eq_none_iff.2 hempty
        obtain rfl : title = block.name := hloads.name
        exact ⟨line, hfind⟩
      · obtain ⟨declared, -, hentries⟩ := h
        have hmem : (⟨name, none, none⟩ : Entry) ∈ grammar.entries := by
          rw [hentries]
          exact List.mem_append_right _ (List.mem_map_of_mem
            (mem_undeclared.2 ⟨hname.resolve_left hblock, hblock⟩))
        exact ⟨none, find?_of_mem hmem⟩
    obtain ⟨line, hfind⟩ := hfind
    refine ⟨grammar, by rw [addExtension, hfind], ?_⟩
    rw [Holds, undeclared_append, if_pos hname]
    exact h
  · have hnew : name ∉ grammar.names := by
      rw [h.names, List.mem_append, mem_undeclared]
      exact fun hm => hname (hm.imp_right And.left)
    obtain ⟨declared, hdeclared, hentries⟩ := h
    refine ⟨grammar.put name none none, by rw [addExtension, find?_eq_none hnew], declared,
      hdeclared, ?_⟩
    rw [put_entries hnew, hentries, undeclared_append, if_neg hname, List.map_append,
      List.append_assoc]
    rfl

/-- Extension points without a conflict are declared one after another. -/
theorem addExtensions_holds {before : List String} (h : Holds blocks before grammar)
    (hno : ¬ Conflicting blocks extensions) : ∃ grammar',
      extensions.foldlM addExtension grammar = .ok grammar' ∧
        Holds blocks (before ++ extensions) grammar' := by
  induction extensions generalizing grammar before with
  | nil => exact ⟨grammar, rfl, (List.append_nil before).symm ▸ h⟩
  | cons name extensions ih =>
    have hfirst : ¬ Conflicting blocks [name] := fun ⟨block, hblock, hm, hbody⟩ =>
      hno ⟨block, hblock, List.mem_cons.2 (.inl (List.mem_singleton.1 hm)), hbody⟩
    have hrest : ¬ Conflicting blocks extensions := fun ⟨block, hblock, hm, hbody⟩ =>
      hno ⟨block, hblock, List.mem_cons_of_mem _ hm, hbody⟩
    obtain ⟨next, hnext, hholds⟩ := addExtension_holds h hfirst
    obtain ⟨grammar', hlast, hholds'⟩ := ih hholds hrest
    refine ⟨grammar', ?_, List.append_cons before name extensions ▸ hholds'⟩
    rw [List.foldlM_cons, hnext]
    exact hlast

theorem ofDocument_grouped (h : Block.Grouped 1 lines blocks) (extensions : List String) :
    ofDocument lines extensions =
      blocks.foldlM addBlock empty >>= fun rules => extensions.foldlM addExtension rules := by
  rw [ofDocument, Block.ofDocument, h.collectFrom]
  rfl

/-- Behind blocks without a fault only the extension points are left to be declared. -/
theorem ofDocument_clear (hgrouped : Block.Grouped 1 lines blocks) (hclear : Block.Clear blocks)
    (extensions : List String) : ∃ rules, Holds blocks [] rules ∧
      ofDocument lines extensions = extensions.foldlM addExtension rules := by
  obtain ⟨rules, hrules, hloads⟩ := addBlocks_clear hclear
  refine ⟨rules, ⟨_, hloads, (List.append_nil _).symm⟩, ?_⟩
  rw [ofDocument_grouped hgrouped, hrules]
  rfl

/-- A document without a fault in it has a grammar, which may be incomplete. -/
theorem ofDocument_holds (hgrouped : Block.Grouped 1 lines blocks) (hclear : Block.Clear blocks)
    (hno : ¬ Conflicting blocks extensions) : ∃ grammar,
      ofDocument lines extensions = .ok grammar ∧ Holds blocks extensions grammar := by
  obtain ⟨rules, hrules, hdocument⟩ := ofDocument_clear hgrouped hclear extensions
  rw [hdocument]
  exact addExtensions_holds hrules hno

theorem mentions_of_loads (h : List.Forall₂ Block.Loads blocks declared) :
    (declared.filterMap Entry.body).flatMap Rule.mentions = blocks.flatMap Block.mentions := by
  induction h with
  | nil => rfl
  | @cons block entry _ _ hloads _ ih =>
    rw [List.flatMap_cons, ← ih, Block.mentions]
    have hbody := hloads.body
    generalize block.body = text at hbody
    obtain ⟨title, made, line⟩ := entry
    cases hbody with
    | nothing => rfl
    | rule _ hrule =>
      rw [hrule]
      exact congrArg (· ++ _) (Rule.mentions_asBodyOf _ _)

/-- The missing names of a loaded grammar are the undefined ones of its blocks. -/
theorem Holds.missing (h : Holds blocks extensions grammar) :
    grammar.missing = undefined blocks extensions := by
  have hmentions : grammar.mentions = blocks.flatMap Block.mentions := by
    obtain ⟨declared, hdeclared, hentries⟩ := h
    have hnone : ((undeclared blocks extensions).map fun name =>
        (⟨name, none, none⟩ : Entry)).filterMap Entry.body = [] := by
      rw [List.filterMap_eq_nil_iff, List.forall_mem_map]
      exact fun _ _ => rfl
    rw [mentions, bodies, hentries, List.filterMap_append, hnone, List.append_nil,
      mentions_of_loads hdeclared]
  rw [Grammar.missing, undefined, hmentions]
  refine congrArg List.eraseDups (List.filter_congr fun name _ => ?_)
  have hdefined : grammar.contains name ↔ name ∈ blocks.map Block.name ∨ name ∈ extensions := by
    rw [contains_iff, h.names, List.mem_append, mem_undeclared]
    tauto
  rw [Bool.eq_iff_iff, Bool.not_eq_true', ← Bool.not_eq_true, hdefined, decide_eq_true_iff, not_or]

/-- Two grammars with the entries of one document are the same. -/
theorem Holds.unique {grammar' : Grammar} (h : Holds blocks extensions grammar)
    (h' : Holds blocks extensions grammar') : grammar = grammar' := by
  have hloads : ∀ {blocks : List Block} {declared declared' : List Entry},
      List.Forall₂ Block.Loads blocks declared → List.Forall₂ Block.Loads blocks declared' →
        declared = declared' := by
    intro blocks declared declared' h h'
    induction h generalizing declared' with
    | nil =>
      cases h'
      rfl
    | cons hentry _ ih =>
      cases h' with
      | cons hentry' h' => rw [ih h', hentry.unique hentry']
  obtain ⟨declared, hdeclared, hentries⟩ := h
  obtain ⟨declared', hdeclared', hentries'⟩ := h'
  cases grammar
  cases grammar'
  rw [hloads hdeclared hdeclared', ← hentries'] at hentries
  cases hentries
  rfl

theorem conflicting_or_not (blocks : List Block) (extensions : List String) :
    ¬ Conflicting blocks extensions ∨ ∃ before block after,
      extensions = before ++ block.name :: after ∧ ¬ Conflicting blocks before ∧ block ∈ blocks ∧
        block.body ≠ [] := by
  induction extensions using List.reverseRecOn with
  | nil => exact .inl fun ⟨_, _, hm, _⟩ => List.not_mem_nil hm
  | append_singleton extensions name ih =>
    rcases ih with hno | ⟨before, block, after, rfl, hno, hblock, hbody⟩
    · by_cases hconflict : Conflicting blocks [name]
      · obtain ⟨block, hblock, hm, hbody⟩ := hconflict
        obtain rfl := List.mem_singleton.1 hm
        exact .inr ⟨extensions, block, [], rfl, hno, hblock, hbody⟩
      · refine .inl fun ⟨block, hblock, hm, hbody⟩ => ?_
        rcases List.mem_append.1 hm with hm | hm
        · exact hno ⟨block, hblock, hm, hbody⟩
        · exact hconflict ⟨block, hblock, hm, hbody⟩
    · exact .inr ⟨before, block, after ++ [name], by simp, hno, hblock, hbody⟩

theorem exists_outcome (lines : List Text) (extensions : List String) :
    ∃ result, Outcome lines extensions result := by
  rcases Block.stray_or_grouped 1 lines with ⟨number, words, hstray⟩ | ⟨blocks, hgrouped⟩
  · exact ⟨_, .stray hstray⟩
  rcases Block.clear_or_offending blocks with hclear | ⟨front, block, back, error, rfl, hclear, ho⟩
  · rcases conflicting_or_not blocks extensions with hno | ⟨before, block, after, he, hno, hb, hbody⟩
    · by_cases hundefined : undefined blocks extensions = []
      · obtain ⟨grammar, -, declared, hdeclared, hentries⟩ := ofDocument_holds hgrouped hclear hno
        exact ⟨_, .complete hgrouped hclear hno hundefined hdeclared hentries⟩
      · exact ⟨_, .incomplete hgrouped hclear hno hundefined⟩
    · exact ⟨_, .conflicting hgrouped hclear he hno hb hbody⟩
  · exact ⟨_, .offending hgrouped hclear ho⟩

theorem load_of_ofDocument {error : SyntaxError} (h : ofDocument lines extensions = .error error) :
    load lines extensions = .error (.malformed error) := by
  rw [load, h]

theorem load_of_holds (h : ofDocument lines extensions = .ok grammar)
    (hholds : Holds blocks extensions grammar) : load lines extensions =
      if undefined blocks extensions = [] then .ok grammar
      else .error (.incomplete (undefined blocks extensions)) := by
  rw [load, h, ← hholds.missing]

/-- Loading comes to the outcome that the lines have. -/
theorem Outcome.load {result : Except GrammarError Grammar} (h : Outcome lines extensions result) :
    load lines extensions = result := by
  cases h with
  | stray hstray =>
    apply load_of_ofDocument
    rw [ofDocument, Block.ofDocument, hstray.collectFrom]
    rfl
  | @offending front block back error hgrouped hclear ho =>
    obtain ⟨rules, hrules, hloads⟩ := addBlocks_clear hclear
    apply load_of_ofDocument
    rw [ofDocument_grouped hgrouped, List.foldlM_append, hrules]
    change ((block :: back).foldlM addBlock rules >>= _) = _
    rw [List.foldlM_cons, addBlock_offends hloads ho]
    rfl
  | @conflicting blocks before block after hgrouped hclear he hno hb hbody =>
    obtain ⟨rules, hrules, hdocument⟩ := ofDocument_clear hgrouped hclear extensions
    obtain ⟨grammar, hgrammar, hholds⟩ := addExtensions_holds hrules hno
    apply load_of_ofDocument
    rw [hdocument, he, List.foldlM_append, hgrammar]
    change (block.name :: after).foldlM addExtension grammar = _
    rw [List.foldlM_cons, addExtension_conflicting hholds hb hbody]
    rfl
  | incomplete hgrouped hclear hno hundefined =>
    obtain ⟨grammar, hgrammar, hholds⟩ := ofDocument_holds hgrouped hclear hno
    rw [load_of_holds hgrammar hholds, if_neg hundefined]
  | complete hgrouped hclear hno hundefined hdeclared hentries =>
    obtain ⟨grammar, hgrammar, hholds⟩ := ofDocument_holds hgrouped hclear hno
    rw [load_of_holds hgrammar hholds, if_pos hundefined, hholds.unique ⟨_, hdeclared, hentries⟩]

theorem undefined_eq_nil : undefined blocks extensions = [] ↔ ∀ block ∈ blocks,
    ∀ name ∈ block.mentions, name ∈ blocks.map Block.name ∨ name ∈ extensions := by
  have hmem (name : String) : name ∈ undefined blocks extensions ↔
      (∃ block ∈ blocks, name ∈ block.mentions) ∧
        ¬ (name ∈ blocks.map Block.name ∨ name ∈ extensions) := by
    rw [undefined, List.mem_eraseDups, List.mem_filter, List.mem_flatMap, decide_eq_true_iff, not_or]
  rw [List.eq_nil_iff_forall_not_mem]
  constructor
  · intro h block hblock name hm
    by_contra hno
    exact h name ((hmem name).2 ⟨⟨block, hblock, hm⟩, hno⟩)
  · intro h name hm
    obtain ⟨⟨block, hblock, hm⟩, hno⟩ := (hmem name).1 hm
    exact hno (h block hblock name hm)

theorem not_conflicting : ¬ Conflicting blocks extensions ↔
    ∀ block ∈ blocks, block.name ∈ extensions → block.body = [] := by
  simp only [Conflicting, not_exists, not_and, Decidable.not_not]

/-- A rule is left without a body if its block is empty or it is an extension point. -/
theorem Holds.body_eq_none (h : Holds blocks extensions grammar)
    (hno : ¬ Conflicting blocks extensions) : ∀ entry ∈ grammar.entries, entry.body = none ↔
      (∃ block ∈ blocks, block.name = entry.name ∧ block.body = []) ∨ entry.name ∈ extensions := by
  intro entry hentry
  have hblock {block : Block} (hm : block ∈ blocks) (he : block.name = entry.name) :
      entry.body = none ↔ block.body = [] := by
    obtain ⟨entry', hfind, hloads⟩ := h.find?_block hm
    rw [he, find?_of_mem hentry] at hfind
    cases hfind
    exact hloads.body.eq_none_iff
  by_cases hname : entry.name ∈ blocks.map Block.name
  · obtain ⟨block, hm, he⟩ := List.mem_map.1 hname
    rw [hblock hm he]
    refine ⟨fun hbody => .inl ⟨block, hm, he, hbody⟩, ?_⟩
    rintro (⟨block', hm', he', hbody⟩ | hext)
    · exact (hblock hm he).1 ((hblock hm' he').2 hbody)
    · exact not_conflicting.1 hno block hm (he ▸ hext)
  · obtain ⟨declared, hdeclared, hentries⟩ := h
    rw [hentries, List.mem_append] at hentry
    have hdeclared' : entry ∉ declared := fun hm =>
      hname (names_of_loads hdeclared ▸ List.mem_map_of_mem hm)
    obtain ⟨name, hundeclared, rfl⟩ := List.mem_map.1 (hentry.resolve_left hdeclared')
    exact ⟨fun _ => .inr (mem_undeclared.1 hundeclared).1, fun _ => rfl⟩

/-- Loading comes to one outcome. It is a grammar just where no line stands before any head, the
blocks have names of their own and bodies that are empty or compile, none with a body has the name of
an extension point, and all names that are referred to are those of blocks and extension points. The
grammar has these names, those of the blocks first, and leaves empty blocks and extension points
without a body. -/
theorem load_outcome (lines : List Text) (extensions : List String) :
    (∀ result, load lines extensions = result ↔ Outcome lines extensions result) ∧
    ((∃ grammar, load lines extensions = .ok grammar) ↔
      (¬ ∃ number words, Block.Stray 1 lines number words) ∧ ∃ blocks,
        Block.Grouped 1 lines blocks ∧ (blocks.map Block.name).Nodup ∧
        (∀ block ∈ blocks, block.body ≠ [] → ∃ rule, Rule.compile block.body = .ok rule) ∧
        (∀ block ∈ blocks, block.name ∈ extensions → block.body = []) ∧
        ∀ block ∈ blocks, ∀ name ∈ block.mentions,
          name ∈ blocks.map Block.name ∨ name ∈ extensions) ∧
    ∀ grammar, load lines extensions = .ok grammar → ∃ blocks, Block.Grouped 1 lines blocks ∧
      grammar.names = blocks.map Block.name ++ undeclared blocks extensions ∧
      ∀ entry ∈ grammar.entries, entry.body = none ↔
        (∃ block ∈ blocks, block.name = entry.name ∧ block.body = []) ∨
          entry.name ∈ extensions := by
  have hload (result : Except GrammarError Grammar) :
      load lines extensions = result ↔ Outcome lines extensions result := by
    refine ⟨fun h => ?_, Outcome.load⟩
    obtain ⟨result', houtcome⟩ := exists_outcome lines extensions
    rwa [← h, houtcome.load]
  refine ⟨hload, ⟨?_, ?_⟩, ?_⟩
  · rintro ⟨grammar, h⟩
    cases (hload _).1 h with
    | @complete blocks _ _ hgrouped hclear hno hundefined hdeclared hentries =>
      refine ⟨?_, blocks, hgrouped, hclear.distinct, ?_, not_conflicting.1 hno,
        undefined_eq_nil.1 hundefined⟩
      · rintro ⟨number, words, hstray⟩
        cases hstray.collectFrom.symm.trans hgrouped.collectFrom
      · exact fun block hblock hbody => (hclear.sound block hblock).resolve_left hbody
  · rintro ⟨-, blocks, hgrouped, hdistinct, hsound, hno, hdefined⟩
    have hclear : Block.Clear blocks := ⟨hdistinct, fun block hblock =>
      or_iff_not_imp_left.2 (hsound block hblock)⟩
    obtain ⟨grammar, hgrammar, hholds⟩ := ofDocument_holds hgrouped hclear (not_conflicting.2 hno)
    refine ⟨grammar, ?_⟩
    rw [load_of_holds hgrammar hholds, if_pos (undefined_eq_nil.2 hdefined)]
  · intro grammar h
    cases (hload _).1 h with
    | @complete blocks _ _ hgrouped hclear hno hundefined hdeclared hentries =>
      have hholds : Holds blocks extensions grammar := ⟨_, hdeclared, hentries⟩
      exact ⟨blocks, hgrouped, hholds.names, hholds.body_eq_none hno⟩

end Grammar
end OrderedBnf
