import OrderedBnf.Grammar.Load
import OrderedBnf.Proofs.Compiled
import OrderedBnf.Proofs.Nesting

/-! Grammars as they are loaded: what their references are written as, and that the grammar has the
rules they refer to. -/
namespace OrderedBnf

namespace Rule

theorem reserved?_form {word : Text} {form : Leaf} (h : reserved? word = some form) :
    form ≠ .literal ∧ form ≠ .reference := by
  rw [reserved?] at h
  split at h
  · cases h
    decide
  · split at h
    · cases h
      decide
    · split at h
      · cases h
        decide
      · cases h

theorem leaf_of_kind (form : Leaf) {node : Rule} (h : node.kind = form.kind) :
    ∃ o, node = .leaf form o := by
  cases node with
  | leaf form' o => cases form <;> cases form' <;> first | exact ⟨o, rfl⟩ | cases h
  | _ => cases form <;> cases h

section Leaves
variable {text : Text} {form : Leaf} {o q : Origin}

theorem leaf_mem_withOrigin {rule : Rule} (h : leaf form o ∈ (rule.withOrigin q).nodes) :
    leaf form o ∈ rule.nodes ∨ (∃ o', rule = leaf form o') ∧ o = q := by
  cases rule <;> simp_all [withOrigin, nodes]

/-- Brackets make no leaf of their own. -/
theorem leaf_mem_bracket {s : Stretch} {opening : Char} {body : Rule} :
    leaf form o ∈ (bracket text s opening body).nodes ↔ leaf form o ∈ body.nodes := by
  unfold bracket
  by_cases hgroup : opening = '('
  · cases body <;> simp [hgroup, withOrigin, nodes]
  · by_cases hoptional : opening = '[' <;> simp [hgroup, hoptional, nodes]

/-- The leaves of the two sides of a cut are all there are. -/
theorem leaf_mem_join {cut : Cut} {left right : Rule} :
    leaf form o ∈ (join text cut left right).nodes ↔
      leaf form o ∈ left.nodes ∨ leaf form o ∈ right.nodes := by
  cases cut <;> cases right <;> simp [join, nodes, nodesOfAll]

end Leaves

mutual
theorem nodes_partOf (home : String) : ∀ rule : Rule,
    (rule.partOf home).nodes = rule.nodes.map (partOf home)
  | leaf .. => rfl
  | sequence rules o | choice rules o => by
    rw [partOf, nodes, nodes, List.map_cons, partOf, nodesOfAll_partsOf home rules]
  | optional body o | repetition body o => by
    rw [partOf, nodes, nodes, List.map_cons, partOf, nodes_partOf home body]

theorem nodesOfAll_partsOf (home : String) : ∀ rules : List Rule,
    nodesOfAll (partsOf home rules) = (nodesOfAll rules).map (partOf home)
  | [] => rfl
  | rule :: rest => by
    rw [partsOf, nodesOfAll, nodesOfAll, List.map_append, nodes_partOf home rule,
      nodesOfAll_partsOf home rest]
end

def Named (rule : Rule) : Prop := ∀ o, leaf .reference o ∈ rule.nodes →
  isIdentifier (leaf .reference o).writtenAs ∧ reserved? (leaf .reference o).writtenAs = none

/-- A leaf is the word of an uncut stretch. -/
theorem Compiled.leaf_word {text : Text} {s : Stretch} {rule : Rule} (h : Compiled text s rule)
    {form : Leaf} {o : Origin} : s.Within text → Rule.leaf form o ∈ rule.nodes →
      ∃ s' : Stretch, s'.cut? = .ok none ∧ Opaque form s'.chars ∧
        (Rule.leaf form o).writtenAs = s'.chars := by
  induction h with
  | @leaf s form' hc hword =>
    intro hw ho
    obtain ⟨rfl, rfl⟩ : form = form' ∧ o = ⟨s.start, s.stop, false, none, text⟩ := by
      simpa [nodes] using ho
    exact ⟨s, hc, hword, hw.window⟩
  | bracket _ hs _ _ _ ih => exact fun hw ho => ih (hw.inner hs).trim (leaf_mem_bracket.1 ho)
  | cut hc _ _ ihl ihr =>
    intro hw ho
    rcases leaf_mem_join.1 ho with ho | ho
    · exact ihl (hw.before _).trim ho
    · exact ihr (hw.after (Stretch.cut?_offset_lt hc)).trim ho

/-- The references of a compiled rule are identifiers, and no reserved words. -/
theorem Compiled.named {text : Text} {s : Stretch} {rule : Rule} (h : Compiled text s rule)
    (hw : s.Within text) : rule.Named := by
  intro o ho
  obtain ⟨s', -, hword, hs⟩ := h.leaf_word hw ho
  rw [hs]
  generalize s'.chars = word at hword
  cases hword with
  | reserved hr => exact absurd rfl (reserved?_form hr).2
  | reference hi hr => exact ⟨hi, hr⟩

theorem compile_named {text : Text} {rule : Rule} (h : compile text = .ok rule) : rule.Named :=
  (compile_ok h).2.named (Stretch.Within.trim ⟨[], [], by simp, rfl⟩)

theorem Named.asBodyOf {rule : Rule} (h : rule.Named) (name : String) :
    (rule.asBodyOf name).Named := by
  have hpart : (rule.partOf name).Named := by
    intro o ho
    rw [nodes_partOf, List.mem_map] at ho
    obtain ⟨node, hm, he⟩ := ho
    cases node with
    | leaf form o' =>
      cases he
      exact h o' hm
    | _ => cases he
  intro o ho
  rcases leaf_mem_withOrigin ho with ho | ⟨⟨o', he⟩, rfl⟩
  · exact hpart o ho
  · rw [he]
    exact hpart o' (he ▸ self_mem_nodes _)

end Rule

/-- What every step keeps, a chain of steps keeps. -/
private theorem keeps_foldlM {σ α ε : Type} {good : σ → Prop} {step : σ → α → Except ε σ}
    (h : ∀ s x s', good s → step s x = .ok s' → good s') (xs : List α) :
    ∀ {s s'}, good s → xs.foldlM step s = .ok s' → good s' := by
  induction xs with
  | nil =>
    intro s s' hs he
    cases he
    exact hs
  | cons x xs ih =>
    intro s s' hs he
    rw [List.foldlM_cons] at he
    cases hx : step s x with
    | error => simp [hx, bind, Except.bind] at he
    | ok next =>
      simp only [hx, bind, Except.bind] at he
      exact ih (h s x next hs hx) he

namespace Grammar
variable {grammar : Grammar}

def Named (grammar : Grammar) : Prop := ∀ body ∈ grammar.bodies, body.Named

/-- A grammar contains the names that are in its table. -/
theorem contains_iff {name : String} : grammar.contains name ↔ name ∈ grammar.names := by
  simp [contains, find?, names, List.find?_isSome]

theorem body?_ne_none {name : String} (h : name ∈ grammar.names) : grammar.body? name ≠ none := by
  rw [body?, ne_eq, Option.map_eq_none_iff, ← ne_eq, ← Option.isSome_iff_ne_none]
  exact contains_iff.2 h

theorem Named.put (h : grammar.Named) {name : String} {body : Option Rule} (line : Option Nat)
    (hn : grammar.find? name = none) (hb : ∀ rule, body = some rule → rule.Named) :
    (grammar.put name body line).Named := by
  have hnew : name ∉ grammar.names := by
    rw [← contains_iff, contains, hn]
    exact Bool.false_ne_true
  have hentries : (grammar.put name body line).bodies =
      grammar.bodies ++ (body.map (·.asBodyOf name)).toList := by
    rw [Grammar.put, dif_neg hnew, bodies, List.filterMap_append]
    cases body <;> rfl
  intro rule hr
  rw [hentries, List.mem_append] at hr
  rcases hr with hr | hr
  · exact h rule hr
  · obtain ⟨rule', rfl, rfl⟩ := Option.map_eq_some_iff.1 (Option.mem_toList.1 hr)
    exact (hb rule' rfl).asBodyOf name

/-- Adding a block keeps the references of a grammar identifiers, and no reserved words. -/
theorem Named.addBlock (h : grammar.Named) {block : Block} {grammar' : Grammar}
    (he : grammar.addBlock block = .ok grammar') : grammar'.Named := by
  rw [Grammar.addBlock] at he
  split at he
  · cases he
  · rename_i hn
    split at he
    · cases he
      exact h.put _ hn fun _ h => by cases h
    · split at he
      · rename_i body hc
        cases he
        refine h.put _ hn fun rule hr => ?_
        cases hr
        exact Rule.compile_named hc
      · cases he

theorem Named.addExtension (h : grammar.Named) {name : String} {grammar' : Grammar}
    (he : grammar.addExtension name = .ok grammar') : grammar'.Named := by
  rw [Grammar.addExtension] at he
  split at he
  · cases he
  · cases he
    exact h
  · cases he
    exact h.put _ ‹_› fun _ h => by cases h

theorem ofDocument_named {lines : List Text} {extensions : List String}
    (h : ofDocument lines extensions = .ok grammar) : grammar.Named := by
  rw [ofDocument] at h
  cases hblocks : Block.ofDocument lines with
  | error => simp [hblocks, bind, Except.bind] at h
  | ok blocks =>
    cases hrules : blocks.foldlM Grammar.addBlock empty with
    | error => simp [hblocks, hrules, bind, Except.bind] at h
    | ok rules =>
      simp only [hblocks, hrules, bind, Except.bind] at h
      have hnamed : rules.Named := keeps_foldlM (fun _ _ _ h he => Named.addBlock h he) blocks
        (fun _ h => absurd h List.not_mem_nil) hrules
      exact keeps_foldlM (fun _ _ _ h he => Named.addExtension h he) extensions hnamed h

/-- What the empty grammar has and every new rule keeps, the grammar of a document has. -/
theorem ofDocument_keeps {good : Grammar → Prop} (hempty : good empty)
    (hput : ∀ grammar name body line, good grammar → good (grammar.put name body line))
    {lines : List Text} {extensions : List String} (h : ofDocument lines extensions = .ok grammar) :
    good grammar := by
  have hblock (grammar : Grammar) (block : Block) (grammar' : Grammar) (hg : good grammar)
      (he : grammar.addBlock block = .ok grammar') : good grammar' := by
    rw [Grammar.addBlock] at he
    split at he
    · cases he
    · split at he
      · cases he
        exact hput _ _ _ _ hg
      · split at he <;> cases he
        exact hput _ _ _ _ hg
  have hextension (grammar : Grammar) (name : String) (grammar' : Grammar) (hg : good grammar)
      (he : grammar.addExtension name = .ok grammar') : good grammar' := by
    rw [Grammar.addExtension] at he
    split at he <;> cases he
    · exact hg
    · exact hput _ _ _ _ hg
  rw [ofDocument] at h
  cases hblocks : Block.ofDocument lines with
  | error => simp [hblocks, bind, Except.bind] at h
  | ok blocks =>
    cases hrules : blocks.foldlM Grammar.addBlock empty with
    | error => simp [hblocks, hrules, bind, Except.bind] at h
    | ok rules =>
      simp only [hblocks, hrules, bind, Except.bind] at h
      exact keeps_foldlM hextension extensions (keeps_foldlM hblock blocks hempty hrules) h

theorem mem_names_of_missing (h : grammar.missing = []) {body : Rule} (hb : body ∈ grammar.bodies) :
    body.mentions ⊆ grammar.names := by
  intro name hn
  by_contra hc
  have hm : name ∈ grammar.missing := by
    rw [missing, List.mem_eraseDups, List.mem_filter]
    refine ⟨List.mem_flatMap.2 ⟨body, hb, hn⟩, ?_⟩
    simpa [← contains_iff] using hc
  rw [h] at hm
  exact List.not_mem_nil hm

/-- A loaded grammar has the rules that its references name, and these are identifiers and no
reserved words. -/
theorem load_ok {lines : List Text} {extensions : List String}
    (h : load lines extensions = .ok grammar) :
    grammar.Named ∧ ∀ body ∈ grammar.bodies, body.mentions ⊆ grammar.names := by
  rw [load] at h
  split at h
  · cases h
  · rename_i grammar' hd
    split at h
    · cases h
      exact ⟨ofDocument_named hd, fun _ => mem_names_of_missing ‹_›⟩
    · cases h

end Grammar
end OrderedBnf
