import OrderedBnf.Proofs.Completeness

/-! Loading step by step: each block adds an entry of its own, and each extension point at most one
that has no line. -/
namespace OrderedBnf

/-- What the loader makes of a body: nothing of an empty one, else what it compiles to. -/
inductive Block.Makes (name : String) : Text → Option Rule → Prop
  | nothing : Makes name [] none
  | rule {body rule} : body ≠ [] → Rule.compile body = .ok rule →
      Makes name body (some (rule.asBodyOf name))

def Block.Sound (block : Block) : Prop :=
  block.body = [] ∨ ∃ rule, Rule.compile block.body = .ok rule

theorem Block.Makes.sound {block : Block} {body : Option Rule}
    (h : Makes block.name block.body body) : block.Sound := by
  rw [Sound]
  generalize block.body = text at h
  cases h with
  | nothing => exact .inl rfl
  | rule _ hrule => exact .inr ⟨_, hrule⟩

structure Block.Loads (block : Block) (entry : Entry) : Prop where
  name : entry.name = block.name
  line : entry.line = some block.line
  body : Makes block.name block.body entry.body

theorem exists_of_mem_right {α β : Type} {R : α → β → Prop} {as : List α} {bs : List β}
    (h : List.Forall₂ R as bs) {b : β} (hb : b ∈ bs) : ∃ a ∈ as, R a b := by
  induction h with
  | nil => cases hb
  | cons hr _ ih =>
    rcases List.mem_cons.1 hb with rfl | hb
    · exact ⟨_, List.mem_cons_self, hr⟩
    · obtain ⟨a, ha, hr⟩ := ih hb
      exact ⟨a, List.mem_cons_of_mem _ ha, hr⟩

theorem names_of_loads {blocks : List Block} {declared : List Entry}
    (h : List.Forall₂ Block.Loads blocks declared) :
    declared.map Entry.name = blocks.map Block.name := by
  induction h with
  | nil => rfl
  | cons hentry _ ih => rw [List.map_cons, List.map_cons, hentry.name, ih]

namespace Grammar
variable {grammar grammar' : Grammar} {block : Block} {blocks : List Block} {name : String}
  {extensions : List String} {lines : List Text}

theorem not_mem_names (h : grammar.find? name = none) : name ∉ grammar.names := by
  rw [← contains_iff, contains, h]
  exact Bool.false_ne_true

theorem put_entries (h : name ∉ grammar.names) (body : Option Rule) (line : Option Nat) :
    (grammar.put name body line).entries =
      grammar.entries ++ [⟨name, body.map (·.asBodyOf name), line⟩] := by
  rw [put, dif_neg h]

theorem addBlock_ok (h : grammar.addBlock block = .ok grammar') :
    ∃ entry, block.Loads entry ∧ grammar'.entries = grammar.entries ++ [entry] := by
  rw [addBlock] at h
  split at h
  · cases h
  · rename_i hnew
    split at h
    · rename_i hbody
      cases h
      exact ⟨_, ⟨rfl, rfl, hbody ▸ .nothing⟩, put_entries (not_mem_names hnew) none _⟩
    · rename_i hbody
      split at h
      · rename_i rule hrule
        cases h
        exact ⟨_, ⟨rfl, rfl, .rule hbody hrule⟩, put_entries (not_mem_names hnew) _ _⟩
      · cases h

/-- Blocks that are added one after the other leave an entry each, in their order. -/
theorem addBlocks_ok (h : blocks.foldlM addBlock grammar = .ok grammar') :
    ∃ declared, List.Forall₂ Block.Loads blocks declared ∧
      grammar'.entries = grammar.entries ++ declared := by
  induction blocks generalizing grammar with
  | nil =>
    cases h
    exact ⟨[], .nil, (List.append_nil _).symm⟩
  | cons block blocks ih =>
    rw [List.foldlM_cons] at h
    cases hblock : grammar.addBlock block with
    | error => simp [hblock, bind, Except.bind] at h
    | ok next =>
      simp only [hblock, bind, Except.bind] at h
      obtain ⟨entry, hentry, hnext⟩ := addBlock_ok hblock
      obtain ⟨declared, hdeclared, hlast⟩ := ih h
      exact ⟨entry :: declared, .cons hentry hdeclared, by rw [hlast, hnext, List.append_assoc]; rfl⟩

theorem find?_eq_none (h : name ∉ grammar.names) : grammar.find? name = none := by
  cases hf : grammar.find? name with
  | none => rfl
  | some => exact absurd (contains_iff.1 (by rw [contains, hf]; rfl)) h

/-- A block that compiles is added to a grammar that has no rule of its name. -/
theorem addBlock_new (h : block.Sound) (hnew : block.name ∉ grammar.names) :
    ∃ grammar', grammar.addBlock block = .ok grammar' := by
  rw [addBlock, find?_eq_none hnew]
  dsimp only
  split
  · exact ⟨_, rfl⟩
  · rename_i hbody
    obtain ⟨rule, hrule⟩ := h.resolve_left hbody
    rw [hrule]
    exact ⟨_, rfl⟩

/-- Sound blocks with names of their own are added without an error. -/
theorem addBlocks_new (h : ∀ b ∈ blocks, b.Sound)
    (hnew : (grammar.names ++ blocks.map Block.name).Nodup) :
    ∃ grammar', blocks.foldlM addBlock grammar = .ok grammar' := by
  induction blocks generalizing grammar with
  | nil => exact ⟨grammar, rfl⟩
  | cons block blocks ih =>
    have hname : block.name ∉ grammar.names := fun hm =>
      (List.nodup_append.1 hnew).2.2 _ hm _ List.mem_cons_self rfl
    obtain ⟨next, hnext⟩ := addBlock_new (h block List.mem_cons_self) hname
    obtain ⟨entry, hentry, hentries⟩ := addBlock_ok hnext
    have hnames : next.names = grammar.names ++ [block.name] := by
      rw [names, hentries, List.map_append, List.map_singleton, hentry.name]
      rfl
    obtain ⟨grammar', hlast⟩ := @ih next (fun b hb => h b (List.mem_cons_of_mem _ hb)) (by
      rw [hnames, List.append_assoc]
      exact hnew)
    refine ⟨grammar', ?_⟩
    rw [List.foldlM_cons, hnext]
    exact hlast

theorem addExtensions_ok (h : extensions.foldlM addExtension grammar = .ok grammar') :
    ∃ added, (∀ entry ∈ added, entry.name ∈ extensions ∧ entry.line = none) ∧
      grammar'.entries = grammar.entries ++ added := by
  induction extensions generalizing grammar with
  | nil =>
    cases h
    exact ⟨[], fun _ h => absurd h List.not_mem_nil, (List.append_nil _).symm⟩
  | cons name extensions ih =>
    rw [List.foldlM_cons] at h
    cases hname : grammar.addExtension name with
    | error => simp [hname, bind, Except.bind] at h
    | ok next =>
      simp only [hname, bind, Except.bind] at h
      obtain ⟨added, hadded, hlast⟩ := ih h
      have hadded' : ∀ entry ∈ added, entry.name ∈ name :: extensions ∧ entry.line = none :=
        fun entry he => (hadded entry he).imp_left (List.mem_cons_of_mem _)
      rw [addExtension] at hname
      split at hname
      · cases hname
      · cases hname
        exact ⟨added, hadded', hlast⟩
      · rename_i hnew
        cases hname
        rw [put_entries (not_mem_names hnew), List.append_assoc] at hlast
        exact ⟨_, List.forall_mem_cons.2 ⟨⟨List.mem_cons_self, rfl⟩, hadded'⟩, hlast⟩

/-- The entries of a loaded grammar: those of the blocks of its document, in order, and after them
those of the extension points that the document does not name. -/
theorem load_entries (h : load lines extensions = .ok grammar) : ∃ blocks declared added,
    Block.ofDocument lines = .ok blocks ∧ List.Forall₂ Block.Loads blocks declared ∧
      (∀ entry ∈ added, entry.name ∈ extensions ∧ entry.line = none) ∧
      grammar.entries = declared ++ added := by
  rw [load] at h
  split at h
  · cases h
  · rename_i loaded hd
    split at h
    · cases h
      rw [ofDocument] at hd
      cases hblocks : Block.ofDocument lines with
      | error => simp [hblocks, bind, Except.bind] at hd
      | ok blocks =>
        cases hrules : blocks.foldlM addBlock empty with
        | error => simp [hblocks, hrules, bind, Except.bind] at hd
        | ok rules =>
          simp only [hblocks, hrules, bind, Except.bind] at hd
          obtain ⟨declared, hdeclared, hentries⟩ := addBlocks_ok hrules
          obtain ⟨added, hadded, hlast⟩ := addExtensions_ok hd
          exact ⟨blocks, declared, added, rfl, hdeclared, hadded, by rw [hlast, hentries]; rfl⟩
    · cases h

/-- A name is that of one entry only. -/
theorem find?_of_mem {entry : Entry} (h : entry ∈ grammar.entries) :
    grammar.find? entry.name = some entry := by
  cases hf : grammar.find? entry.name with
  | none => exact absurd (List.mem_map_of_mem h) (not_mem_names hf)
  | some found =>
    have hname : found.name = entry.name := by simpa using List.find?_some hf
    rw [List.inj_on_of_nodup_map grammar.distinct (List.mem_of_find?_eq_some hf) h hname]

theorem line?_of_mem {entry : Entry} (h : entry ∈ grammar.entries) :
    grammar.line? entry.name = entry.line := by
  rw [line?, find?_of_mem h]
  rfl

end Grammar
end OrderedBnf
