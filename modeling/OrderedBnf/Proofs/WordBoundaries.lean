import OrderedBnf.Proofs.Completeness
import OrderedBnf.Proofs.Fitting
import OrderedBnf.Proofs.Literals
import OrderedBnf.Proofs.Written

/-! Words in the trees of the curly-brace languages: no leaf ends within a word of the text, and no
identifier is a reserved word. -/
namespace OrderedBnf

namespace Grammar
variable {grammar : Grammar} {word : Text}

/-- The reserved words are the literals, anywhere in the grammar, that begin with a letter. -/
theorem mem_keywords : word ∈ grammar.keywords ↔
    ∃ node ∈ grammar.nodes, node.kind = .token ∧ node.literal = word ∧ word.head?.any isLetter := by
  simp only [keywords, List.mem_eraseDups, List.mem_filter, List.mem_flatMap, List.mem_filterMap,
    nodes]
  constructor
  · rintro ⟨⟨body, hb, node, hn, hw⟩, hletter⟩
    split at hw
    · cases hw
      exact ⟨node, ⟨body, hb, hn⟩, ‹_›, rfl, hletter⟩
    · cases hw
  · rintro ⟨node, ⟨body, hb, hn⟩, hk, rfl, hletter⟩
    exact ⟨⟨body, hb, node, hn, by rw [if_pos hk]⟩, hletter⟩

end Grammar

namespace Reader
variable {r : Reader}

/-- Every node of a tree was matched against a node of the grammar, and a leaf is one that this
terminal has. -/
theorem Fits.of_mem_walk {rule : Rule} {start : Nat} {tree : ParseTree}
    (hf : r.Fits rule start tree) (hr : rule ∈ r.grammar.nodes) {m : Match} (hm : m ∈ tree.walk) :
    m.rule ∈ r.grammar.nodes ∧
      ((∃ start, r.Matches m.rule start m) ∨ ∀ form o, m.rule ≠ .leaf form o) := by
  refine Fits.ind (motive := fun rule _ tree => rule ∈ r.grammar.nodes → ∀ m ∈ tree.walk,
    m.rule ∈ r.grammar.nodes ∧
      ((∃ start, r.Matches m.rule start m) ∨ ∀ form o, m.rule ≠ .leaf form o))
    (fun rule start tree hf hr m hm => ?_) hf hr m hm
  cases hf with
  | leaf hleaf =>
    cases List.mem_singleton.1 hm
    rw [hleaf.rule_eq]
    exact ⟨hr, .inl ⟨start, hleaf⟩⟩
  | reference hb hf => exact hf.2 (Grammar.body_mem_nodes hb) m hm
  | node hb _ hrule _ =>
    rcases List.mem_cons.1 hm with rfl | hm
    · rw [hrule]
      refine ⟨hr, .inr fun form o ho => ?_⟩
      subst ho
      cases hb
    · obtain ⟨t, ht, hm⟩ := Tree.mem_walkAll.1 hm
      obtain ⟨part, hpart, start, hf⟩ := hb.mem ht
      exact hf.2 (Grammar.mem_nodes hr hpart) m hm

theorem Matches.of_identifier {rule : Rule} {start : Nat} {m : Match} (h : r.Matches rule start m)
    (hk : rule.kind = .identifierKeyword) :
    r.lexis.isKeyword (m.covered r.text) = false ∧
      ¬ (r.rest m.stop).head?.any isIdentifierChar := by
  cases h with
  | anyIdentifier _ _ _ hreads hnext hword =>
    refine ⟨?_, Bool.eq_false_iff.1 hnext⟩
    rw [Match.covered, hreads.covered]
    exact hword
  | _ => cases hk

theorem Matches.of_keyword {rule : Rule} {start : Nat} {m : Match} (h : r.Matches rule start m)
    (hk : rule.kind = .token) (hne : rule.literal ≠ []) (hkeyword : r.lexis.isKeyword rule.literal) :
    ¬ (r.rest m.stop).head?.any isIdentifierChar := by
  cases h with
  | nothing hnil => exact absurd hnil hne
  | literal hword _ _ hruns =>
    subst hword
    exact fun hnext => hruns (.inr ⟨hkeyword, hnext⟩)
  | _ => cases hk

end Reader

namespace CurlyBrace
variable {grammar : Grammar} {text : Text}

theorem isKeyword_iff {word : Text} :
    (language grammar).lexis.isKeyword word ↔ word ∈ grammar.keywords :=
  List.contains_iff_mem

theorem rest_head? (grammar : Grammar) (text : Text) (stop : Nat) :
    (((language grammar).reader text).rest stop).head? = text[stop]? := by
  change (text.window stop text.length).head? = _
  rw [Text.window_length, List.head?_drop]

/-- Every leaf of the identifiers of a parse is a whole word of the text and no literal of the
grammar that begins with a letter, and every leaf of such a literal is a whole word. -/
theorem parse_words {start : String} {filename : Option String} {tree : ParseTree}
    (h : (language grammar).parse start text filename = .ok tree) : ∀ m ∈ tree.walk,
      (m.rule.kind = .identifierKeyword →
        (∀ node ∈ grammar.nodes, node.kind = .token → node.literal.head?.any isLetter →
          m.covered text ≠ node.literal) ∧ ¬ text[m.stop]?.any isIdentifierChar) ∧
      (m.rule.kind = .token → m.rule.literal.head?.any isLetter →
        ¬ text[m.stop]?.any isIdentifierChar) := by
  intro m hm
  obtain ⟨body, hb, hrun, -⟩ := Language.parse_ok h
  have hfits : ((language grammar).reader text).Fits body 0 tree :=
    Reader.run_fits (advances grammar text) _ hrun (Nat.zero_le _)
  obtain ⟨hnode, ⟨start, hmatches⟩ | hnone⟩ := hfits.of_mem_walk (Grammar.body_mem_nodes hb) hm
  · constructor
    · intro hk
      obtain ⟨hword, hnext⟩ := hmatches.of_identifier hk
      refine ⟨fun node hn htoken hletter he => ?_, rest_head? grammar text m.stop ▸ hnext⟩
      have hreserved : m.covered text ∈ grammar.keywords :=
        Grammar.mem_keywords.2 ⟨node, hn, htoken, he.symm, he ▸ hletter⟩
      exact Bool.false_ne_true (hword.symm.trans (isKeyword_iff.2 hreserved))
    · intro hk hletter
      have hreserved : m.rule.literal ∈ grammar.keywords :=
        Grammar.mem_keywords.2 ⟨m.rule, hnode, hk, rfl, hletter⟩
      have hne : m.rule.literal ≠ [] := fun hnil => by
        rw [hnil] at hletter
        cases hletter
      have hnext := hmatches.of_keyword hk hne (isKeyword_iff.2 hreserved)
      exact rest_head? grammar text m.stop ▸ hnext
  · have hcomposite : m.rule.kind ≠ .identifierKeyword ∧ m.rule.kind ≠ .token := by
      cases hrule : m.rule with
      | leaf form o => exact absurd hrule (hnone form o)
      | _ => exact ⟨nofun, nofun⟩
    exact ⟨fun hk => absurd hk hcomposite.1, fun hk => absurd hk hcomposite.2⟩

/-- A loop over a name that begins with a reserved word. -/
theorem loop_words : ∃ grammar tree,
    Grammar.load ["Loop: 'while' '(' IDENTIFIER ')'".toList] [] = .ok grammar ∧
      (language grammar).parse "Loop" "while(whiles)".toList none = .ok tree ∧
      ∀ m ∈ tree.walk, m.rule.kind = .identifierKeyword →
        m.covered "while(whiles)".toList ≠ "while".toList := by
  have hrun : (Grammar.load ["Loop: 'while' '(' IDENTIFIER ')'".toList] []).toOption.any
      fun grammar => decide ("while".toList ∈ grammar.keywords) &&
        ((language grammar).parse "Loop" "while(whiles)".toList none).toOption.isSome := by
    decide +kernel
  obtain ⟨grammar, hload, hrun⟩ := exists_of_any hrun
  obtain ⟨hkeyword, hrun⟩ := Bool.and_eq_true_iff.1 hrun
  obtain ⟨node, hn, hk, hword, hletter⟩ := Grammar.mem_keywords.1 (of_decide_eq_true hkeyword)
  cases hparse : (language grammar).parse "Loop" "while(whiles)".toList none with
  | error =>
    rw [hparse] at hrun
    cases hrun
  | ok tree =>
    refine ⟨grammar, tree, hload, hparse, fun m hm hrule => ?_⟩
    exact hword ▸ ((parse_words hparse m hm).1 hrule).1 node hn hk (hword ▸ hletter)

end CurlyBrace
end OrderedBnf
