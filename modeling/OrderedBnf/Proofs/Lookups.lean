import OrderedBnf.StatementTrace
import OrderedBnf.Proofs.Completeness
import OrderedBnf.Proofs.Failing
import OrderedBnf.Proofs.Restriction
import OrderedBnf.Proofs.Termination

/-! Parsing with a loaded grammar: no rule that is looked up is missing. -/
namespace OrderedBnf

namespace Failure

inductive Within : Failure → Failure → Prop
  | self {failure} : Within failure failure
  | cause {failure cause whole} : cause ∈ whole.causes → Within failure cause →
      Within failure whole

def Unknown (failure : Failure) : Prop := "Unknown definition".toList <+: failure.message.toList

/-- Whether a reason is worded by the matcher itself, and not by the name of a rule or by an
extension. -/
def Worded : Reason → Prop
  | .undefinedRule _ | .extension _ | .stated _ | .statedRecursion _ => False
  | _ => True

theorem not_unknown {reason : Reason} {attempted : Int} {causes : List Failure}
    (h : Worded reason) : ¬ (because reason attempted causes).Unknown := by
  intro hu
  rw [Unknown, message, Failure.reason] at hu
  delta Reason.message at hu
  cases reason with
  | undefinedRule | extension | stated | statedRecursion => exact h
  | _ => simp [String.toList_append] at hu

/-- The name of a rule does not run on into a message. -/
theorem not_unknown_extension {name : String} {attempted : Int} {causes : List Failure}
    (h : isIdentifier name.toList) : ¬ (because (.extension name) attempted causes).Unknown := by
  rintro ⟨tail, he⟩
  have hname : ∀ c ∈ name.toList, isIdentifierChar c := by
    simpa using (Bool.and_eq_true_iff.1 h).2
  have hword : "Unknown".toList.all isIdentifierChar := by decide +kernel
  have hblank : isIdentifierChar ' ' = false := by decide +kernel
  have hsplit : "Unknown definition".toList = "Unknown".toList ++ " definition".toList := by decide
  change _ = (name ++ " expected").toList at he
  rw [String.toList_append, hsplit, List.append_assoc] at he
  have hafter := congrArg (List.dropWhile isIdentifierChar) he
  rw [List.dropWhile_append_of_pos hname,
    List.dropWhile_append_of_pos (List.all_eq_true.1 hword)] at hafter
  simp [hblank] at hafter

end Failure

namespace Reader
open Attempt

def Hooked (r : Reader) (failure : Failure) : Prop :=
  ∃ rule start stated, r.lexis.extend rule r.text start r.stop = .error (.failure stated) ∧
    failure.Within stated

/-- Wherever a failure, or a cause of it, reads that a definition is unknown, an extension said
so. -/
def Blameless (r : Reader) (failure : Failure) : Prop :=
  ∀ within, within.Within failure → within.Unknown → r.Hooked within

variable {r : Reader} {rule : Rule} {start : Nat}

theorem blameless_because {reason : Reason} {attempted : Int} {causes : List Failure}
    (h : ¬ (Failure.because reason attempted causes).Unknown)
    (hc : ∀ cause ∈ causes, r.Blameless cause) :
    r.Blameless (.because reason attempted causes) := by
  intro within hw hu
  cases hw with
  | self => exact absurd hu h
  | cause hm hw => exact hc _ hm within hw hu

section Descent

/-- A node that refers to no unknown rule is not the first to be blamed. -/
theorem hereditary_blameless (hr : ∀ o, rule = .leaf .reference o →
      rule.target ∈ r.grammar.names ∧ isIdentifier rule.target.toList) :
    r.Hereditary rule start r.Blameless where
  terminal reason position h := by
    refine blameless_because (Failure.not_unknown ?_) fun _ h => absurd h List.not_mem_nil
    cases reason with
    | undefinedRule | extension | stated | statedRecursion => exact h
    | _ => trivial
  undefined o hrule hb := absurd hb (Grammar.body?_ne_none (hr o hrule).1)
  expected o position hrule := blameless_because (Failure.not_unknown_extension (hr o hrule).2)
    fun _ h => absurd h List.not_mem_nil
  stated _ _ he _ hw _ := ⟨_, _, _, he, hw⟩
  choice _ hcauses := blameless_because (Failure.not_unknown trivial) hcauses

structure Sound (r : Reader) (names : List String) : Prop where
  closed : r.Closed names
  known : ∀ name ∈ names, name ∈ r.grammar.names ∧ isIdentifier name.toList

variable {names : List String}

theorem run_blameless (hs : r.Sound names) : ∀ (depth : Nat) {busy : List (Nat × Rule)}
    {rule : Rule} {start : Nat} {failure : Failure}, rule.mentions ⊆ names →
      (r.run depth busy rule start).result = .error (.failure failure) → r.Blameless failure
  | 0, _, _, _, _, _, ho => by cases ho
  | depth + 1, busy, rule, start, failure, hm, ho => by
    by_cases hb : (start, rule) ∈ busy
    · rw [run_busy hb] at ho
      cases ho
      exact blameless_because (Failure.not_unknown trivial) fun _ h => absurd h List.not_mem_nil
    · refine Yields.failsWith (hereditary_blameless fun o hrule => ?_)
        (fun rule' start' failure' ht ha => ?_) (ho ▸ run_yields hb)
      · subst hrule
        exact hs.known _ (hm (Rule.target_mem_mentions o))
      · exact run_blameless hs depth (ht.mentions hs.closed hm) ha

end Descent
end Reader

/-- A parse from a known rule fails where a run of its body does, or in words of its own. -/
theorem Language.parse_failed {language : Language} {start : String} {text : Text}
    {filename : Option String} {d : Diagnosis} (hs : start ∈ language.grammar.names)
    (h : language.parse start text filename = .error (.failed d)) :
    (∃ body, language.grammar.body? start = some (some body) ∧
      ((language.reader text).run depthLimit [] body 0).result = .error (.failure d.failure)) ∨
      ∃ reason attempted, d.failure = .because reason attempted [] ∧ Failure.Worded reason := by
  unfold parse at h
  dsimp only at h
  split at h
  · exact absurd ‹_› (Grammar.body?_ne_none hs)
  · cases h
    exact .inr ⟨_, _, rfl, trivial⟩
  · rename_i body hb
    split at h
    · rename_i failure farthest ho
      cases h
      exact .inl ⟨body, hb, congrArg Prod.fst ho⟩
    · cases h
      exact .inr ⟨_, _, rfl, trivial⟩
    · cases h
    · split at h
      · cases h
      · split at h
        · cases h
        · split at h <;>
          · cases h
            exact .inr ⟨_, _, rfl, trivial⟩

namespace Grammar
variable {lines : List Text} {extensions : List String} {grammar : Grammar}

theorem sound_of_load (h : load lines extensions = .ok grammar) (r : Reader)
    (hr : r.grammar = grammar) :
    r.Sound (grammar.names.filter (isIdentifier ·.toList)) ∧ ∀ body ∈ grammar.bodies,
      body.mentions ⊆ grammar.names.filter (isIdentifier ·.toList) := by
  obtain ⟨hnamed, hmentions⟩ := load_ok h
  have hbodies : ∀ body ∈ grammar.bodies,
      body.mentions ⊆ grammar.names.filter (isIdentifier ·.toList) := by
    intro body hb name hn
    refine List.mem_filter.2 ⟨hmentions body hb hn, ?_⟩
    obtain ⟨node, hnode, rfl⟩ := List.mem_map.1 hn
    obtain ⟨hnode, hkind⟩ := List.mem_filter.1 hnode
    obtain ⟨o, rfl⟩ := Rule.leaf_of_kind .reference (of_decide_eq_true hkind)
    rw [Rule.target, String.toList_ofList]
    exact (hnamed body hb o hnode).1
  refine ⟨⟨fun name _ body hb => hbodies body (mem_bodies (hr ▸ hb)), fun name hn => ?_⟩, hbodies⟩
  exact hr ▸ List.mem_filter.1 hn

/-- In a loaded grammar every reference is an identifier, no reserved word and the name of a rule.
So whatever a language brings besides its grammar, nothing that fails anywhere in a parse from a
rule of it, recovered from or not, reads that a definition is unknown, but where an extension says
so itself. -/
theorem load_lookups (h : load lines extensions = .ok grammar) :
    (∀ body ∈ grammar.bodies, ∀ node ∈ body.nodes, node.kind = .identifier →
      isIdentifier node.writtenAs ∧ Rule.reserved? node.writtenAs = none ∧
        node.target ∈ grammar.names) ∧
    ∀ start ∈ grammar.names, ∀ (lexis : Lexis) (text : Text) (filename : Option String),
      let language : Language := ⟨grammar, lexis⟩
      let r := language.reader text
      (∀ body c failure, grammar.body? start = some (some body) →
        r.Reaches ⟨Language.depthLimit, [], body, 0⟩ c →
        (r.run c.depth c.busy c.rule c.start).result = .error (.failure failure) →
          r.Blameless failure) ∧
      ∀ d, language.parse start text filename = .error (.failed d) → r.Blameless d.failure := by
  obtain ⟨hnamed, hmentions⟩ := load_ok h
  constructor
  · intro body hb node hnode hkind
    obtain ⟨o, rfl⟩ := Rule.leaf_of_kind .reference hkind
    obtain ⟨hword, hreserved⟩ := hnamed body hb o hnode
    refine ⟨hword, hreserved, hmentions body hb ?_⟩
    exact List.mem_map.2 ⟨_, List.mem_filter.2 ⟨hnode, decide_eq_true hkind⟩, rfl⟩
  · intro start hs lexis text filename language r
    obtain ⟨hsound, hbodies⟩ := sound_of_load h r rfl
    refine ⟨fun body c failure hb hc ho => ?_, fun d hd => ?_⟩
    · exact Reader.run_blameless hsound c.depth
        (hc.mentions hsound.closed (hbodies body (mem_bodies hb))) ho
    · rcases Language.parse_failed hs hd with ⟨body, hb, ho⟩ | ⟨reason, attempted, he, hw⟩
      · exact Reader.run_blameless hsound _ (hbodies body (mem_bodies hb)) ho
      · rw [he]
        exact Reader.blameless_because (Failure.not_unknown hw)
          fun _ h => absurd h List.not_mem_nil

/-- The tiny language of the statement trace has all the rules it mentions. -/
theorem tiny_lookups :
    load StatementTrace.document [] = .ok StatementTrace.grammar ∧
    (∀ body ∈ StatementTrace.grammar.bodies, ∀ node ∈ body.nodes, node.kind = .identifier →
      node.target ∈ StatementTrace.grammar.names) ∧
    ∀ text d, StatementTrace.language.parse "Program" text none = .error (.failed d) →
      (StatementTrace.language.reader text).Blameless d.failure := by
  obtain ⟨hok, hstart⟩ : (load StatementTrace.document []).isOk ∧
      "Program" ∈ StatementTrace.grammar.names := by decide +kernel
  have hload : load StatementTrace.document [] = .ok StatementTrace.grammar := by
    rw [StatementTrace.grammar]
    cases hl : load StatementTrace.document [] with
    | ok => rfl
    | error =>
      rw [hl] at hok
      cases hok
  refine ⟨hload, fun body hb node hn hk => ((load_lookups hload).1 body hb node hn hk).2.2, ?_⟩
  exact fun text => ((load_lookups hload).2 "Program" hstart _ text none).2

/-- An extension that puts its own failure in the words of a missing rule. -/
def contrary : Lexis :=
  { Lexis.plain with extend := fun _ => Scanner.refuse "Unknown definition: P" }

def failureOf (language : Language) (start : String) (text : Text) : Option Failure :=
  match language.parse start text none with
  | .error (.failed d) => some d.failure
  | _ => none

theorem parse_of_failureOf {language : Language} {start : String} {text : Text} {failure : Failure}
    (h : failureOf language start text = some failure) :
    ∃ d, language.parse start text none = .error (.failed d) ∧ d.failure = failure := by
  unfold failureOf at h
  split at h
  · rename_i d hd
    exact ⟨d, hd, Option.some.inj h⟩
  · cases h

/-- Not every failure that reads so is about a missing rule. -/
theorem unknown_from_extension : ∃ grammar d, load ["S: P".toList, "P:".toList] [] = .ok grammar ∧
    "S" ∈ grammar.names ∧
    Language.parse ⟨grammar, contrary⟩ "S" ['x'] none = .error (.failed d) ∧
      d.failure.Unknown := by
  have hrun : (load ["S: P".toList, "P:".toList] []).toOption.any fun grammar =>
      decide ("S" ∈ grammar.names) && (failureOf ⟨grammar, contrary⟩ "S" ['x']).any
        fun failure => "Unknown definition".toList.isPrefixOf failure.message.toList := by
    decide +kernel
  obtain ⟨grammar, hgrammar, hrun⟩ := (Option.any_eq_true _ _).1 hrun
  obtain ⟨hs, hrun⟩ := Bool.and_eq_true_iff.1 hrun
  obtain ⟨failure, hfailure, hu⟩ := (Option.any_eq_true _ _).1 hrun
  obtain ⟨d, hd, rfl⟩ := parse_of_failureOf hfailure
  refine ⟨grammar, d, ?_, of_decide_eq_true hs, hd, List.isPrefixOf_iff_prefix.1 hu⟩
  cases hl : load ["S: P".toList, "P:".toList] [] with
  | ok =>
    rw [hl] at hgrammar
    cases hgrammar
    rfl
  | error =>
    rw [hl] at hgrammar
    cases hgrammar

end Grammar
end OrderedBnf
