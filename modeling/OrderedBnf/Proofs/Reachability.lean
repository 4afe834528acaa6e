import Mathlib.Data.List.Nodup
import Mathlib.Order.Bounds.Basic
import OrderedBnf.Grammar.Reachable

/-! The names that a rule leads to: those known at the start, and with every name all that its body
mentions. The search for them expands each name once. -/
namespace OrderedBnf.Grammar
variable {grammar : Grammar}

theorem mem_fresh {known : List String} {name mention : String} :
    mention ∈ grammar.fresh known name ↔
      mention ∈ grammar.mentionsOf name ∧ mention ∉ known := by
  simp [fresh, List.mem_eraseDups, List.mem_filter]

theorem nodup_eraseDups : ∀ names : List String, names.eraseDups.Nodup
  | [] => List.nodup_nil
  | name :: names => by
    rw [List.eraseDups_cons]
    refine List.nodup_cons.2 ⟨fun hm => ?_, nodup_eraseDups _⟩
    rw [List.mem_eraseDups, List.mem_filter] at hm
    simp at hm
  termination_by names => names.length
  decreasing_by exact Nat.lt_succ_of_le (List.length_filter_le _ _)

theorem nodup_fresh (known : List String) (name : String) : (grammar.fresh known name).Nodup :=
  nodup_eraseDups _

theorem prefix_closure (known waiting : List String) : known <+: grammar.closure known waiting := by
  fun_induction closure grammar known waiting with
  | case1 known => exact List.prefix_refl known
  | case2 known name waiting ih => exact (List.prefix_append _ _).trans ih

/-- Every known name either waits or has all its mentions known, and at the end no name waits. -/
theorem closure_closed (known waiting : List String)
    (h : ∀ name ∈ known, name ∈ waiting ∨ grammar.mentionsOf name ⊆ known) :
    ∀ name ∈ grammar.closure known waiting,
      grammar.mentionsOf name ⊆ grammar.closure known waiting := by
  fun_induction closure grammar known waiting with
  | case1 known => exact fun name hn => (h name hn).resolve_left List.not_mem_nil
  | case2 known expanded waiting ih =>
    refine ih fun name hn => ?_
    rcases List.mem_append.1 hn with hn | hn
    · rcases h name hn with hw | hm
      · rcases List.mem_cons.1 hw with rfl | hw
        · refine .inr fun mention hm => ?_
          by_cases hk : mention ∈ known
          · exact List.mem_append_left _ hk
          · exact List.mem_append_right _ (mem_fresh.2 ⟨hm, hk⟩)
        · exact .inl (List.mem_append_left _ hw)
      · exact .inr (List.subset_append_of_subset_left _ hm)
    · exact .inl (List.mem_append_right _ hn)

/-- What is closed under mentions, and has the names to start with, has all that are found. -/
theorem closure_subset {names : Set String}
    (hclosed : ∀ name ∈ names, ∀ mention ∈ grammar.mentionsOf name, mention ∈ names)
    (known waiting : List String) (hknown : ∀ name ∈ known, name ∈ names)
    (hwaiting : ∀ name ∈ waiting, name ∈ names) :
    ∀ name ∈ grammar.closure known waiting, name ∈ names := by
  fun_induction closure grammar known waiting with
  | case1 known => exact hknown
  | case2 known expanded waiting ih =>
    obtain ⟨hexpanded, hwaiting⟩ := List.forall_mem_cons.1 hwaiting
    have hfresh : ∀ mention ∈ grammar.fresh known expanded, mention ∈ names :=
      fun mention hm => hclosed expanded hexpanded mention (mem_fresh.1 hm).1
    exact ih (List.forall_mem_append.2 ⟨hknown, hfresh⟩) (List.forall_mem_append.2 ⟨hwaiting, hfresh⟩)

theorem self_mem_reachable (grammar : Grammar) (start : String) :
    start ∈ grammar.reachable start :=
  (prefix_closure [start] [start]).subset List.mem_cons_self

/-- What a reachable body mentions is reachable. -/
theorem mentions_reachable {start name : String} {body : Rule}
    (hn : name ∈ grammar.reachable start) (hb : grammar.body? name = some (some body)) :
    body.mentions ⊆ grammar.reachable start := by
  have h := closure_closed [start] [start] (fun name hn => .inl hn) name hn
  rwa [mentionsOf, hb] at h

structure Search where
  known : List String
  waiting : List String

/-- The search expands some names, one after another, each when its turn comes. -/
inductive Expands (grammar : Grammar) : List String → Search → Search → Prop
  | done {search} : Expands grammar [] search search
  | next {name names known waiting found} :
      Expands grammar names
        ⟨known ++ grammar.fresh known name, waiting ++ grammar.fresh known name⟩ found →
      Expands grammar (name :: names) ⟨known, name :: waiting⟩ found

/-- No name is known twice, and of those known the ones that are expanded come before the ones that
wait. -/
structure Search.Orderly (search : Search) (expanded : List String) : Prop where
  known : search.known = expanded ++ search.waiting
  distinct : search.known.Nodup

section Searching
variable {names expanded known waiting : List String} {name : String} {search found : Search}

/-- Expanding a name keeps the search orderly. -/
theorem Search.Orderly.step (h : Search.Orderly ⟨known, name :: waiting⟩ expanded) :
    Search.Orderly ⟨known ++ grammar.fresh known name, waiting ++ grammar.fresh known name⟩
      (expanded ++ [name]) where
  known := by
    have hknown : known = expanded ++ name :: waiting := h.known
    simp [hknown]
  distinct := by
    refine List.nodup_append.2 ⟨h.distinct, nodup_fresh known name, ?_⟩
    rintro a ha _ hfresh rfl
    exact (mem_fresh.1 hfresh).2 ha

theorem Expands.orderly (h : grammar.Expands names search found) (hs : search.Orderly expanded) :
    found.Orderly (expanded ++ names) := by
  induction h generalizing expanded with
  | done => rwa [List.append_nil]
  | next _ ih =>
    rw [List.append_cons]
    exact ih hs.step

/-- A search comes to the same names from any point of it on. -/
theorem Expands.closure_eq (h : grammar.Expands names search found) :
    grammar.closure search.known search.waiting = grammar.closure found.known found.waiting := by
  induction h with
  | done => rfl
  | next _ ih =>
    rw [closure]
    exact ih

theorem exists_expands (known waiting : List String) :
    ∃ names, grammar.Expands names ⟨known, waiting⟩ ⟨grammar.closure known waiting, []⟩ := by
  fun_induction closure grammar known waiting with
  | case1 known => exact ⟨[], .done⟩
  | case2 known name waiting ih =>
    obtain ⟨names, h⟩ := ih
    exact ⟨name :: names, .next h⟩

theorem orderly_start (start : String) : Search.Orderly ⟨[start], [start]⟩ [] :=
  ⟨rfl, List.nodup_singleton start⟩

/-- Whatever has been expanded is a first part of what is reachable. -/
theorem Expands.prefix_reachable {start : String}
    (h : grammar.Expands names ⟨[start], [start]⟩ found) : names <+: grammar.reachable start := by
  have hnames : names <+: found.known :=
    (h.orderly (orderly_start start)).known ▸ List.prefix_append names _
  rw [reachable, h.closure_eq]
  exact hnames.trans (prefix_closure _ _)

end Searching

/-- The reachable names are the least set that has the start and, with each rule, all that its body
mentions, defined or not. The search for them ends when it has expanded each of them once. -/
theorem reachable_least (grammar : Grammar) (start : String) :
    IsLeast {names : Set String | start ∈ names ∧ ∀ name ∈ names, ∀ body,
        grammar.body? name = some (some body) → ∀ mention ∈ body.mentions, mention ∈ names}
      {name | name ∈ grammar.reachable start} ∧
    grammar.Expands (grammar.reachable start) ⟨[start], [start]⟩ ⟨grammar.reachable start, []⟩ ∧
    (∀ names found, grammar.Expands names ⟨[start], [start]⟩ found →
      names.Nodup ∧ names <+: grammar.reachable start) ∧
    (grammar.unreachable start).Sublist grammar.names ∧
    ∀ name, name ∈ grammar.unreachable start ↔
      name ∈ grammar.names ∧ name ∉ grammar.reachable start := by
  refine ⟨⟨⟨grammar.self_mem_reachable start, fun name hn body hb mention hm =>
    mentions_reachable hn hb hm⟩, ?_⟩, ?_, fun names found h => ?_, List.filter_sublist, ?_⟩
  · rintro names ⟨hstart, hclosed⟩
    have hmentions : ∀ name ∈ names, ∀ mention ∈ grammar.mentionsOf name, mention ∈ names := by
      intro name hn mention hm
      rw [mentionsOf] at hm
      split at hm
      · exact hclosed name hn _ ‹_› mention hm
      · cases hm
    exact closure_subset hmentions [start] [start] (List.forall_mem_singleton.2 hstart)
      (List.forall_mem_singleton.2 hstart)
  · -- when no name waits, the expanded names are all that are known
    obtain ⟨names, h⟩ := @exists_expands grammar [start] [start]
    have hknown := (h.orderly (orderly_start start)).known
    rw [List.append_nil] at hknown
    obtain rfl : names = grammar.reachable start := hknown.symm
    exact h
  · have horderly := h.orderly (orderly_start start)
    have hdistinct := horderly.distinct
    rw [horderly.known, List.nil_append] at hdistinct
    exact ⟨(List.nodup_append.1 hdistinct).1, h.prefix_reachable⟩
  · simp [unreachable]

def looped : Grammar :=
  let mention (name : String) : Rule := .leaf .reference ⟨0, name.length, false, none, name.toList⟩
  .ofList [("A", some (mention "B")),
    ("B", some (.sequence [mention "A", mention "E"] ⟨0, 0, false, none, []⟩)), ("C", none),
    ("D", some (mention "C"))]

/-- The search stands before the rule that is not there, and then ends. -/
theorem looped_reachable : looped.Expands ["A", "B"] ⟨["A"], ["A"]⟩ ⟨["A", "B", "E"], ["E"]⟩ ∧
    ["A", "B"] <+: looped.reachable "A" ∧ looped.reachable "A" = ["A", "B", "E"] ∧
    "D" ∈ looped.unreachable "A" := by
  have hA : looped.fresh ["A"] "A" = ["B"] := by decide +kernel
  have hB : looped.fresh ["A", "B"] "B" = ["E"] := by decide +kernel
  have hE : looped.fresh ["A", "B", "E"] "E" = [] := by decide +kernel
  have hsecond {names found} (h : looped.Expands names ⟨["A", "B", "E"], ["E"]⟩ found) :
      looped.Expands ("A" :: "B" :: names) ⟨["A"], ["A"]⟩ found := by
    refine .next ?_
    rw [hA]
    refine .next ?_
    rw [List.singleton_append, hB]
    exact h
  have hlast : looped.Expands ["E"] ⟨["A", "B", "E"], ["E"]⟩ ⟨["A", "B", "E"], []⟩ := by
    refine .next ?_
    rw [hE]
    exact .done
  obtain ⟨-, -, hruns, -, hunreachable⟩ := reachable_least looped "A"
  have hreachable : looped.reachable "A" = ["A", "B", "E"] :=
    (hsecond hlast).closure_eq.trans (by rw [closure])
  have hdefined : "D" ∈ looped.names := by decide +kernel
  exact ⟨hsecond .done, (hruns _ _ (hsecond .done)).2, hreachable,
    (hunreachable "D").2 ⟨hdefined, by simp [hreachable]⟩⟩

end OrderedBnf.Grammar
