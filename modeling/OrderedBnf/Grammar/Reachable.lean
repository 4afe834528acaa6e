import OrderedBnf.Grammar.Basic

/-! The rules that a parse from a given start could ever try. -/
namespace OrderedBnf.Grammar

def mentionsOf (grammar : Grammar) (name : String) : List String :=
  match grammar.body? name with
  | some (some body) => body.mentions
  | _ => []

private theorem mentionsOf_subset (grammar : Grammar) (name : String) :
    grammar.mentionsOf name ⊆ grammar.mentions := by
  unfold mentionsOf
  split
  · rename_i body h
    simp only [body?, find?, Option.map_eq_some_iff] at h
    obtain ⟨e, he, hb⟩ := h
    have hm : body ∈ grammar.bodies :=
      List.mem_filterMap.2 ⟨e, List.mem_of_find?_eq_some he, hb⟩
    exact fun x hx => List.mem_flatMap.2 ⟨body, hm, hx⟩
  · simp

def fresh (grammar : Grammar) (known : List String) (name : String) : List String :=
  ((grammar.mentionsOf name).filter (!known.contains ·)).eraseDups

private theorem countP_lt {p q : String → Bool} {xs : List String} {x : String}
    (hpq : ∀ y, p y → q y) (hx : x ∈ xs) (hp : p x = false) (hq : q x = true) :
    xs.countP p < xs.countP q := by
  induction xs with
  | nil => simp at hx
  | cons y ys ih =>
    have hle : ys.countP p ≤ ys.countP q := List.countP_mono_left fun z _ => hpq z
    rcases List.mem_cons.1 hx with rfl | h
    · simp [hp, hq, Nat.lt_succ_of_le hle]
    · have := ih h
      have := hpq y
      simp only [List.countP_cons]
      split <;> split <;> grind

private theorem fresh_decreases {grammar : Grammar} {known : List String} {name : String}
    (h : grammar.fresh known name ≠ []) :
    grammar.mentions.countP (!(known ++ grammar.fresh known name).contains ·) <
      grammar.mentions.countP (!known.contains ·) := by
  obtain ⟨x, hx⟩ := List.exists_mem_of_ne_nil _ h
  have hx' := hx
  simp only [fresh, List.mem_eraseDups, List.mem_filter] at hx'
  refine countP_lt (x := x) ?_ (mentionsOf_subset grammar name hx'.1) ?_ hx'.2 <;> simp_all

/-- Expands the names that wait, one by one; each expansion adds what its body mentions for the
first time to the known names and to the waiting ones. -/
def closure (grammar : Grammar) (known : List String) : List String → List String
  | [] => known
  | name :: waiting =>
    closure grammar (known ++ grammar.fresh known name) (waiting ++ grammar.fresh known name)
termination_by waiting => (grammar.mentions.countP (!known.contains ·), waiting.length)
decreasing_by
  by_cases h : grammar.fresh known name = []
  · rw [h]; apply Prod.Lex.right'; · simp
    · simp
  · exact Prod.Lex.left _ _ (fresh_decreases h)

def reachable (grammar : Grammar) (start : String) : List String := grammar.closure [start] [start]

def unreachable (grammar : Grammar) (start : String) : List String :=
  let reached := grammar.reachable start
  grammar.names.filter fun name => !reached.contains name

end OrderedBnf.Grammar
