import OrderedBnf.Proofs.Announcing
import OrderedBnf.Proofs.Words

/-! Matches carried over from a program to the instrumented one, rule by rule. -/
namespace OrderedBnf.StatementTrace
open Reader Comment

section Tracing

inductive Branchwise (related : Nat → ParseTree → ParseTree → Nat → Prop) :
    Nat → List (Option ParseTree) → List (Option ParseTree) → Nat → Prop
  | nil {n} : Branchwise related n [] [] n
  | none {n bs bs' k} : Branchwise related n bs bs' k →
      Branchwise related n (none :: bs) (none :: bs') k
  | some {n t t' k bs bs' l} : related n t t' k → Branchwise related k bs bs' l →
      Branchwise related n (some t :: bs) (some t' :: bs') l

structure Announces (text : Text) (call : String) (number : Nat) (tree : ParseTree) : Prop where
  named : (Tree.label tree).ruleName? = some "Statement"
  formed : ∃ statement expression semicolon, chosen? tree = some statement ∧
    Tree.branches statement = [some expression, some semicolon] ∧
    (Tree.label expression).ruleName? = some "Expression" ∧
    (Tree.label expression).covered text =
      call.toList ++ '(' :: ((toString number).toList ++ [')']) ∧
    (Tree.label semicolon).covered text = [';']

structure Pairs (text : Text) (block first second : ParseTree) : Prop where
  named : (Tree.label block).ruleName? = some "Block"
  formed : ∃ opening body closing,
    Tree.branches block = [some opening, some body, some closing] ∧
    (Tree.label opening).covered text = ['{'] ∧
    Tree.branches body = [some first, some second] ∧
    (Tree.label closing).covered text = ['}']

/-- The tree of a program and the tree of the instrumented program, when the statements that are
announced in the first have numbers above one and up to another. A statement that is not a block
has become a block of two statements: the one that announces it, and the statement itself, with
those within it treated likewise. Every other node is of the same kind and rule and has the same
branches, and the leaves have the same text. -/
inductive Traced (text text' : Text) (call : String) : Nat → ParseTree → ParseTree → Nat → Prop
  | kept {n m m' bs bs' k} : announced? (.node m bs) = none → m'.kind = m.kind →
      m'.rule = m.rule → (bs = [] → m'.covered text' = m.covered text) →
      Branchwise (Traced text text' call) n bs bs' k →
      Traced text text' call n (.node m bs) (.node m' bs') k
  | announced {n m m' m'' bs bs' bs'' k start block first} :
      announced? (.node m bs) = some start →
      m'.kind = m.kind → m'.rule = m.rule → bs' = some block :: bs.tail.map (fun _ => none) →
      Pairs text' block first (.node m'' bs'') → Announces text' call (n + 1) first →
      m''.kind = m.kind → m''.rule = m.rule →
      Branchwise (Traced text text' call) (n + 1) bs bs'' k →
      Traced text text' call n (.node m bs) (.node m' bs') k

end Tracing

structure Alike (r r' : Reader) : Prop where
  grammar : r'.grammar = r.grammar
  lexis : r'.lexis = r.lexis
  skips : r.SkipsComments
  skips' : r'.SkipsComments
  advances : r.lexis.Advances r.text r.stop

section Carrying
variable (r r' : Reader) (call : String)

/-- A rule matches in the instrumented text from one remainder to another, with what a tree of the
program has become there. -/
def Carried (rule : Rule) (starts : List Nat) (tree : ParseTree) (left left' : Text) : Prop :=
  ∃ tree', r'.Takes rule left left' tree' ∧
    Traced r.text r'.text call starts.length tree tree' (announced call starts tree).length

/-- A tree that is matched again when it is spelled, after any gap and before any remainder with a
property that goes on alike. The remainder it is then matched from has a property in turn. -/
structure CarriesTree (rule : Rule) (tree : ParseTree) (after before : Text → Prop) : Prop where
  solid : tree.start < tree.stop
  shown : ∀ starts, spelled r.text call starts tree ≠ []
  carried : ∀ ⦃starts gap left⦄, Gap .nothing gap → Joins (r.text.drop tree.stop) left →
    after left → gap ++ (spelled r.text call starts tree ++ left) <:+ r'.text →
      Joins (r.text.drop tree.start) (spelled r.text call starts tree ++ left) ∧
      before (gap ++ (spelled r.text call starts tree ++ left)) ∧
      Carried r r' call rule starts tree (gap ++ (spelled r.text call starts tree ++ left)) left

/-- A rule that matches some text: each of its trees up to a size is matched again. -/
def Carries (size : Nat) (rule : Rule) (after before : Text → Prop) : Prop :=
  ∀ ⦃start tree⦄, sizeOf tree ≤ size → r.Fits rule start tree → start ≤ r.stop →
    CarriesTree r r' call rule tree after before

/-- The like for a rule that may match nothing, with the gap there is in the program. -/
def Passes (size : Nat) (rule : Rule) (after before : Text → Prop) : Prop :=
  ∀ ⦃start tree starts left⦄, sizeOf tree ≤ size → r.Fits rule start tree → start ≤ r.stop →
    Joins (r.text.drop tree.stop) left → after left →
    r.text.window start tree.start ++ (spelled r.text call starts tree ++ left) <:+ r'.text →
      Joins (r.text.drop start)
        (r.text.window start tree.start ++ (spelled r.text call starts tree ++ left)) ∧
      before (r.text.window start tree.start ++ (spelled r.text call starts tree ++ left)) ∧
      Carried r r' call rule starts tree
        (r.text.window start tree.start ++ (spelled r.text call starts tree ++ left)) left

def PassesAll (size : Nat) (parts : List Rule) (after before : Text → Prop) : Prop :=
  ∀ ⦃start trees starts left⦄, (∀ tree ∈ trees, sizeOf tree ≤ size) →
    Row r.Fits parts start trees → start ≤ r.stop →
    Joins (r.text.drop (lastStop start trees)) left → after left →
    spelledAll r.text call starts start (lastStop start trees) (trees.map some) ++ left <:+
      r'.text →
      Joins (r.text.drop start)
        (spelledAll r.text call starts start (lastStop start trees) (trees.map some) ++ left) ∧
      before (spelledAll r.text call starts start (lastStop start trees) (trees.map some) ++ left) ∧
      ∃ trees', r'.TakesAll parts
          (spelledAll r.text call starts start (lastStop start trees) (trees.map some) ++ left) left
          trees' ∧
        Branchwise (Traced r.text r'.text call) starts.length (trees.map some) (trees'.map some)
          (announcedAll call starts (trees.map some)).length

variable {r r' call} {size : Nat} {rule body : Rule} {parts rules : List Rule} {o : Origin}
  {after before middle : Text → Prop}

/-- Where the program goes on alike, it does so from before a gap. -/
theorem joins_window {start stop : Nat} (hle : start ≤ stop) {left : Text}
    (h : Joins (r.text.drop stop) left) :
    Joins (r.text.drop start) (r.text.window start stop ++ left) := by
  rw [r.text.drop_window hle]
  cases hw : r.text.window start stop with
  | nil => exact h
  | cons c word => exact joins_append (List.cons_ne_nil c word) _ _

/-- A rule that is carried is passed too. -/
theorem Carries.passes (h : Carries r r' call size rule after before) (ha : Alike r r') :
    Passes r r' call size rule after before := by
  intro start tree starts left hsize hf hs hj hafter hsuffix
  have hsits := hf.sits ha.advances hs
  obtain ⟨hj', hb, hc⟩ :=
    (h hsize hf hs).carried (hf.gap_before ha.skips hs) hj hafter hsuffix
  exact ⟨joins_window hsits.ahead hj', hb, hc⟩

/-- Smaller trees are carried where larger ones are. -/
theorem Carries.mono {size' : Nat} (h : Carries r r' call size rule after before)
    (hle : size' ≤ size) : Carries r r' call size' rule after before :=
  fun _ _ hsize => h (Nat.le_trans hsize hle)

/-- More may be asked of what follows, and less promised of what comes before. -/
theorem Carries.imp {after' before' : Text → Prop} (h : Carries r r' call size rule after before)
    (ha : ∀ left, after' left → after left) (hb : ∀ left, before left → before' left) :
    Carries r r' call size rule after' before' := by
  intro start tree hsize hf hs
  obtain ⟨hsolid, hshown, hcarried⟩ := h hsize hf hs
  refine ⟨hsolid, hshown, fun starts gap left hg hj hafter hsuffix => ?_⟩
  obtain ⟨hj', hbefore, hc⟩ := hcarried hg hj (ha _ hafter) hsuffix
  exact ⟨hj', hb _ hbefore, hc⟩

theorem lastStop_nil (cursor : Nat) : lastStop cursor [] = cursor := rfl

theorem passesAll_nil : PassesAll r r' call size [] after after := by
  intro start trees starts left _ hrow hs hj hafter _
  cases hrow
  have hself : spelledAll r.text call starts start (lastStop start []) ([].map some) = [] := by
    rw [List.map_nil, spelledAll_nil]
    exact (congrArg (List.take · _) (Nat.sub_self start)).trans (List.take_zero)
  rw [hself]
  exact ⟨hj, hafter, [], .nil, .nil⟩

theorem passesAll_cons (h : Passes r r' call size rule middle before)
    (hrest : PassesAll r r' call size parts after middle) (ha : Alike r r') :
    PassesAll r r' call size (rule :: parts) after before := by
  intro start trees starts left hsize hrow hs hj hafter hsuffix
  cases hrow with
  | @cons _ _ _ tree trees hf hrow =>
    have hwithin := (hf.sits ha.advances hs).within
    rw [List.map_cons, lastStop_cons, spelledAll_some, List.append_assoc, List.append_assoc]
      at hsuffix ⊢
    rw [lastStop_cons] at hj
    have hsuffix' := ((List.suffix_append _ _).trans (List.suffix_append _ _)).trans hsuffix
    obtain ⟨hj', hmiddle, trees', ht', hb'⟩ :=
      hrest (fun t ht => hsize t (List.mem_cons_of_mem _ ht)) hrow hwithin hj hafter hsuffix'
    obtain ⟨hj'', hbefore, tree', ht'', htraced⟩ :=
      h (hsize tree List.mem_cons_self) hf hs hj' hmiddle hsuffix
    exact ⟨hj'', hbefore, tree' :: trees', .cons ht'' ht', .some htraced hb'⟩

theorem start_node (m : Match) (branches : List (Option ParseTree)) :
    ParseTree.start (.node m branches) = m.start := rfl

theorem stop_node (m : Match) (branches : List (Option ParseTree)) :
    ParseTree.stop (.node m branches) = m.stop := rfl

theorem unannounced {m : Match} {branches : List (Option ParseTree)} (hr : m.rule = rule)
    (hn : rule.name? ≠ some "Statement") : announced? (.node m branches) = none :=
  if_neg (show ¬ m.rule.name? = _ from hr ▸ hn)

theorem size_branch {m : Match} {branches : List (Option ParseTree)} {tree : ParseTree}
    (h : some tree ∈ branches) (hsize : sizeOf (Tree.node m branches) ≤ size + 1) :
    sizeOf tree ≤ size := by
  have := List.sizeOf_lt_of_mem h
  simp only [Tree.node.sizeOf_spec, Option.some.sizeOf_spec] at *
  omega

/-- A node that is not announced is traced when its branches are. -/
theorem carried_spanning {kind : Kind} {m : Match} {branches branches' : List (Option ParseTree)}
    {starts : List Nat} {left left' : Text} {cursor : Nat} (hk : m.kind = kind) (hr : m.rule = rule)
    (hplain : announced? (.node m branches) = none) (hm : branches = [] → m.start = m.stop)
    (ht : r'.Takes rule left left' (.spanning kind rule cursor branches'))
    (hb : Branchwise (Traced r.text r'.text call) starts.length branches branches'
      (announcedAll call starts branches).length) :
    Carried r r' call rule starts (.node m branches) left left' := by
  have hempty (he : branches = []) {m' : Match} (hm' : m'.start = m'.stop) :
      m'.covered r'.text = m.covered r.text := by
    rw [Match.covered, Match.covered, hm he, hm', Text.window, Text.window, Nat.sub_self,
      Nat.sub_self, List.take_zero, List.take_zero]
  refine ⟨_, ht, ?_⟩
  rw [announced_plain hplain]
  unfold ParseTree.spanning
  split
  · exact .kept hplain hk.symm hr.symm (fun he => hempty he rfl) hb
  · rename_i first rest hfirst
    refine .kept hplain hk.symm hr.symm (fun he => ?_) hb
    subst he
    cases hb
    cases hfirst

theorem spelled_sequence {t : ParseTree} {ts : List ParseTree} {m : Match}
    (hplain : announced? (.node m (some t :: ts.map some)) = none) (hstart : m.start = t.start)
    (hstop : m.stop = lastStop t.stop ts) (hlt : m.start < m.stop) (starts : List Nat) :
    spelled r.text call starts (.node m (some t :: ts.map some)) =
      spelled r.text call starts t ++ spelledAll r.text call (announced call starts t) t.stop
        (lastStop t.stop ts) (ts.map some) := by
  rw [spelled_plain hplain (Nat.ne_of_lt hlt), spelledAll_some, hstart, hstop,
    r.text.window_self, List.nil_append]

/-- A sequence is carried where its parts are, one behind the other. -/
theorem carries_sequence {first : Rule} (hfirst : Carries r r' call size first middle before)
    (hrest : PassesAll r r' call size parts after middle) (ha : Alike r r')
    (hn : (Rule.sequence (first :: parts) o).name? ≠ some "Statement") :
    Carries r r' call (size + 1) (.sequence (first :: parts) o) after before := by
  intro start tree hsize hf hs
  obtain ⟨m, t, ts, rfl, hk, hr, hstart, hstop, hf, hrow⟩ := fits_sequence hf
  have hplain : announced? (.node m (some t :: ts.map some)) = none := unannounced hr hn
  have ht := hfirst (size_branch List.mem_cons_self hsize) hf hs
  have hwithin := (hf.sits ha.advances hs).within
  have hlt : m.start < m.stop := by
    have hsucc := hrow.inSuccession (fun _ _ _ hf hs => hf.sits ha.advances hs) hwithin
    have hle := (InSuccession.lastStop_le hsucc hwithin).1
    have := ht.solid
    omega
  refine ⟨hlt, fun starts he => ?_, fun starts gap left hg hj hafter hsuffix => ?_⟩
  · rw [spelled_sequence hplain hstart hstop hlt, List.append_eq_nil_iff] at he
    exact ht.shown starts he.1
  · rw [spelled_sequence hplain hstart hstop hlt, List.append_assoc] at hsuffix ⊢
    have hsuffix' := ((List.suffix_append _ _).trans (List.suffix_append _ _)).trans hsuffix
    have hj : Joins (r.text.drop (lastStop t.stop ts)) left := hstop ▸ hj
    obtain ⟨hj', hmiddle, trees', ht', hb'⟩ := hrest
      (fun t ht => size_branch (List.mem_cons_of_mem _ (List.mem_map_of_mem ht)) hsize) hrow
      hwithin hj hafter hsuffix'
    obtain ⟨hj'', hbefore, tree', ht'', htraced⟩ := ht.carried hg hj' hmiddle hsuffix
    refine ⟨?_, hbefore, carried_spanning hk hr hplain (fun he => by cases he)
      (takes_sequence Ends.closes (.cons ht'' ht')) (.some htraced hb')⟩
    rwa [start_node, hstart]

section Alternatives
variable {text : Text} {starts : List Nat} {cursor stop : Nat} {rest : List (Option ParseTree)}

theorem spelledAll_self (cursor : Nat) : spelledAll text call starts cursor cursor [] = [] := by
  rw [spelledAll_nil, text.window_self]

theorem spelledAll_nones (before : List Rule) :
    spelledAll text call starts cursor stop (before.map (fun _ => none) ++ rest) =
      spelledAll text call starts cursor stop rest := by
  induction before with
  | nil => rfl
  | cons _ before ih => exact ih

theorem announcedAll_nones (before : List Rule) :
    announcedAll call starts (before.map (fun _ => none) ++ rest) =
      announcedAll call starts rest := by
  induction before with
  | nil => rfl
  | cons _ before ih => exact ih

theorem branchwise_nones {related : Nat → ParseTree → ParseTree → Nat → Prop} {n k : Nat}
    {rest' : List (Option ParseTree)} (before : List Rule) (h : Branchwise related n rest rest' k) :
    Branchwise related n (before.map (fun _ => none) ++ rest)
      (before.map (fun _ => none) ++ rest') k := by
  induction before with
  | nil => exact h
  | cons _ before ih => exact .none ih

/-- One branch among absent ones, that reaches over the node. -/
theorem spelledAll_single (before after : List Rule) (tree : ParseTree) :
    spelledAll text call starts tree.start tree.stop
      (before.map (fun _ => none) ++ some tree :: after.map fun _ => none) =
        spelled text call starts tree := by
  have hafter : spelledAll text call (announced call starts tree) tree.stop tree.stop
      (after.map fun _ => none) = [] := by
    rw [← List.append_nil (after.map _), spelledAll_nones, spelledAll_self]
  rw [spelledAll_nones, spelledAll_some, hafter, Text.window, Nat.sub_self, List.take_zero,
    List.append_nil]
  rfl

theorem announcedAll_single (before after : List Rule) (tree : ParseTree) :
    announcedAll call starts (before.map (fun _ => none) ++ some tree :: after.map fun _ => none) =
      announced call starts tree := by
  have hafter : announcedAll call (announced call starts tree) (after.map fun _ => none) =
      announced call starts tree := by
    rw [← List.append_nil (after.map _), announcedAll_nones]
    rfl
  rw [announcedAll_nones, announcedAll_some, hafter]

theorem branchwise_single {related : Nat → ParseTree → ParseTree → Nat → Prop} {n k : Nat}
    {tree tree' : ParseTree} (before after : List Rule) (h : related n tree tree' k) :
    Branchwise related n (before.map (fun _ => none) ++ some tree :: after.map fun _ => none)
      (before.map (fun _ => none) ++ some tree' :: after.map fun _ => none) k := by
  refine branchwise_nones before (.some h ?_)
  rw [← List.append_nil (after.map _)]
  exact branchwise_nones after .nil

end Alternatives

variable (r r' call) in
def Ordered (size : Nat) (after before : Text → Prop) : (passed rest : List Rule) → Prop
  | _, [] => True
  | passed, rule :: rest =>
    (∃ first, Carries r r' call size rule after first ∧ ∀ left, first left → left <:+ r'.text →
      before left ∧ ∀ rule ∈ passed, r'.Refuses rule left) ∧
    Ordered size after before (passed ++ [rule]) rest

theorem Ordered.alternative {passed front back : List Rule} {alternative : Rule}
    (h : Ordered r r' call size after before passed (front ++ alternative :: back)) :
    ∃ first, Carries r r' call size alternative after first ∧
      ∀ left, first left → left <:+ r'.text →
        before left ∧ ∀ rule ∈ passed ++ front, r'.Refuses rule left := by
  induction front generalizing passed with
  | nil =>
    rw [List.append_nil]
    exact h.1
  | cons rule front ih =>
    have := ih h.2
    rwa [List.append_assoc] at this

/-- A node with one branch among absent ones is carried as its branch is. -/
theorem CarriesTree.alternative {front back : List Rule} {alternative : Rule} {t : ParseTree}
    {m : Match} {first : Text → Prop} (ht : CarriesTree r r' call alternative t after first)
    (hfirst : ∀ left, first left → left <:+ r'.text →
      before left ∧ ∀ rule ∈ front, r'.Refuses rule left)
    (hplain : announced?
      (.node m (front.map (fun _ => none) ++ some t :: back.map fun _ => none)) = none)
    (hk : m.kind = .choice) (hr : m.rule = .choice (front ++ alternative :: back) o)
    (hstart : m.start = t.start) (hstop : m.stop = t.stop) :
    CarriesTree r r' call (.choice (front ++ alternative :: back) o)
      (.node m (front.map (fun _ => none) ++ some t :: back.map fun _ => none)) after before := by
  have hlt : m.start < m.stop := by
    have := ht.solid
    omega
  have hspelled (starts : List Nat) : spelled r.text call starts
      (.node m (front.map (fun _ => none) ++ some t :: back.map fun _ => none)) =
        spelled r.text call starts t := by
    rw [spelled_plain hplain (Nat.ne_of_lt hlt), hstart, hstop, spelledAll_single]
  refine ⟨hlt, fun starts => ?_, fun starts gap left hg hj hafter hsuffix => ?_⟩
  · rw [hspelled]
    exact ht.shown starts
  · rw [hspelled] at hsuffix ⊢
    have hj : Joins (r.text.drop t.stop) left := hstop ▸ hj
    obtain ⟨hj', hbefore, tree', ht', htraced⟩ := ht.carried hg hj hafter hsuffix
    obtain ⟨hbefore, hrefuses⟩ := hfirst _ hbefore hsuffix
    refine ⟨?_, hbefore, carried_spanning hk hr hplain (fun he => by simp at he)
      (takes_choice Ends.closes hrefuses ht') ?_⟩
    · rwa [start_node, hstart]
    · rw [announcedAll_single]
      exact branchwise_single front back htraced

theorem mem_alternatives {front back : List Rule} {t : ParseTree} : some t ∈
    front.map (fun _ => none) ++ some t :: back.map fun _ => none :=
  List.mem_append_right _ List.mem_cons_self

/-- A choice is carried where its alternatives are and those before each of them fail where it
matches. -/
theorem carries_choice (h : Ordered r r' call size after before [] rules)
    (hn : (Rule.choice rules o).name? ≠ some "Statement") :
    Carries r r' call (size + 1) (.choice rules o) after before := by
  intro start tree hsize hf hs
  obtain ⟨m, front, back, alternative, t, rfl, rfl, hk, hr, hstart, hstop, hf⟩ := fits_choice hf
  obtain ⟨first, hc, hfirst⟩ := h.alternative
  exact (hc (size_branch mem_alternatives hsize) hf hs).alternative hfirst (unannounced hr hn) hk hr
    hstart hstop

/-- An optional is passed where its body is carried, or fails where it is absent. -/
theorem passes_optional {before' : Text → Prop} (h : Carries r r' call size body after before)
    (ha : Alike r r') (habsent : ∀ left, after left → left <:+ r'.text →
      before' left ∧ r'.Refuses body left)
    (hpresent : ∀ left, before left → before' left)
    (hn : (Rule.optional body o).name? ≠ some "Statement") :
    Passes r r' call (size + 1) (.optional body o) after before' := by
  intro start tree starts left hsize hf hs hj hafter hsuffix
  rcases fits_optional hf with ⟨m, rfl, hk, hr, hstart, hstop⟩ |
    ⟨m, t, rfl, hk, hr, hstart, hstop, hf⟩
  · have hm : m.start = m.stop := hstart.trans hstop.symm
    rw [start_node, hstart, Text.window_self, List.nil_append, spelled_empty hm, List.nil_append]
      at hsuffix ⊢
    obtain ⟨hbefore, hrefuses⟩ := habsent left hafter hsuffix
    exact ⟨hstop ▸ hj, hbefore,
      carried_spanning hk hr (unannounced hr hn) (fun _ => hm)
        (takes_absent Ends.closes hrefuses) .nil⟩
  · have hlt := (h (size_branch List.mem_cons_self hsize) hf hs).solid
    have hspelled : spelled r.text call starts (.node m [some t]) =
        spelled r.text call starts t := by
      rw [spelled_plain (unannounced hr hn) (by omega), hstart, hstop]
      exact spelledAll_single [] [] t
    rw [start_node, hspelled, hstart] at hsuffix ⊢
    obtain ⟨hj', hbefore, tree', ht, htraced⟩ := h.passes ha
      (size_branch List.mem_cons_self hsize) hf hs (hstop ▸ hj) hafter hsuffix
    exact ⟨hj', hpresent _ hbefore, carried_spanning hk hr (unannounced hr hn)
      (fun he => by cases he) (takes_present Ends.closes ht) (.some htraced .nil)⟩

section Rounds
variable {first : Text → Prop} (h : Carries r r' call size body middle first) (ha : Alike r r')
  (hnext : ∀ left, first left ∨ after left → middle left)
  (hdone : ∀ left, after left → left <:+ r'.text → r'.Refuses body left)
include h ha hnext hdone

/-- Rounds of a body are matched again, as many as there were: it fails on what comes after. -/
theorem carried_rounds {start : Nat} {trees : List ParseTree}
    (hrounds : Rounds r.Fits start body trees) (hs : start ≤ r.stop) :
    ∀ {starts : List Nat} {left : Text}, (∀ tree ∈ trees, sizeOf tree ≤ size) →
      Joins (r.text.drop (lastStop start trees)) left → after left →
      spelledAll r.text call starts start (lastStop start trees) (trees.map some) ++ left <:+
        r'.text →
        Joins (r.text.drop start)
          (spelledAll r.text call starts start (lastStop start trees) (trees.map some) ++ left) ∧
        (first (spelledAll r.text call starts start (lastStop start trees) (trees.map some) ++
            left) ∨
          after (spelledAll r.text call starts start (lastStop start trees) (trees.map some) ++
            left)) ∧
        ∃ trees', r'.TakesRounds body
            (spelledAll r.text call starts start (lastStop start trees) (trees.map some) ++ left)
            left trees' ∧
          Branchwise (Traced r.text r'.text call) starts.length (trees.map some)
            (trees'.map some) (announcedAll call starts (trees.map some)).length := by
  induction hrounds with
  | nil =>
    intro starts left _ hj hafter hsuffix
    rw [List.map_nil, lastStop_nil, spelledAll_self, List.nil_append] at hsuffix ⊢
    exact ⟨hj, .inr hafter, [], .done (hdone left hafter hsuffix), .nil⟩
  | @cons start _ tree trees hf hlt _ ih =>
    intro starts left hsize hj hafter hsuffix
    have hwithin := (hf.sits ha.advances hs).within
    have hne := (h (hsize tree List.mem_cons_self) hf hs).shown starts
    rw [List.map_cons, lastStop_cons, spelledAll_some, List.append_assoc, List.append_assoc]
      at hsuffix ⊢
    rw [lastStop_cons] at hj
    have hsuffix' := ((List.suffix_append _ _).trans (List.suffix_append _ _)).trans hsuffix
    obtain ⟨hj', hmiddle, trees', ht', hb'⟩ := ih h hdone hwithin
      (fun t ht => hsize t (List.mem_cons_of_mem _ ht)) hj hafter hsuffix'
    obtain ⟨hj'', hfirst, tree', ht'', htraced⟩ :=
      h.passes ha (hsize tree List.mem_cons_self) hf hs hj' (hnext _ hmiddle) hsuffix
    refine ⟨hj'', .inl hfirst, tree' :: trees', .round ht'' ?_ ht', .some htraced hb'⟩
    have := List.length_pos_iff.2 hne
    simp only [List.length_append]
    omega

/-- A repetition is passed round by round, up to where its body fails. -/
theorem passes_repetition (hbefore : ∀ left, first left ∨ after left → before left)
    (hn : (Rule.repetition body o).name? ≠ some "Statement") :
    Passes r r' call (size + 1) (.repetition body o) after before := by
  intro start tree starts left hsize hf hs hj hafter hsuffix
  obtain ⟨m, trees, rfl, hk, hr, hspan, hrounds⟩ := fits_repetition hf
  have hstop : m.stop = lastStop start trees := hspan.2
  -- Apart from the gap before it, a repetition is spelled as its rounds are.
  have hspelled : r.text.window start m.start ++
      (spelled r.text call starts (.node m (trees.map some)) ++ left) =
        spelledAll r.text call starts start (lastStop start trees) (trees.map some) ++ left := by
    cases trees with
    | nil =>
      have hstart : m.start = start := hspan.1
      rw [spelled_empty (hstart.trans hstop.symm), hstart, Text.window_self, List.map_nil,
        lastStop_nil, spelledAll_self]
      rfl
    | cons t ts =>
      have hstart : m.start = t.start := hspan.1
      cases hrounds with
      | cons hf hlt hrounds =>
        have hwithin := (hf.sits ha.advances hs).within
        have hsucc := hrounds.inSuccession (fun _ _ _ hf hs => hf.sits ha.advances hs) hwithin
        have hle := (InSuccession.lastStop_le hsucc hwithin).1
        rw [lastStop_cons] at hstop ⊢
        rw [spelled_plain (unannounced hr hn) (by omega), hstart, hstop, List.map_cons,
          spelledAll_some, spelledAll_some, Text.window_self, List.nil_append, List.append_assoc,
          List.append_assoc, List.append_assoc]
  rw [stop_node, hstop] at hj
  rw [start_node, hspelled] at hsuffix ⊢
  obtain ⟨hj', hmiddle, trees', ht', hb'⟩ := carried_rounds h ha hnext hdone hrounds hs
    (fun t ht => size_branch (List.mem_map_of_mem ht) hsize) hj hafter hsuffix
  refine ⟨hj', hbefore _ hmiddle,
    carried_spanning hk hr (unannounced hr hn) (fun he => ?_)
      (takes_repetition Ends.closes ht' hsuffix) hb'⟩
  rw [List.map_eq_nil_iff.1 he] at hspan
  exact hspan.1.trans hspan.2.symm

end Rounds

/-- A reference is carried where the body of its rule is. -/
theorem carries_reference (hb : r.grammar.body? (Rule.leaf .reference o).target = some (some body))
    (h : Carries r r' call size body after before) (ha : Alike r r') :
    Carries r r' call size (.leaf .reference o) after before := by
  have hfits {start : Nat} {tree : ParseTree} (hf : r.Fits (.leaf .reference o) start tree) :
      r.Fits body start tree := by
    cases hf with
    | intro hf =>
      cases hf with
      | leaf hm =>
        cases hm with
        | extension hb' =>
          rw [hb] at hb'
          cases hb'
      | reference hb' hf =>
        rw [hb] at hb'
        cases hb'
        exact hf
      | node hb => cases hb
  intro start tree hsize hf hs
  obtain ⟨hsolid, hshown, hcarried⟩ := h hsize (hfits hf) hs
  refine ⟨hsolid, hshown, fun starts gap left hg hj hafter hsuffix => ?_⟩
  obtain ⟨hj', hbefore, tree', ht, htraced⟩ := hcarried hg hj hafter hsuffix
  exact ⟨hj', hbefore, tree', takes_reference Ends.closes (ha.grammar ▸ hb) ht, htraced⟩

/-- There is no tree of size zero. -/
theorem carries_zero : Carries r r' call 0 rule after before := by
  intro start tree hsize
  cases tree
  simp at hsize

theorem announced?_leaf (m : Match) : announced? (.leaf m) = none := by
  unfold announced? Tree.leaf
  split <;> rfl

theorem spelled_leaf {m : Match} (hm : m.start ≠ m.stop) (starts : List Nat) :
    spelled r.text call starts (.leaf m) = m.covered r.text :=
  (spelled_plain (announced?_leaf m) hm).trans spelledAll_nil

/-- A rule that matches words is carried when each word is matched again before a text that goes on
alike. -/
theorem carries_leaf (h : ∀ ⦃start tree⦄, r.Fits rule start tree → start ≤ r.stop →
    ∃ kind i word rest, tree = .leaf ⟨kind, i, i + word.length, rule⟩ ∧ word ≠ [] ∧
      r.text.drop i = word ++ rest ∧ Sharp (word ++ rest) ∧
      ∀ ⦃gap left⦄, r'.Stands gap (word ++ left) → Joins rest left → after left →
        before (gap ++ (word ++ left)) ∧ r'.Takes rule (gap ++ (word ++ left)) left
          (.leaf ⟨kind, r'.offset (word ++ left), r'.offset left, rule⟩)) :
    Carries r r' call size rule after before := by
  intro start tree _ hf hs
  obtain ⟨kind, i, word, rest, rfl, hne, hdrop, hsharp, hword⟩ := h hf hs
  have hlt : i < i + word.length := Nat.lt_add_of_pos_right (List.length_pos_iff.2 hne)
  have hspelled (starts : List Nat) :
      spelled r.text call starts (.leaf ⟨kind, i, i + word.length, rule⟩) = word := by
    rw [spelled_leaf (Nat.ne_of_lt hlt), Match.covered, Text.window, Nat.add_sub_cancel_left, hdrop,
      List.take_left]
  refine ⟨hlt, fun starts => ?_, fun starts gap left hg hj hafter hsuffix => ?_⟩
  · rw [hspelled]
    exact hne
  · rw [hspelled] at hsuffix ⊢
    have hrest : r.text.drop (i + word.length) = rest := by
      rw [← List.drop_drop, hdrop, List.drop_left]
    have hj : Joins rest left := hrest ▸ hj
    have hstands : r'.Stands gap (word ++ left) := ⟨hg, hsharp.join hne hj, hsuffix⟩
    obtain ⟨hbefore, ht⟩ := hword hstands hj hafter
    refine ⟨?_, hbefore, _, ht, ?_⟩
    · change Joins (r.text.drop i) _
      rw [hdrop]
      exact joins_append hne _ _
    · rw [Tree.leaf, announced_plain (announced?_leaf _)]
      refine .kept (announced?_leaf _) rfl rfl (fun _ => ?_) .nil
      rw [Match.covered, Match.covered, window_offset hstands.word_suffix, Text.window,
        Nat.add_sub_cancel_left, hdrop, List.take_left]

end Carrying
end OrderedBnf.StatementTrace
