import OrderedBnf.Proofs.CompileFaults
import OrderedBnf.Proofs.Excerpts

/-! What compiles is in normal form: chains are flat at their ends, and nodes lie in one another and
beside one another as they were written. -/
namespace OrderedBnf

theorem foldl_max_le {stops : List Nat} {a n : Nat} :
    stops.foldl max a ≤ n ↔ a ≤ n ∧ ∀ stop ∈ stops, stop ≤ n := by
  induction stops generalizing a with
  | nil => simp
  | cons stop stops ih => rw [List.foldl_cons, ih, Nat.max_le, List.forall_mem_cons, and_assoc]

theorem le_foldl_max {stops : List Nat} {stop : Nat} (h : stop ∈ stops) (a : Nat) :
    stop ≤ stops.foldl max a :=
  (foldl_max_le.1 (Nat.le_refl _)).2 stop h

namespace Rule
variable {text : Text} {s : Stretch} {rule node left right body : Rule} {cut : Cut}

/-- A chain has two branches at least, of which the last is of another kind; an optional part and a
repetition have one, and a leaf has none. The branches of a node lie within it, one behind the
other. -/
structure Normal (text : Text) (node : Rule) : Prop where
  chain : node.kind = .sequence ∨ node.kind = .choice → 2 ≤ node.branches.length ∧
    ∀ last, node.branches.getLast? = some last → last.kind ≠ node.kind
  single : node.kind = .optional ∨ node.kind = .repetition → node.branches.length = 1
  leaf : node.kind ∉ [.sequence, .choice, .optional, .repetition] → node.branches = []
  whole : node.origin.text = text
  start_lt : node.start < node.stop
  stop_le : node.stop ≤ text.length
  within : ∀ branch ∈ node.branches, node.start ≤ branch.start ∧ branch.stop ≤ node.stop
  ordered : node.branches.Pairwise fun branch next => branch.stop ≤ next.start

theorem Normal.operands (h : right.Normal text) {kind : Kind}
    (hkind : kind = .sequence ∨ kind = .choice) : right.operands kind ≠ [] ∧
      (∀ last, (right.operands kind).getLast? = some last → last.kind ≠ kind) ∧
      (∀ branch ∈ right.operands kind, right.start ≤ branch.start ∧ branch.stop ≤ right.stop) ∧
      (right.operands kind).Pairwise fun branch next => branch.stop ≤ next.start := by
  by_cases hk : right.kind = kind
  · rw [Rule.operands, if_pos hk]
    obtain ⟨hlength, hlast⟩ := h.chain (hk ▸ hkind)
    exact ⟨List.ne_nil_of_length_pos (by omega), hk ▸ hlast, h.within, h.ordered⟩
  · rw [Rule.operands, if_neg hk]
    refine ⟨List.cons_ne_nil _ _, ?_, ?_, List.pairwise_singleton _ _⟩
    · rintro _ ⟨⟩
      exact hk
    · rw [List.forall_mem_singleton]
      exact ⟨Nat.le_refl _, Nat.le_refl _⟩

theorem join_normal (cut : Cut) (hl : left.Normal text) (hr : right.Normal text)
    (hgap : left.stop ≤ right.start) : (join text cut left right).Normal text := by
  have hcut := cut.kind_isChain
  obtain ⟨hne, hlast, hwithin, hordered⟩ := hr.operands hcut
  have horigin := join_origin text cut left right
  have hstart := join_start text cut left right
  have hstop : (join text cut left right).stop = _ := congrArg Origin.stop horigin
  have hreach : ∀ branch ∈ left :: right.operands cut.kind,
      branch.stop ≤ (join text cut left right).stop := by
    intro branch hb
    rw [hstop]
    exact le_foldl_max (List.mem_map_of_mem hb) 0
  constructor
  · intro _
    rw [join_branches, join_kind]
    refine ⟨?_, fun last h => ?_⟩
    · have := List.length_pos_iff.2 hne
      rw [List.length_cons]
      omega
    · rw [List.getLast?_cons_of_ne_nil hne] at h
      exact hlast last h
  · intro h
    rw [join_kind] at h
    rcases hcut with hcut | hcut <;> rw [hcut] at h <;> simp at h
  · intro h
    rw [join_kind] at h
    rcases hcut with hcut | hcut <;> rw [hcut] at h <;> simp at h
  · exact congrArg Origin.text horigin
  · rw [hstart]
    exact hl.start_lt.trans_le (hreach left List.mem_cons_self)
  · rw [hstop, foldl_max_le, List.forall_mem_map, List.forall_mem_cons]
    exact ⟨Nat.zero_le _, hl.stop_le, fun branch hb => (hwithin branch hb).2.trans hr.stop_le⟩
  · rw [join_branches, hstart]
    intro branch hb
    refine ⟨?_, hreach branch hb⟩
    rcases List.mem_cons.1 hb with rfl | hb
    · exact Nat.le_refl _
    · exact (hl.start_lt.le.trans hgap).trans (hwithin branch hb).1
  · rw [join_branches, List.pairwise_cons]
    exact ⟨fun branch hb => hgap.trans (hwithin branch hb).1, hordered⟩

section Widening
variable (o : Origin) (rule : Rule)

theorem withOrigin_kind : (rule.withOrigin o).kind = rule.kind := by cases rule <;> rfl

theorem withOrigin_branches : (rule.withOrigin o).branches = rule.branches := by cases rule <;> rfl

theorem withOrigin_origin : (rule.withOrigin o).origin = o := by cases rule <;> rfl

end Widening

theorem Normal.widened (h : node.Normal text) {start stop : Nat} (hstart : start ≤ node.start)
    (hstop : node.stop ≤ stop) (hle : stop ≤ text.length) :
    (node.withOrigin ⟨start, stop, false, none, text⟩).Normal text := by
  constructor
  · rw [withOrigin_kind, withOrigin_branches]
    exact h.chain
  · rw [withOrigin_kind, withOrigin_branches]
    exact h.single
  · rw [withOrigin_kind, withOrigin_branches]
    exact h.leaf
  · rw [withOrigin_origin]
  · rw [Rule.start, Rule.stop, withOrigin_origin]
    exact (hstart.trans_lt h.start_lt).trans_le hstop
  · rw [Rule.stop, withOrigin_origin]
    exact hle
  · rw [withOrigin_branches, Rule.start, Rule.stop, withOrigin_origin]
    exact fun branch hb => (h.within branch hb).imp hstart.trans (·.trans hstop)
  · rw [withOrigin_branches]
    exact h.ordered

theorem leaf_normal {form : Leaf} {start stop : Nat} (hlt : start < stop)
    (hle : stop ≤ text.length) : (leaf form ⟨start, stop, false, none, text⟩).Normal text where
  chain h := by cases form <;> simp [kind, Leaf.kind] at h
  single h := by cases form <;> simp [kind, Leaf.kind] at h
  leaf _ := rfl
  whole := rfl
  start_lt := hlt
  stop_le := hle
  within := nofun
  ordered := .nil

theorem enclosing_normal (hkind : node.kind = .optional ∨ node.kind = .repetition)
    (hbranches : node.branches = [body])
    (horigin : node.origin = ⟨s.start, s.stop, false, none, text⟩) (h : body.Normal text)
    (hstart : s.start ≤ body.start) (hstop : body.stop ≤ s.stop) (hle : s.stop ≤ text.length) :
    node.Normal text := by
  have hs : node.start = s.start := congrArg Origin.start horigin
  have ht : node.stop = s.stop := congrArg Origin.stop horigin
  constructor
  · rcases hkind with hkind | hkind <;> simp [hkind]
  · exact fun _ => congrArg List.length hbranches
  · rcases hkind with hkind | hkind <;> simp [hkind]
  · exact congrArg Origin.text horigin
  · rw [hs, ht]
    exact (hstart.trans_lt h.start_lt).trans_le hstop
  · rw [ht]
    exact hle
  · rw [hbranches, hs, ht]
    exact List.forall_mem_singleton.2 ⟨hstart, hstop⟩
  · rw [hbranches]
    exact List.pairwise_singleton _ _

theorem bracket_normal (opening : Char) (h : body.Normal text) (hstart : s.start ≤ body.start)
    (hstop : body.stop ≤ s.stop) (hle : s.stop ≤ text.length) :
    (bracket text s opening body).Normal text := by
  unfold bracket
  split
  · cases body with
    | leaf => exact h
    | _ => exact h.widened hstart hstop hle
  · split
    · exact enclosing_normal (.inl rfl) rfl rfl h hstart hstop hle
    · exact enclosing_normal (.inr rfl) rfl rfl h hstart hstop hle

/-- All that a stretch compiles to is in normal form, by what it leaves out of the stretch at the
ends. -/
theorem Compiled.normal (h : Compiled text s rule) :
    s.Within text → ∀ node ∈ rule.nodes, node.Normal text := by
  induction h with
  | @leaf s form hc hword =>
    intro hw node hn
    obtain rfl := List.mem_singleton.1 hn
    have hne := (Compiled.leaf hc hword : Compiled text s _).ne_nil
    exact leaf_normal (Nat.lt_add_of_pos_right (List.length_pos_iff.2 hne)) hw.stop_le
  | @bracket s opening closing inner body _ hs _ _ hbody ih =>
    intro hw node hn
    replace ih := ih (hw.inner hs).trim
    rcases mem_nodes_bracket hn with rfl | hn
    · have hextent := hbody.extent (hw.inner hs).trim
      obtain ⟨hopening, hclosing⟩ := hw.bracket_margins hs
      obtain ⟨hstart, hstop⟩ := s.inner.trim_within
      apply bracket_normal opening (ih body body.self_mem_nodes)
      · exact hopening.1.trans (hstart.trans hextent.front.1)
      · exact (hextent.back _ List.mem_cons_self).2.1.trans (hstop.trans hclosing.1)
      · exact hw.stop_le
    · exact ih node hn
  | @cut s cut left right hc hl hr ihl ihr =>
    intro hw node hn
    have hwl := (hw.before cut).trim
    have hwr := (hw.after (Stretch.cut?_offset_lt hc)).trim
    rcases mem_nodes_join hn with rfl | hn | hn
    · apply join_normal cut (ihl hwl left left.self_mem_nodes) (ihr hwr right right.self_mem_nodes)
      have hleft := ((hl.extent hwl).back _ List.mem_cons_self).2.1
      have hright := (hr.extent hwr).front.1
      have hbefore : (s.before cut).trim.stop ≤ s.start + cut.offset :=
        s.before_length hc ▸ (s.before cut).trim_within.2
      have hafter : s.start + cut.offset + 1 ≤ (s.after cut).trim.start :=
        (s.after cut).trim_within.1
      omega
    · exact ihl hwl node hn
    · exact ihr hwr node hn

end Rule
end OrderedBnf
