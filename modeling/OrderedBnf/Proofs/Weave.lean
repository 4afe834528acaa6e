import OrderedBnf.Proofs.OffsetWalk

/-! The pieces of a rendered tree without its plain texts are the tree written out: each pair of
brackets around what lies within its node, and between them the characters that are shown. -/
namespace OrderedBnf

namespace Render

def isPair (n : Nat × Mark) : Bool := n.2.before.isSome && n.2.after.isSome

def Piece.isBracket : Piece → Bool
  | chars _ _ => false
  | opens n | closes n => isPair n

def Piece.letters : Piece → List Piece
  | chars start stop => (Int.range start stop).map fun o => chars o (o + 1)
  | opens n => if isPair n then [opens n] else []
  | closes n => if isPair n then [closes n] else []

theorem mem_letters_opens {n : Nat × Mark} {p : Piece} :
    p ∈ (Piece.opens n).letters ↔ p = .opens n ∧ isPair n := by
  rw [Piece.letters]
  split <;> simp [*]

theorem mem_letters_closes {n : Nat × Mark} {p : Piece} :
    p ∈ (Piece.closes n).letters ↔ p = .closes n ∧ isPair n := by
  rw [Piece.letters]
  split <;> simp [*]

def gap (shown : Int → Bool) (start stop : Int) : List Piece :=
  ((Int.range start stop).filter shown).map fun o => .chars o (o + 1)

mutual
/-- The brackets of a tree, each pair around what lies within its node, and the characters that
are shown. -/
def weave (shown : Int → Bool) (depth : Nat) : Tree Mark → List Piece
  | .node m branches =>
    if m.isEmpty then []
    else (Piece.opens (depth, m)).letters ++
      (weaveAll shown (depth + 1) m.start m.stop branches ++ (Piece.closes (depth, m)).letters)

def weaveAll (shown : Int → Bool) (depth : Nat) (cursor stop : Int) :
    List (Option (Tree Mark)) → List Piece
  | [] => gap shown cursor stop
  | none :: rest => weaveAll shown depth cursor stop rest
  | some (.node m branches) :: rest =>
    gap shown cursor m.start ++ weave shown depth (.node m branches) ++
      weaveAll shown depth m.stop stop rest
end

def Comes : Piece → Piece → Prop
  | .chars o _, .chars o' _ => o < o'
  | .chars o _, .opens n => o < n.2.start
  | .chars o _, .closes n => o < n.2.stop
  | .opens n, .chars o _ => n.2.start ≤ o
  | .opens n, .opens m => n.2.start < m.2.start ∨ n.2.start = m.2.start ∧ OpensBefore n m
  | .opens n, .closes m => n.2.start < m.2.stop
  | .closes n, .chars o _ => n.2.stop ≤ o
  | .closes n, .opens m => n.2.stop ≤ m.2.start
  | .closes n, .closes m => n.2.stop < m.2.stop ∨ n.2.stop = m.2.stop ∧ ClosesBefore n m

theorem Comes.asymm {p q : Piece} (h : Comes p q) : ¬ Comes q p := by
  intro h'
  cases p with
  | chars o _ => cases q <;> simp only [Comes] at h h' <;> omega
  | opens n =>
    cases q with
    | opens m =>
      simp only [Comes, OpensBefore] at h h'
      cases hn : n.2.after <;> cases hm : m.2.after <;> simp [hn, hm] at h h' <;> omega
    | _ => simp only [Comes] at h h'; omega
  | closes n =>
    cases q with
    | closes m =>
      simp only [Comes, ClosesBefore] at h h'
      cases hn : n.2.before <;> cases hm : m.2.before <;> simp [hn, hm] at h h' <;> omega
    | _ => simp only [Comes] at h h'; omega

/-- Of two opening texts the one that starts first comes first, and of those that start together the
longer one. -/
theorem comes_opens {a b : Nat × Mark} (ha : isPair a) (hb : isPair b) :
    Comes (.opens a) (.opens b) ↔ a.2.start < b.2.start ∨
      a.2.start = b.2.start ∧ (b.2.stop < a.2.stop ∨ a.2.stop = b.2.stop ∧ a.1 < b.1) := by
  obtain ⟨x, hx⟩ := Option.isSome_iff_exists.1 (Bool.and_eq_true_iff.1 ha).2
  obtain ⟨y, hy⟩ := Option.isSome_iff_exists.1 (Bool.and_eq_true_iff.1 hb).2
  simp [Comes, OpensBefore, hx, hy]

/-- Of two closing texts the one that stops first comes first, and of those that stop together the
shorter one. -/
theorem comes_closes {a b : Nat × Mark} (ha : isPair a) (hb : isPair b) :
    Comes (.closes a) (.closes b) ↔ a.2.stop < b.2.stop ∨
      a.2.stop = b.2.stop ∧ (b.2.start < a.2.start ∨ a.2.start = b.2.start ∧ b.1 < a.1) := by
  obtain ⟨x, hx⟩ := Option.isSome_iff_exists.1 (Bool.and_eq_true_iff.1 ha).1
  obtain ⟨y, hy⟩ := Option.isSome_iff_exists.1 (Bool.and_eq_true_iff.1 hb).1
  simp [Comes, ClosesBefore, hx, hy]

theorem letters_comes (n : Nat × Mark) :
    (Piece.opens n).letters.Pairwise Comes ∧ (Piece.closes n).letters.Pairwise Comes := by
  constructor <;> rw [Piece.letters] <;> split <;> simp

theorem nodup_of_comes {u : List Piece} (hu : u.Pairwise Comes) : u.Nodup :=
  hu.imp fun hab he => (he ▸ hab).asymm (he ▸ hab)

/-- Two words in order are the same if they are made of the same pieces. -/
theorem eq_of_comes {u v : List Piece} (hu : u.Pairwise Comes) (hv : v.Pairwise Comes)
    (h : ∀ p, p ∈ u ↔ p ∈ v) : u = v := by
  exact List.Perm.eq_of_pairwise (fun _ _ _ _ hab hba => absurd hba hab.asymm) hu hv
    ((List.perm_ext_iff_of_nodup (nodup_of_comes hu) (nodup_of_comes hv)).2 h)

/-- Where a piece of a tree may stand: within a range, and a bracket at no less than a depth. -/
def Piece.Lies (depth : Nat) (start stop : Int) : Piece → Prop
  | chars o _ => start ≤ o ∧ o < stop
  | opens n | closes n =>
    isPair n ∧ depth ≤ n.1 ∧ start ≤ n.2.start ∧ n.2.start < n.2.stop ∧ n.2.stop ≤ stop

/-- What lies before an offset comes before what lies behind it. -/
theorem Piece.Lies.comes {depth depth' : Nat} {start middle stop : Int} {p q : Piece}
    (hp : p.Lies depth start middle) (hq : q.Lies depth' middle stop) : Comes p q := by
  cases p <;> cases q <;> simp only [Piece.Lies, Comes] at * <;> omega

def Piece.Woven (shown : Int → Bool) (nodes : List (Nat × Mark)) (start stop : Int) : Piece → Prop
  | chars o o' => o' = o + 1 ∧ start ≤ o ∧ o < stop ∧ shown o
  | opens n | closes n => n ∈ nodes ∧ isPair n

theorem range_increasing (a b : Int) : (Int.range a b).Pairwise (· < ·) := by
  rw [Int.range, List.pairwise_map]
  apply List.pairwise_lt_range.imp
  intro i j hij
  exact Int.add_lt_add_left (Int.ofNat_lt.2 hij) a

section Weave
variable {shown : Int → Bool} {cursor start stop : Int} {p : Piece}

theorem mem_gap : p ∈ gap shown start stop ↔ p.Woven shown [] start stop := by
  cases p with
  | chars o o' =>
    simp only [gap, List.mem_map, List.mem_filter, Int.mem_range_iff, Piece.chars.injEq,
      Piece.Woven]
    constructor
    · rintro ⟨o, ⟨ho, hs⟩, rfl, rfl⟩
      exact ⟨rfl, ho.1, ho.2, hs⟩
    · rintro ⟨rfl, ho, ho', hs⟩
      exact ⟨o, ⟨⟨ho, ho'⟩, hs⟩, rfl, rfl⟩
  | _ => simp [gap, Piece.Woven]

theorem gap_comes : (gap shown start stop).Pairwise Comes := by
  rw [gap, List.pairwise_map]
  exact (range_increasing start stop).filter _

theorem weaveAll_some (depth : Nat) (t : Tree Mark) (rest : List (Option (Tree Mark))) :
    weaveAll shown depth cursor stop (some t :: rest) =
      gap shown cursor (Tree.label t).start ++ weave shown depth t ++
        weaveAll shown depth (Tree.label t).stop stop rest := by
  cases t
  rw [weaveAll]
  rfl

structure Inside (cursor stop : Int) (branches : List (Option (Tree Mark))) : Prop where
  le : cursor ≤ stop
  within : ∀ t ∈ branches.filterMap id, t.WellFormed ∧ cursor ≤ (Tree.label t).start ∧
    (Tree.label t).stop ≤ stop
  inOrder : (branches.filterMap id).Pairwise fun a b => (Tree.label a).stop ≤ (Tree.label b).start

theorem Inside.tail {t : Tree Mark} {rest : List (Option (Tree Mark))}
    (h : Inside cursor stop (some t :: rest)) : Inside (Tree.label t).stop stop rest := by
  have hord := h.inOrder
  change (t :: rest.filterMap id).Pairwise _ at hord
  rw [List.pairwise_cons] at hord
  refine ⟨(h.within t (by simp)).2.2, fun t' ht' => ?_, hord.2⟩
  obtain ⟨hw, _, hs⟩ := h.within t' (by simpa using .inr (by simpa using ht'))
  exact ⟨hw, hord.1 t' ht', hs⟩

/-- The range of a well-formed node holds its branches. -/
theorem inside_of_wellFormed {m : Mark} {branches : List (Option (Tree Mark))}
    (h : (Tree.node m branches).WellFormed) : Inside m.start m.stop branches := by
  cases h with
  | node hle hin hord hwf =>
    refine ⟨hle, fun t ht => ?_, hord⟩
    have ht : some t ∈ branches := by simpa using ht
    exact ⟨hwf t ht, hin t ht⟩

/-- The pieces of branches are those of the ranges between them and their own. -/
theorem mem_weaveAll {depth : Nat} {branches : List (Option (Tree Mark))}
    (ih : ∀ t ∈ branches.filterMap id, ∀ p, p ∈ weave shown depth t ↔
      p.Woven shown (t.solid depth) (Tree.label t).start (Tree.label t).stop) :
    ∀ {cursor}, Inside cursor stop branches →
      (p ∈ weaveAll shown depth cursor stop branches ↔
        p.Woven shown ((branches.filterMap id).flatMap (Tree.solid · depth)) cursor stop) := by
  induction branches with
  | nil =>
    intro cursor _
    rw [weaveAll, mem_gap]
    rfl
  | cons branch rest hrest =>
    intro cursor h
    cases branch with
    | none => exact hrest ih ⟨h.le, h.within, h.inOrder⟩
    | some t =>
      have hr := hrest (fun t' ht' => ih t' (List.mem_cons_of_mem _ ht')) h.tail
      obtain ⟨hw, hs, ht⟩ := h.within t List.mem_cons_self
      have hle := hw.le
      rw [weaveAll_some, List.mem_append, List.mem_append, mem_gap, ih t List.mem_cons_self, hr]
      cases p with
      | chars o o' => cases h : shown o <;> simp [Piece.Woven, h]; omega
      | _ => simp [Piece.Woven, or_and_right]

/-- The pieces of a weave are the pairs among the nodes and the characters that are shown. -/
theorem mem_weave {tree : Tree Mark} (h : tree.WellFormed) : ∀ {depth : Nat} {p : Piece},
    p ∈ weave shown depth tree ↔
      p.Woven shown (tree.solid depth) (Tree.label tree).start (Tree.label tree).stop := by
  induction h with
  | @node m branches hle hin hord hwf ih =>
    intro depth p
    have hw := Tree.WellFormed.node hle hin hord hwf
    have hi : p ∈ weaveAll shown (depth + 1) m.start m.stop branches ↔ _ :=
      mem_weaveAll (fun t ht p => ih t (by simpa using ht)) (inside_of_wellFormed hw)
    rw [weave]
    split
    · rename_i he
      rw [solid_eq_nil hw he]
      have hs : m.start = m.stop := by simpa [Mark.isEmpty] using he
      cases p <;> simp [Piece.Woven, Tree.label, hs]
      omega
    · rename_i he
      rw [solid_node, if_neg he, List.mem_append, List.mem_append, mem_letters_opens,
        mem_letters_closes, hi]
      cases p with
      | chars o o' => simp [Piece.Woven, Tree.label]
      | opens n => simp [Piece.Woven]; grind
      | closes n => simp [Piece.Woven]; grind

theorem lies_of_mem_weave {tree : Tree Mark} (h : tree.WellFormed) {depth : Nat}
    (hp : p ∈ weave shown depth tree) :
    p.Lies depth (Tree.label tree).start (Tree.label tree).stop := by
  rw [mem_weave h] at hp
  cases p with
  | chars o o' => exact ⟨hp.2.1, hp.2.2.1⟩
  | opens n => exact ⟨hp.2, solid_within h n hp.1⟩
  | closes n => exact ⟨hp.2, solid_within h n hp.1⟩

theorem lies_of_mem_gap (depth : Nat) (hp : p ∈ gap shown start stop) :
    p.Lies depth start stop := by
  rw [mem_gap] at hp
  cases p with
  | chars o o' => exact ⟨hp.2.1, hp.2.2.1⟩
  | _ => exact absurd hp.1 List.not_mem_nil

theorem Piece.Lies.mono {depth : Nat} {start' stop' : Int} (h : p.Lies depth start stop)
    (hs : start' ≤ start) (ht : stop ≤ stop') : p.Lies depth start' stop' := by
  cases p with
  | chars o o' => exact ⟨Int.le_trans hs h.1, Int.lt_of_lt_of_le h.2 ht⟩
  | _ =>
    obtain ⟨hp, hd, hs', hlt, ht'⟩ := h
    exact ⟨hp, hd, Int.le_trans hs hs', hlt, Int.le_trans ht' ht⟩

/-- A pair opens before what lies within it and closes after that. -/
theorem Piece.Lies.enclosed {depth : Nat} {m : Mark} (hpair : isPair (depth, m))
    (h : p.Lies (depth + 1) m.start m.stop) :
    Comes (.opens (depth, m)) p ∧ Comes p (.closes (depth, m)) := by
  simp only [isPair, Bool.and_eq_true] at hpair
  cases p with
  | chars o o' => exact ⟨h.1, Int.lt_of_lt_of_le h.2 (Int.le_refl _)⟩
  | opens n =>
    obtain ⟨hp, hd, hs, hlt, ht⟩ := h
    simp only [isPair, Bool.and_eq_true] at hp
    constructor
    · simp only [Comes, OpensBefore, hpair, hp, true_and]
      omega
    · exact Int.lt_of_lt_of_le hlt ht
  | closes n =>
    obtain ⟨hp, hd, hs, hlt, ht⟩ := h
    simp only [isPair, Bool.and_eq_true] at hp
    constructor
    · exact Int.lt_of_le_of_lt hs hlt
    · simp only [Comes, ClosesBefore, hpair, hp, true_and]
      omega

/-- Branches one after another are woven one after another. -/
theorem weaveAll_comes {depth : Nat} {branches : List (Option (Tree Mark))}
    (ih : ∀ t ∈ branches.filterMap id, (weave shown depth t).Pairwise Comes) :
    ∀ {cursor}, Inside cursor stop branches →
      (weaveAll shown depth cursor stop branches).Pairwise Comes ∧
        ∀ p ∈ weaveAll shown depth cursor stop branches, p.Lies depth cursor stop := by
  induction branches with
  | nil => exact fun _ => ⟨gap_comes, fun p => lies_of_mem_gap depth⟩
  | cons branch rest hrest =>
    intro cursor h
    cases branch with
    | none => exact hrest ih ⟨h.le, h.within, h.inOrder⟩
    | some t =>
      obtain ⟨hr, hrl⟩ := hrest (fun t' ht' => ih t' (List.mem_cons_of_mem _ ht')) h.tail
      obtain ⟨hw, hs, ht⟩ := h.within t List.mem_cons_self
      have hle := hw.le
      rw [weaveAll_some, List.append_assoc]
      constructor
      · rw [List.pairwise_append, List.pairwise_append]
        refine ⟨gap_comes, ⟨ih t List.mem_cons_self, hr, fun p hp q hq => ?_⟩, fun p hp q hq => ?_⟩
        · exact (lies_of_mem_weave hw hp).comes (hrl q hq)
        · have hl : q.Lies depth (Tree.label t).start stop := by
            rcases List.mem_append.1 hq with hq | hq
            · exact (lies_of_mem_weave hw hq).mono (Int.le_refl _) ht
            · exact (hrl q hq).mono hle (Int.le_refl _)
          exact (lies_of_mem_gap depth hp).comes hl
      · intro p hp
        rcases List.mem_append.1 hp with hp | hp
        · exact (lies_of_mem_gap depth hp).mono (Int.le_refl _) (Int.le_trans hle ht)
        · rcases List.mem_append.1 hp with hp | hp
          · exact (lies_of_mem_weave hw hp).mono hs ht
          · exact (hrl p hp).mono (Int.le_trans hs hle) (Int.le_refl _)

/-- A weave has its pieces in order. -/
theorem weave_comes {tree : Tree Mark} (h : tree.WellFormed) :
    ∀ {depth : Nat}, (weave shown depth tree).Pairwise Comes := by
  induction h with
  | @node m branches hle hin hord hwf ih =>
    intro depth
    have hw := Tree.WellFormed.node hle hin hord hwf
    have hweave : ∀ t ∈ branches.filterMap id, (weave shown (depth + 1) t).Pairwise Comes :=
      fun t ht => ih t (by simpa using ht)
    obtain ⟨hc, hl⟩ := weaveAll_comes hweave (inside_of_wellFormed hw)
    rw [weave]
    split
    · exact .nil
    · rename_i he
      have hlt : m.start < m.stop := by
        simp only [Mark.isEmpty, decide_eq_true_eq] at he
        omega
      rw [List.pairwise_append, List.pairwise_append]
      refine ⟨(letters_comes _).1, ⟨hc, (letters_comes _).2, fun p hp q hq => ?_⟩, fun p hp q hq => ?_⟩
      · obtain ⟨rfl, hpair⟩ := mem_letters_closes.1 hq
        exact ((hl p hp).enclosed hpair).2
      · obtain ⟨rfl, hpair⟩ := mem_letters_opens.1 hp
        rcases List.mem_append.1 hq with hq | hq
        · exact ((hl q hq).enclosed hpair).1
        · obtain ⟨rfl, -⟩ := mem_letters_closes.1 hq
          exact hlt

end Weave

section Letters
variable {tree : Tree Mark} {o : Int} {p : Piece}

def lettersAt (tree : Tree Mark) (o : Int) : List Piece :=
  (closing (tree.solid 0) o ++ opening (tree.solid 0) o).flatMap Piece.letters ++
    if o < (Tree.label tree).stop ∧ ¬ Hides (tree.solid 0) o then [.chars o (o + 1)] else []

def Piece.offset : Piece → Int
  | chars o _ => o
  | opens n => n.2.start
  | closes n => n.2.stop

theorem mem_closing_letters {nodes : List (Nat × Mark)} :
    p ∈ (closing nodes o).flatMap Piece.letters ↔
      ∃ n ∈ nodes, isPair n ∧ n.2.stop = o ∧ p = .closes n := by
  simp only [closing, sortBy, List.flatMap_map, List.mem_flatMap, List.mem_mergeSort,
    List.mem_filter, Bool.and_eq_true, decide_eq_true_eq, mem_letters_closes]
  constructor
  · rintro ⟨n, ⟨hn, -, ho⟩, rfl, hpair⟩
    exact ⟨n, hn, hpair, ho, rfl⟩
  · rintro ⟨n, hn, hpair, ho, rfl⟩
    exact ⟨n, ⟨hn, (Bool.and_eq_true_iff.1 hpair).2, ho⟩, rfl, hpair⟩

theorem mem_opening_letters {nodes : List (Nat × Mark)} :
    p ∈ (opening nodes o).flatMap Piece.letters ↔
      ∃ n ∈ nodes, isPair n ∧ n.2.start = o ∧ p = .opens n := by
  simp only [opening, sortBy, List.flatMap_map, List.mem_flatMap, List.mem_mergeSort,
    List.mem_filter, Bool.and_eq_true, decide_eq_true_eq, mem_letters_opens]
  constructor
  · rintro ⟨n, ⟨hn, -, ho⟩, rfl, hpair⟩
    exact ⟨n, hn, hpair, ho, rfl⟩
  · rintro ⟨n, hn, hpair, ho, rfl⟩
    exact ⟨n, ⟨hn, (Bool.and_eq_true_iff.1 hpair).1, ho⟩, rfl, hpair⟩

theorem mem_charAt {shows : Prop} [Decidable shows] :
    p ∈ (if shows then [Piece.chars o (o + 1)] else []) ↔ p = .chars o (o + 1) ∧ shows := by
  split <;> simp [*]

theorem mem_lettersAt : p ∈ lettersAt tree o ↔ p.offset = o ∧
    p.Woven (fun o => ¬ Hides (tree.solid 0) o) (tree.solid 0) o (Tree.label tree).stop := by
  rw [lettersAt, List.flatMap_append, List.mem_append, List.mem_append, mem_closing_letters,
    mem_opening_letters, mem_charAt]
  constructor
  · rintro ((⟨n, hn, hpair, rfl, rfl⟩ | ⟨n, hn, hpair, rfl, rfl⟩) | ⟨rfl, ho, hh⟩)
    · exact ⟨rfl, hn, hpair⟩
    · exact ⟨rfl, hn, hpair⟩
    · exact ⟨rfl, rfl, Int.le_refl _, ho, decide_eq_true hh⟩
  · rintro ⟨rfl, hw⟩
    cases p with
    | chars o o' => exact .inr ⟨congrArg _ hw.1, hw.2.2.1, of_decide_eq_true hw.2.2.2⟩
    | opens n => exact .inl (.inr ⟨n, hw.1, hw.2, rfl, rfl⟩)
    | closes n => exact .inl (.inl ⟨n, hw.1, hw.2, rfl, rfl⟩)

theorem lettersAt_comes (h : tree.WellFormed) : (lettersAt tree o).Pairwise Comes := by
  have hclosing : ((closing (tree.solid 0) o).flatMap Piece.letters).Pairwise Comes := by
    have ha := arranges_closers o h
    change (((sortBy closingKey (closers o (tree.solid 0))).map Piece.closes).flatMap
      Piece.letters).Pairwise Comes
    rw [List.flatMap_map, List.pairwise_flatMap]
    refine ⟨fun n _ => (letters_comes n).2, ha.inOrder.imp_of_mem fun {n m} hn hm hnm p hp q hq => ?_⟩
    obtain ⟨rfl, -⟩ := mem_letters_closes.1 hp
    obtain ⟨rfl, -⟩ := mem_letters_closes.1 hq
    rw [ha.perm.mem_iff, closers, List.mem_filter, Bool.and_eq_true, decide_eq_true_eq] at hn hm
    exact .inr ⟨hn.2.2.trans hm.2.2.symm, hnm⟩
  have hopening : ((opening (tree.solid 0) o).flatMap Piece.letters).Pairwise Comes := by
    have ha := arranges_openers o h
    change (((sortBy openingKey (openers o (tree.solid 0))).map Piece.opens).flatMap
      Piece.letters).Pairwise Comes
    rw [List.flatMap_map, List.pairwise_flatMap]
    refine ⟨fun n _ => (letters_comes n).1, ha.inOrder.imp_of_mem fun {n m} hn hm hnm p hp q hq => ?_⟩
    obtain ⟨rfl, -⟩ := mem_letters_opens.1 hp
    obtain ⟨rfl, -⟩ := mem_letters_opens.1 hq
    rw [ha.perm.mem_iff, openers, List.mem_filter, Bool.and_eq_true, decide_eq_true_eq] at hn hm
    exact .inr ⟨hn.2.2.trans hm.2.2.symm, hnm⟩
  rw [lettersAt, List.flatMap_append, List.append_assoc, List.pairwise_append,
    List.pairwise_append]
  refine ⟨hclosing, ⟨hopening, ?_, fun p hp q hq => ?_⟩, fun p hp q hq => ?_⟩
  · split <;> simp
  · obtain ⟨n, -, -, rfl, rfl⟩ := mem_opening_letters.1 hp
    obtain ⟨rfl, -⟩ := mem_charAt.1 hq
    exact Int.le_refl _
  · obtain ⟨n, -, -, rfl, rfl⟩ := mem_closing_letters.1 hp
    rcases List.mem_append.1 hq with hq | hq
    · obtain ⟨m, -, -, hs, rfl⟩ := mem_opening_letters.1 hq
      exact hs.ge
    · obtain ⟨rfl, -⟩ := mem_charAt.1 hq
      exact Int.le_refl _

/-- The letters of the pieces of a tree are the weave of what is not hidden. -/
theorem pieces_letters (h : tree.WellFormed) (he : ¬ (Tree.label tree).isEmpty) :
    (pieces tree).flatMap Piece.letters =
      weave (fun o => ¬ Hides (tree.solid 0) o) 0 tree := by
  have hemit (a b : Int) : (Piece.chars a b).letters =
      (Int.range a b).flatMap fun o => (Piece.chars o (o + 1)).letters := by
    simp only [Piece.letters, range_succ, List.map_singleton]
    rw [List.map_eq_flatMap]
  have hat (o : Int) : (closing (tree.solid 0) o ++ opening (tree.solid 0) o).flatMap Piece.letters ++
      (if o < (Tree.label tree).stop ∧ ¬ Hides (tree.solid 0) o then
        (Piece.chars o (o + 1)).letters else []) = lettersAt tree o := by
    rw [lettersAt, Piece.letters, range_succ]
    rfl
  rw [pieces_eq h he fun a b _ _ => hemit a b]
  simp only [hat]
  apply eq_of_comes ?_ (weave_comes h) ?_
  · rw [List.pairwise_flatMap]
    refine ⟨fun o _ => lettersAt_comes h, (range_increasing _ _).imp fun {o o'} hlt p hp q hq => ?_⟩
    obtain ⟨rfl, hp⟩ := mem_lettersAt.1 hp
    obtain ⟨rfl, hq⟩ := mem_lettersAt.1 hq
    cases p <;> cases q <;> simp only [Comes, Piece.offset] at * <;> omega
  · intro p
    rw [mem_weave h, List.mem_flatMap]
    simp only [mem_lettersAt, Int.mem_range_iff]
    constructor
    · rintro ⟨o, ho, rfl, hp⟩
      cases p with
      | chars o o' => exact ⟨hp.1, ho.1, hp.2.2⟩
      | _ => exact hp
    · intro hp
      refine ⟨p.offset, ?_, rfl, ?_⟩
      · cases p with
        | chars o o' => 
          simp only [Piece.Woven, Piece.offset] at *
          omega
        | opens n =>
          have := solid_within h n hp.1
          simp only [Piece.offset]
          omega
        | closes n =>
          have := solid_within h n hp.1
          simp only [Piece.offset]
          omega
      · cases p with
        | chars o o' => exact ⟨hp.1, Int.le_refl _, hp.2.2⟩
        | _ => exact hp

end Letters

end Render
end OrderedBnf
