import OrderedBnf.StatementTrace
import OrderedBnf.Proofs.Fitting
import OrderedBnf.Proofs.Literals
import OrderedBnf.Proofs.Written

/-! The text of an instrumented program, node by node. -/
namespace OrderedBnf

namespace Tree
variable {α β γ σ : Type}

mutual
/-- Every label of a relabelled tree is what the relabelling makes of some node. -/
theorem mem_walk_thread (f : σ → Tree α → β × σ) {b : β} : ∀ (s : σ) (tree : Tree α),
    b ∈ walk (thread f s tree).1 → ∃ s node, b = (f s node).1
  | s, .node a bs, h => by
    rw [thread, walk, List.mem_cons] at h
    rcases h with rfl | h
    · exact ⟨s, _, rfl⟩
    · exact mem_walkAll_threadAll f _ bs h

theorem mem_walkAll_threadAll (f : σ → Tree α → β × σ) {b : β} :
    ∀ (s : σ) (branches : List (Option (Tree α))),
      b ∈ walkAll (threadAll f s branches).1 → ∃ s node, b = (f s node).1
  | s, none :: rest, h => mem_walkAll_threadAll f s rest h
  | s, some t :: rest, h => by
    rw [threadAll, walkAll, List.mem_append] at h
    rcases h with h | h
    · exact mem_walk_thread f s t h
    · exact mem_walkAll_threadAll f _ rest h
end

mutual
/-- A relabelling that only adds to the labels. -/
theorem map_thread {f : σ → Tree α → β × σ} {g : β → γ} {k : α → γ}
    (hf : ∀ s node, g (f s node).1 = k (label node)) : ∀ (s : σ) (tree : Tree α),
    map g (thread f s tree).1 = map k tree
  | s, .node a bs => by
    rw [thread, map, map, hf, mapAll_threadAll hf]
    rfl

theorem mapAll_threadAll {f : σ → Tree α → β × σ} {g : β → γ} {k : α → γ}
    (hf : ∀ s node, g (f s node).1 = k (label node)) :
    ∀ (s : σ) (branches : List (Option (Tree α))),
      mapAll g (threadAll f s branches).1 = mapAll k branches
  | s, [] => rfl
  | s, none :: rest => by
    rw [threadAll, mapAll, mapAll, mapAll_threadAll hf s rest]
  | s, some t :: rest => by
    rw [threadAll, mapAll, mapAll, map_thread hf s t, mapAll_threadAll hf _ rest]
end

mutual
theorem walk_map (f : α → β) : ∀ tree : Tree α, walk (map f tree) = (walk tree).map f
  | .node a bs => by rw [map, walk, walk, List.map_cons, walkAll_mapAll f bs]

theorem walkAll_mapAll (f : α → β) : ∀ branches : List (Option (Tree α)),
    walkAll (mapAll f branches) = (walkAll branches).map f
  | [] => rfl
  | none :: rest => walkAll_mapAll f rest
  | some t :: rest => by
    rw [mapAll, walkAll, walkAll, List.map_append, walk_map f t, walkAll_mapAll f rest]
end

/-- Well-formedness is about the ranges alone. -/
theorem WellFormed.map_congr {g g' : α → Mark} (hg : ∀ a, (g a).start = (g' a).start)
    (hg' : ∀ a, (g a).stop = (g' a).stop) {tree : Tree α} (h : (map g tree).WellFormed) :
    (map g' tree).WellFormed := by
  generalize hm : map g tree = marked at h
  induction h generalizing tree with
  | node hle hin hord _ ih =>
    obtain ⟨a, bs⟩ := tree
    cases hm
    refine .node (hg a ▸ hg' a ▸ hle) ?_ ?_ ?_
    · intro t ht
      obtain ⟨t, hb, rfl⟩ := mem_mapAll.1 ht
      have := hin _ (mem_mapAll.2 ⟨t, hb, rfl⟩)
      simp only [label_map, hg, hg'] at this ⊢
      exact this
    · rw [filterMap_mapAll, List.pairwise_map] at hord ⊢
      simpa only [label_map, hg, hg'] using hord
    · intro t ht
      obtain ⟨t, hb, rfl⟩ := mem_mapAll.1 ht
      exact ih _ (mem_mapAll.2 ⟨t, hb, rfl⟩) rfl

end Tree

namespace StatementTrace
open Render

/-- The brackets of one node: those of a statement, numbered by the statements before it. -/
def announce (call : String) (starts : List Nat) (node : ParseTree) :
    (Match × Decoration) × List Nat :=
  match announced? node with
  | none => ((node.label, {}), starts)
  | some start => ((node.label, bracket call (starts.length + 1)), starts ++ [start])

def marked (call : String) (starts : List Nat) (tree : ParseTree) : Tree Mark :=
  Tree.map (fun p => p.1.mark p.2) (Tree.thread (announce call) starts tree).1

section Marks
variable {call : String} {starts : List Nat} {tree : ParseTree}

theorem announce_fst : ((announce call starts tree).1).1 = tree.label := by
  rw [announce]
  split <;> rfl

theorem marked_bracket : ∀ m ∈ (marked call starts tree).walk, Bracket m := by
  intro m hm
  rw [marked, Tree.walk_map, List.mem_map] at hm
  obtain ⟨b, hb, rfl⟩ := hm
  obtain ⟨s, node, rfl⟩ := Tree.mem_walk_thread _ _ _ hb
  rw [announce]
  split
  · exact ⟨rfl, rfl, Int.natCast_nonneg _, Int.natCast_nonneg _⟩
  · exact ⟨rfl, rfl, Int.natCast_nonneg _, Int.natCast_nonneg _⟩

theorem marked_wellFormed (h : tree.ranges.WellFormed) : (marked call starts tree).WellFormed := by
  have hranges : Tree.map (fun p => p.1.mark {}) (Tree.thread (announce call) starts tree).1 =
      tree.ranges := Tree.map_thread (fun _ _ => by rw [announce_fst]) _ _
  have hstart (p : Match × Decoration) : (p.1.mark {}).start = (p.1.mark p.2).start := rfl
  have hstop (p : Match × Decoration) : (p.1.mark {}).stop = (p.1.mark p.2).stop := rfl
  exact Tree.WellFormed.map_congr hstart hstop (hranges ▸ h)

end Marks

def spelled (text : Text) (call : String) (starts : List Nat) (tree : ParseTree) : Text :=
  written text (marked call starts tree)

def spelledAll (text : Text) (call : String) (starts : List Nat) (cursor stop : Nat)
    (branches : List (Option ParseTree)) : Text :=
  writtenAll text cursor stop (Tree.mapAll (fun p : Match × Decoration => p.1.mark p.2)
    (Tree.threadAll (announce call) starts branches).1)

def announced (call : String) (starts : List Nat) (tree : ParseTree) : List Nat :=
  (Tree.thread (announce call) starts tree).2

def announcedAll (call : String) (starts : List Nat) (branches : List (Option ParseTree)) :
    List Nat :=
  (Tree.threadAll (announce call) starts branches).2

section Spelling
variable {text : Text} {call : String} {starts : List Nat} {m : Match}
  {branches rest : List (Option ParseTree)} {tree : ParseTree} {cursor stop : Nat}

theorem spelledAll_nil : spelledAll text call starts cursor stop [] = text.window cursor stop :=
  text.slice_natCast cursor stop

theorem marked_label : (Tree.label (marked call starts tree)).start = tree.start ∧
    (Tree.label (marked call starts tree)).stop = tree.stop := by
  obtain ⟨m, branches⟩ := tree
  rw [marked, Tree.label_map, Tree.thread, Tree.label, announce]
  split <;> exact ⟨rfl, rfl⟩

theorem spelledAll_some : spelledAll text call starts cursor stop (some tree :: rest) =
    text.window cursor tree.start ++ (spelled text call starts tree ++
      spelledAll text call (announced call starts tree) tree.stop stop rest) := by
  have hall (t : Tree Mark) (ts : List (Option (Tree Mark))) :
      writtenAll text cursor stop (some t :: ts) = text.slice cursor (Tree.label t).start ++
        (written text t ++ writtenAll text (Tree.label t).stop stop ts) := by
    obtain ⟨m, bs⟩ := t
    rw [writtenAll, List.append_assoc]
    rfl
  have hm : (Tree.label (marked call starts tree)).start = tree.start ∧
      (Tree.label (marked call starts tree)).stop = tree.stop := marked_label
  rw [spelledAll, Tree.threadAll, Tree.mapAll, hall]
  change text.slice cursor (Tree.label (marked call starts tree)).start ++
    (spelled text call starts tree ++
      writtenAll text (Tree.label (marked call starts tree)).stop stop _) = _
  rw [hm.1, hm.2, text.slice_natCast]
  rfl

theorem announcedAll_some : announcedAll call starts (some tree :: rest) =
    announcedAll call (announced call starts tree) rest := rfl

theorem spelled_node : spelled text call starts (.node m branches) =
    if m.start = m.stop then []
    else
      (announce call starts (.node m branches)).1.2.before.getD [] ++
        (spelledAll text call (announce call starts (.node m branches)).2 m.start m.stop branches ++
          (announce call starts (.node m branches)).1.2.after.getD []) := by
  have hnode : marked call starts (.node m branches) =
      .node ((announce call starts (.node m branches)).1.1.mark
        (announce call starts (.node m branches)).1.2)
        (Tree.mapAll (fun p => p.1.mark p.2)
          (Tree.threadAll (announce call) (announce call starts (.node m branches)).2 branches).1) :=
    rfl
  rw [spelled, hnode, announce_fst, written]
  refine if_congr ?_ rfl rfl
  simp [Mark.isEmpty, Match.mark, Tree.label]

theorem spelled_empty (h : m.start = m.stop) :
    spelled text call starts (.node m branches) = [] :=
  spelled_node.trans (if_pos h)

theorem spelled_plain (h : announced? (.node m branches) = none) (hm : m.start ≠ m.stop) :
    spelled text call starts (.node m branches) =
      spelledAll text call starts m.start m.stop branches := by
  rw [spelled_node, if_neg hm, announce, h]
  exact List.append_nil _

theorem announced_plain (h : announced? (.node m branches) = none) :
    announced call starts (.node m branches) = announcedAll call starts branches := by
  rw [announced, Tree.thread, announce, h]
  rfl

def heralding (call : String) (number : Nat) : Text :=
  '{' :: ' ' :: (call.toList ++ '(' :: ((toString number).toList ++ [')', ';', ' ']))

/-- A statement that is announced is spelled with its call in front of it. -/
theorem spelled_announced {start : Nat} (h : announced? (.node m branches) = some start)
    (hm : m.start ≠ m.stop) : spelled text call starts (.node m branches) =
      heralding call (starts.length + 1) ++
        (spelledAll text call (starts ++ [start]) m.start m.stop branches ++ [' ', '}']) := by
  rw [spelled_node, if_neg hm, announce, h]
  congr 1
  simp [bracket, heralding]

/-- A statement that is announced is counted before the statements within it. -/
theorem announced_announced {start : Nat} (h : announced? (.node m branches) = some start) :
    announced call starts (.node m branches) = announcedAll call (starts ++ [start]) branches := by
  rw [announced, Tree.thread, announce, h]
  rfl

/-- A program is instrumented by spelling its tree in place of it. -/
theorem instrument_ok (h : language.parse "Program" text none = .ok tree)
    (hw : tree.ranges.WellFormed) (hroot : announced? tree = none) :
    ∃ result, instrument text call = .ok result ∧
      result.text = text.take tree.start ++ (spelled text call [] tree ++ text.drop tree.stop) ∧
      result.places = (announced call [] tree).map fun (start : Nat) =>
        Source.position { content := text } start := by
  have hrender : DecoratedTree.render text (decorate call tree).1 = spelled text call [] tree := by
    by_cases he : (Tree.label (marked call [] tree)).isEmpty
    · have hbare : Tree.label (marked call [] tree) = (Tree.label tree).mark {} := by
        obtain ⟨m, branches⟩ := tree
        rw [marked, Tree.label_map, Tree.thread, Tree.label, announce, hroot]
      have hm : tree.start = tree.stop := by
        simpa [Mark.isEmpty, marked_label.1, marked_label.2] using he
      change (pieces (marked call [] tree)).flatMap (Piece.render text) = _
      obtain ⟨m, branches⟩ := tree
      rw [spelled_empty (show m.start = m.stop from hm), pieces]
      dsimp only
      rw [if_pos he, hbare]
      rfl
    · exact Tree.render_eq_written text (marked_wellFormed hw) he marked_bracket
  rw [instrument, h]
  refine ⟨_, rfl, ?_, rfl⟩
  change text.take tree.start ++ DecoratedTree.render text (decorate call tree).1 ++
    text.drop tree.stop = _
  rw [hrender, List.append_assoc]

end Spelling
end StatementTrace
end OrderedBnf
