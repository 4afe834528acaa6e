import OrderedBnf.MetaGrammar
import OrderedBnf.Proofs.Literals
import OrderedBnf.Proofs.Runs

/-! Where a parse gives up. With hooks that stay within the text, so does everything that a parse
reports: failures and their causes, lexical errors and the farthest offset. -/
namespace OrderedBnf

namespace Failure

theorem le_farthestOf (attempted : Int) (causes : List Failure) :
    attempted ≤ farthestOf attempted causes := by
  induction causes with
  | nil => exact Int.le_refl _
  | cons cause causes ih => exact Int.le_trans ih (Int.le_max_right _ _)

theorem farthestOf_le {attempted size : Int} {causes : List Failure} (h : attempted ≤ size)
    (hc : ∀ cause ∈ causes, cause.position ≤ size) : farthestOf attempted causes ≤ size := by
  induction causes with
  | nil => exact h
  | cons cause causes ih =>
    rw [List.forall_mem_cons] at hc
    exact Int.max_le.2 ⟨hc.1, ih hc.2⟩

def Lies (failure : Failure) (size : Nat) : Prop := 0 ≤ failure.position ∧ failure.position ≤ size

theorem lies_because {reason : Reason} {attempted size : Nat} {causes : List Failure}
    (h : attempted ≤ size) (hc : ∀ cause ∈ causes, cause.Lies size) :
    (because reason attempted causes).Lies size := by
  constructor
  · exact Int.le_trans (Int.natCast_nonneg _) (le_farthestOf _ _)
  · exact farthestOf_le (Int.ofNat_le.2 h) fun cause hm => (hc cause hm).2

end Failure

/-- A halt about an offset of a text: a failure, or one of the aborts that can be borne with. -/
def Halt.Lies (bearable : Abort → Prop) (size : Nat) : Halt → Prop
  | .failure reported => reported.Lies size
  | .abort cause => cause = .tooDeep ∨ bearable cause

def Scanner.Stays (bearable : Abort → Prop) (scan : Scanner) (text : Text) : Prop :=
  ∀ ⦃start⦄, start < text.length → match scan text start text.length with
    | .ok (some found) => 0 ≤ found.start ∧ found.start ≤ found.stop ∧ found.stop ≤ text.length
    | .ok none => True
    | .error halt => halt.Lies bearable text.length

def Skipped (bearable : Abort → Prop) (size : Nat) : Except Abort Nat → Prop
  | .ok i => i ≤ size
  | .error cause => bearable cause

/-- Hooks that stay within the text, and abort only in ways that can be borne with. -/
structure Lexis.Stays (bearable : Abort → Prop) (lexis : Lexis) (text : Text) : Prop where
  skip {start : Nat} : start ≤ text.length →
    Skipped bearable text.length (lexis.skip text start text.length)
  extend (rule : Rule) : (lexis.extend rule).Stays bearable text

namespace Attempt
variable {α β : Type} {bearable : Abort → Prop} {size : Nat} {good : α → Prop} {good' : β → Prop}

/-- What comes of an attempt is good, or a halt about an offset of the text, and no offset beyond
the text is reached. -/
def Keeps (bearable : Abort → Prop) (size : Nat) (good : α → Prop) (a : Attempt α) : Prop :=
  ∀ farthest ≤ size, (a.outcome farthest).2 ≤ size ∧ match (a.outcome farthest).1 with
    | .ok x => good x
    | .error halt => halt.Lies bearable size

theorem keeps_pure {x : α} (h : good x) : (pure x : Attempt α).Keeps bearable size good :=
  fun _ hf => ⟨hf, h⟩

theorem keeps_throw {halt : Halt} (h : halt.Lies bearable size) :
    (throw halt : Attempt α).Keeps bearable size good :=
  fun _ hf => ⟨hf, h⟩

theorem keeps_abort {cause : Abort} (h : bearable cause) :
    (abort cause : Attempt α).Keeps bearable size good :=
  keeps_throw (.inr h)

theorem keeps_fail {reason : Reason} {position : Nat} {causes : List Failure}
    (h : position ≤ size) (hc : ∀ cause ∈ causes, cause.Lies size) :
    (fail reason position causes : Attempt α).Keeps bearable size good :=
  keeps_throw (show Halt.Lies bearable size (.failure _) from Failure.lies_because h hc)

theorem keeps_fail_plain {reason : Reason} {position : Nat} (h : position ≤ size) :
    (fail reason position [] : Attempt α).Keeps bearable size good :=
  keeps_fail h fun _ hm => absurd hm List.not_mem_nil

theorem keeps_reach {position : Nat} (h : position ≤ size) :
    (reach position).Keeps bearable size fun _ => True :=
  fun _ hf => ⟨Nat.max_le.2 ⟨hf, h⟩, trivial⟩

/-- Attempts that keep to a text may follow one another. -/
theorem Keeps.bind {a : Attempt α} {f : α → Attempt β} (ha : a.Keeps bearable size good)
    (hf : ∀ x, good x → (f x).Keeps bearable size good') :
    (a >>= f).Keeps bearable size good' := by
  intro farthest hle
  have hfirst := ha farthest hle
  rw [outcome_bind]
  rcases ho : a.outcome farthest with ⟨halt | x, farther⟩ <;> rw [ho] at hfirst
  · exact hfirst
  · exact hf x hfirst.2 farther hfirst.1

theorem Keeps.recover {a : Attempt α} (ha : a.Keeps bearable size good) :
    (recover a).Keeps bearable size fun
      | .ok x => good x
      | .error failure => failure.Lies size := by
  intro farthest hle
  have hfirst := ha farthest hle
  rw [outcome_recover]
  rcases ho : a.outcome farthest with ⟨(failure | cause) | x, farther⟩ <;> rw [ho] at hfirst <;>
    exact hfirst

end Attempt

namespace Reader
open Attempt
variable {r : Reader} {bearable : Abort → Prop} {rule : Rule} {start : Nat}

def Holds (r : Reader) (tree : ParseTree) : Prop := tree.stop ≤ r.text.length

section Hooks
variable (hooks : r.lexis.Stays bearable r.text) (hr : r.stop = r.text.length)
include hooks hr

theorem skip_keeps (hs : start ≤ r.text.length) :
    (r.skip start).Keeps bearable r.text.length (· ≤ r.text.length) := by
  have hskip := hooks.skip hs
  unfold skip
  rw [hr]
  cases h : r.lexis.skip r.text start r.text.length with
  | ok i =>
    rw [h] at hskip
    exact keeps_pure hskip
  | error cause =>
    rw [h] at hskip
    exact keeps_abort hskip

theorem significant_keeps (hs : start ≤ r.text.length) :
    (r.significant start).Keeps bearable r.text.length (· < r.text.length) := by
  refine (skip_keeps hooks hr hs).bind fun i hi => ?_
  split
  · exact keeps_fail_plain hi
  · exact keeps_pure (by omega)

omit hooks hr in
theorem accept_keeps {kind : Kind} {stop : Nat} (h : stop ≤ r.text.length) :
    (accept kind rule start stop).Keeps bearable r.text.length r.Holds :=
  (keeps_reach h).bind fun _ _ => keeps_pure h

theorem matchToken_keeps (hs : start ≤ r.text.length) :
    (r.matchToken rule start).Keeps bearable r.text.length r.Holds := by
  refine (significant_keeps hooks hr hs).bind fun i hi => ?_
  split
  · rename_i hrest
    exact absurd hrest (rest_ne_nil (Nat.le_of_eq hr) (hr ▸ hi))
  · rename_i rest hrest
    have hl := r.text.length_window i r.stop
    have hu := Text.unescaped_offset (· = '\'') (i + 1) rest
    rw [show r.text.window i r.stop = '\'' :: rest from hrest, List.length_cons] at hl
    split
    · rename_i last c hc
      rw [hc] at hu
      exact accept_keeps (by dsimp only at hu; omega)
    · rename_i last hc
      rw [hc] at hu
      rw [if_neg (by dsimp only at hu; omega)]
      exact keeps_fail_plain (by omega)
  · exact keeps_fail_plain (Nat.le_of_lt hi)

theorem matchIdentifier_keeps (hs : start ≤ r.text.length) :
    (r.matchIdentifier rule start).Keeps bearable r.text.length r.Holds := by
  refine (significant_keeps hooks hr hs).bind fun i hi => ?_
  split
  · rename_i hrest
    exact absurd hrest (rest_ne_nil (Nat.le_of_eq hr) (hr ▸ hi))
  · rename_i c rest hrest
    split
    · exact keeps_fail_plain (Nat.le_of_lt hi)
    · dsimp only
      rw [Text.lacks_eq_false (Nat.le_of_eq hr), if_neg Bool.false_ne_true]
      split
      · exact keeps_fail_plain (Nat.le_of_lt hi)
      · have hp : c :: rest.takeWhile isIdentifierChar <+: r.rest i :=
          hrest ▸ (List.prefix_cons_inj c).2 (List.takeWhile_prefix _)
        exact accept_keeps (rest_prefix_bound hp (List.cons_ne_nil _ _)).2

omit hooks in
theorem matchNewLine_keeps (hs : start ≤ r.text.length) :
    (r.matchNewLine rule start).Keeps bearable r.text.length r.Holds := by
  rw [matchNewLine, Text.lacks_eq_false (Nat.le_of_eq hr), if_neg Bool.false_ne_true]
  split
  · rename_i rest hrest
    have hp : ['\n'] <+: r.rest start := hrest ▸ ⟨rest, rfl⟩
    exact accept_keeps (rest_prefix_bound hp (List.cons_ne_nil _ _)).2
  · exact keeps_fail_plain hs

theorem matchLiteral_keeps (hs : start ≤ r.text.length) :
    (r.matchLiteral rule start).Keeps bearable r.text.length r.Holds := by
  unfold matchLiteral matchWord
  dsimp only
  rw [if_neg (Nat.not_lt.2 hs)]
  split
  · exact keeps_pure hs
  · rename_i hword
    refine (significant_keeps hooks hr hs).bind fun i hi => ?_
    split
    · exact keeps_fail_plain (Nat.le_of_lt hi)
    · rename_i hp
      have hp : rule.literal <+: r.rest i := by simpa using hp
      have hstop := (rest_prefix_bound hp hword).2
      rw [Text.lacks_eq_false (Nat.le_of_eq hr), Bool.and_false, if_neg Bool.false_ne_true]
      split
      · exact keeps_fail_plain hstop
      · split
        · exact keeps_fail_plain hstop
        · exact accept_keeps hstop

theorem matchExtension_keeps (hs : start ≤ r.text.length) :
    (r.matchExtension rule start).Keeps bearable r.text.length r.Holds := by
  refine (significant_keeps hooks hr hs).bind fun i hi => ?_
  have hextend := hooks.extend rule hi
  rw [← hr] at hextend
  split
  · rename_i halt hh
    rw [hh, hr] at hextend
    exact keeps_throw hextend
  · exact keeps_fail_plain (Nat.le_of_lt hi)
  · rename_i found hf
    rw [hf] at hextend
    dsimp only at hextend
    rw [if_pos (by simpa [and_assoc, ← hr] using hextend)]
    exact accept_keeps (by omega)

end Hooks

section Loops
variable {step : Step Attempt} {size : Nat} {parts rules : List Rule} {body : Rule}
  (h : ∀ rule start, start ≤ size → (step rule start).Keeps bearable size (·.stop ≤ size))
include h

theorem inTurn_keeps (hs : start ≤ size) :
    (inTurn step parts start).Keeps bearable size (∀ tree ∈ ·, tree.stop ≤ size) := by
  induction parts generalizing start with
  | nil => exact keeps_pure fun _ ht => absurd ht List.not_mem_nil
  | cons part rest ih =>
    refine (h part start hs).bind fun tree ht => ?_
    exact (ih ht).bind fun trees hts => keeps_pure (List.forall_mem_cons.2 ⟨ht, hts⟩)

theorem firstOf_keeps (hs : start ≤ size) :
    (firstOf step start rules).Keeps bearable size fun
      | .ok places => ∀ tree, some tree ∈ places → tree.stop ≤ size
      | .error failures => ∀ failure ∈ failures, failure.Lies size := by
  induction rules with
  | nil => exact keeps_pure fun _ hf => absurd hf List.not_mem_nil
  | cons rule rest ih =>
    refine (h rule start hs).recover.bind fun out hout => ?_
    cases out with
    | ok tree =>
      refine keeps_pure fun tree' ht => ?_
      obtain rfl : tree' = tree := by simpa using ht
      exact hout
    | error failure =>
      refine ih.bind fun out hrest => ?_
      cases out with
      | ok places =>
        refine keeps_pure fun tree ht => hrest tree ?_
        simpa using ht
      | error failures => exact keeps_pure (List.forall_mem_cons.2 ⟨hout, hrest⟩)

theorem again_keeps {rounds : Nat} (hs : start ≤ size) :
    (again step body rounds start).Keeps bearable size (∀ tree ∈ ·, tree.stop ≤ size) := by
  induction rounds generalizing start with
  | zero => exact keeps_pure fun _ ht => absurd ht List.not_mem_nil
  | succ rounds ih =>
    refine (h body start hs).recover.bind fun out hout => ?_
    cases out with
    | error => exact keeps_pure fun _ ht => absurd ht List.not_mem_nil
    | ok tree =>
      dsimp only
      split
      · exact keeps_pure fun _ ht => absurd ht List.not_mem_nil
      · exact (ih hout).bind fun trees hts => keeps_pure (List.forall_mem_cons.2 ⟨hout, hts⟩)

end Loops

/-- A node over trees that end within the text ends there as well. -/
theorem spanning_holds {kind : Kind} {branches : List (Option ParseTree)}
    (hs : start ≤ r.text.length) (h : ∀ tree, some tree ∈ branches → r.Holds tree) :
    r.Holds (.spanning kind rule start branches) := by
  rcases ParseTree.spanning_stop kind rule start branches with hstop | ⟨tree, ht, hstop⟩
  · exact Nat.le_trans (Nat.le_of_eq hstop) hs
  · exact Nat.le_trans (Nat.le_of_eq hstop) (h tree ht)

theorem spanning_holds_map {kind : Kind} {trees : List ParseTree} (hs : start ≤ r.text.length)
    (h : ∀ tree ∈ trees, r.Holds tree) : r.Holds (.spanning kind rule start (trees.map some)) :=
  spanning_holds hs fun tree ht => h tree (by simpa using ht)

section Descent
variable (hooks : r.lexis.Stays bearable r.text) (hr : r.stop = r.text.length)
include hooks hr

theorem node_keeps {step : Step Attempt} (hs : start ≤ r.text.length)
    (h : ∀ rule start, start ≤ r.text.length →
      (step rule start).Keeps bearable r.text.length r.Holds) :
    (r.node r.matchLiteral step rule start).Keeps bearable r.text.length r.Holds := by
  unfold node
  split
  · exact matchLiteral_keeps hooks hr hs
  · exact matchToken_keeps hooks hr hs
  · exact matchIdentifier_keeps hooks hr hs
  · exact matchNewLine_keeps hr hs
  · split
    · exact keeps_fail_plain hs
    · exact matchExtension_keeps hooks hr hs
    · exact h _ _ hs
  · exact (inTurn_keeps h hs).bind fun trees ht => keeps_pure (spanning_holds_map hs ht)
  · refine (firstOf_keeps h hs).bind fun out hout => ?_
    cases out with
    | ok places => exact keeps_pure (spanning_holds hs hout)
    | error failures => exact keeps_fail hs hout
  · refine (h _ _ hs).recover.bind fun out hout => ?_
    cases out with
    | ok tree =>
      refine keeps_pure (spanning_holds hs fun tree' ht => ?_)
      obtain rfl : tree' = tree := by simpa using ht
      exact hout
    | error => exact keeps_pure (spanning_holds hs fun _ ht => absurd ht List.not_mem_nil)
  · exact (again_keeps h hs).bind fun trees ht => keeps_pure (spanning_holds_map hs ht)

theorem run_keeps (depth : Nat) {busy : List (Nat × Rule)} (hs : start ≤ r.text.length) :
    (r.run depth busy rule start).Keeps bearable r.text.length r.Holds := by
  induction depth generalizing busy rule start with
  | zero => exact keeps_throw (show Halt.Lies bearable _ (.abort .tooDeep) from .inl rfl)
  | succ depth ih =>
    unfold run
    split
    · exact keeps_fail_plain hs
    · exact node_keeps hooks hr hs fun _ _ hs => ih hs

end Descent
end Reader

/-- A parse that gives no tree gives a diagnosis about an offset of the text, or aborts in a way
that can be borne with. -/
theorem Language.parse_error {language : Language} {start : String} {text : Text}
    {filename : Option String} {bearable : Abort → Prop} {error : ParseError}
    (hooks : language.lexis.Stays bearable text)
    (h : language.parse start text filename = .error error) :
    (∃ d, error = .failed d ∧ d.source = { content := text, filename := filename } ∧
      d.failure.Lies text.length) ∨ ∃ cause, error = .aborted cause ∧ bearable cause := by
  have hnone {reason : Reason} {position : Nat} (hle : position ≤ text.length) :
      (Failure.because reason position []).Lies text.length :=
    Failure.lies_because hle fun _ hm => absurd hm List.not_mem_nil
  unfold parse at h
  dsimp only at h
  split at h
  · cases h
    exact .inl ⟨_, rfl, rfl, hnone (Nat.zero_le _)⟩
  · cases h
    exact .inl ⟨_, rfl, rfl, hnone (Nat.zero_le _)⟩
  · rename_i body hb
    have hrun := @Reader.run_keeps ⟨language.grammar, language.lexis, text, text.length⟩ bearable body
      0 hooks rfl depthLimit [] (Nat.zero_le _) 0 (Nat.zero_le _)
    split at h
    · rename_i failure farthest ho
      rw [ho] at hrun
      cases h
      exact .inl ⟨_, rfl, rfl, hrun.2⟩
    · rename_i farthest ho
      rw [ho] at hrun
      cases h
      exact .inl ⟨_, rfl, rfl, hnone hrun.1⟩
    · rename_i cause farthest hdeep ho
      rw [ho] at hrun
      cases h
      refine .inr ⟨_, rfl, hrun.2.resolve_left fun hc => ?_⟩
      exact hdeep (hc ▸ rfl)
    · rename_i tree farthest ho
      rw [ho] at hrun
      have hskip := hooks.skip hrun.2
      split at h
      · rename_i cause hs
        change language.lexis.skip text tree.stop text.length = _ at hs
        rw [hs] at hskip
        cases h
        exact .inr ⟨_, rfl, hskip⟩
      · rename_i stop hs
        change language.lexis.skip text tree.stop text.length = _ at hs
        rw [hs] at hskip
        split at h
        · cases h
        · split at h <;> cases h
          · exact .inl ⟨_, rfl, rfl, hnone (Nat.zero_le _)⟩
          · exact .inl ⟨_, rfl, rfl, hnone hskip⟩

section Hooks
variable {bearable : Abort → Prop} {text : Text}

theorem skipWhile_stays {p : Char → Bool} {start : Nat} (hs : start ≤ text.length) :
    ∃ i, skipWhile p text start text.length = .ok i ∧ i ≤ text.length := by
  cases h : skipWhile p text start text.length with
  | ok i => exact ⟨i, rfl, (skipWhile_within hs h).2⟩
  | error cause =>
    rw [skipWhile, Text.lacks_eq_false (Nat.le_refl _)] at h
    cases h

theorem Scanner.never_stays : Scanner.never.Stays bearable text := fun _ _ => trivial

theorem Scanner.byName_stays {scanners : List (String × Scanner)} {name : String}
    (h : ∀ entry ∈ scanners, entry.2.Stays bearable text) :
    (Scanner.byName scanners name).Stays bearable text := by
  rw [byName]
  cases hscan : scanners.lookup name with
  | none => exact never_stays
  | some scan =>
    obtain ⟨front, back, rfl, -⟩ := List.lookup_eq_some_iff.1 hscan
    exact h _ (List.mem_append_right _ List.mem_cons_self)

theorem Quotation.scanner_stays (mark : Char) : (scanner mark).Stays bearable text := by
  intro start hs
  obtain ⟨c, rest, hdrop⟩ := List.exists_cons_of_ne_nil (mt List.drop_eq_nil_iff.1 (Nat.not_le.2 hs))
  have hlength := congrArg List.length hdrop
  have hu := Text.unescaped_offset (fun c => c = '\n' || c = mark) (start + 1) rest
  rw [List.length_drop, List.length_cons] at hlength
  rw [scanner_eq hdrop]
  split <;> rename_i he
  · split at he
    · cases he
    · split at he
      · rename_i i close hi
        rw [hi] at hu
        split at he <;> cases he
        dsimp only at hu ⊢
        omega
      · split at he <;> cases he
  · trivial
  · split at he
    · cases he
    · split at he
      · rename_i i close hi
        rw [hi] at hu
        split at he <;> cases he
        exact Failure.lies_because (by dsimp only at hu; omega) fun _ hm => absurd hm List.not_mem_nil
      · rename_i i hi
        rw [hi] at hu
        dsimp only at hu
        rw [if_neg (by omega)] at he
        cases he

theorem Numeral.scanner_stays (read? : Text → Option Text) :
    (scanner read?).Stays bearable text := by
  intro start hs
  rw [scanner_eq]
  have hlength := @List.length_drop _ start text
  split <;> rename_i he
  · split at he
    · cases he
    · split at he <;> cases he
      dsimp only
      omega
  · trivial
  · split at he
    · cases he
    · split at he <;> cases he

theorem MetaGrammar.continuation_stays : continuation.Stays bearable text := by
  intro start hs
  obtain ⟨c, rest, hdrop⟩ := List.exists_cons_of_ne_nil (mt List.drop_eq_nil_iff.1 (Nat.not_le.2 hs))
  obtain ⟨next, hnext, hle⟩ := skipWhile_stays (p := fun c => c = ' ' || c = '\t' || c = '\n')
    (Nat.le_of_lt hs)
  have hge := (skipWhile_within (Nat.le_of_lt hs) hnext).1
  rw [continuation, hdrop]
  dsimp only
  rw [hnext]
  split <;> rename_i he
  · split at he
    · cases he
    · dsimp only at he
      split at he <;> cases he
      dsimp only
      omega
  · trivial
  · split at he
    · cases he
    · dsimp only at he
      split at he <;> cases he

theorem MetaGrammar.stays : language.lexis.Stays bearable text where
  skip hs := by
    obtain ⟨i, hi, hle⟩ := skipWhile_stays (p := fun c => c = ' ' || c = '\t') hs
    change match skipWhile _ text _ text.length with | .ok i => _ | .error cause => _
    rw [hi]
    exact hle
  extend _ := Scanner.byName_stays (by
    simp only [scanners, List.forall_mem_cons]
    exact ⟨Quotation.scanner_stays _, continuation_stays, List.forall_mem_nil _⟩)

def Abort.Reported (size : Nat) (cause : Abort) : Prop :=
  ∃ error, cause = .lexical error ∧ 0 ≤ error.position ∧ error.position ≤ size

theorem Comment.skipFrom_stays {stop i : Nat} {within : Within} {text : Text}
    (hs : i + text.length = stop) (hopened : ∀ opened, within = .block opened → opened ≤ stop) :
    Skipped (Abort.Reported stop) stop (skipFrom stop i within text) := by
  fun_induction skipFrom stop i within text with
  | case1 i rest ih =>
    rw [List.length_cons, List.length_cons] at hs
    refine ih (by omega) fun opened he => ?_
    cases he
    omega
  | case2 i rest ih =>
    rw [List.length_cons, List.length_cons] at hs
    exact ih (by omega) fun _ he => by cases he
  | case3 i c rest _ _ hc ih => exact ih (by rw [List.length_cons] at hs; omega) fun _ he => by cases he
  | case4 i c rest hstar hslash hc => exact hs ▸ Nat.le_add_right i _
  | case5 i rest ih => exact ih (by rw [List.length_cons] at hs; omega) fun _ he => by cases he
  | case6 i c rest hc ih => exact ih (by rw [List.length_cons] at hs; omega) fun _ he => by cases he
  | case7 i opened rest ih =>
    rw [List.length_cons, List.length_cons] at hs
    exact ih (by omega) fun _ he => by cases he
  | case8 i opened c rest hc ih => exact ih (by rw [List.length_cons] at hs; omega) hopened
  | case9 => exact ⟨_, rfl, Int.natCast_nonneg _, Int.ofNat_le.2 (hopened _ rfl)⟩
  | case10 => exact Nat.le_refl _
  | case11 i hlt => exact absurd hs (Nat.ne_of_lt hlt)
  | case12 i hlt => exact Nat.le_of_eq hs

theorem CurlyBrace.extend_stays (grammar : Grammar) (rule : Rule) :
    ((language grammar).lexis.extend rule).Stays bearable text :=
  Scanner.byName_stays (by
    simp only [literals, List.forall_mem_cons]
    exact ⟨Quotation.scanner_stays _, Quotation.scanner_stays _, Numeral.scanner_stays _,
      Numeral.scanner_stays _, List.forall_mem_nil _⟩)

/-- The hooks of the language with curly braces stay within the text, and abort only about offsets
of it. -/
theorem CurlyBrace.stays (grammar : Grammar) :
    (language grammar).lexis.Stays (Abort.Reported text.length) text where
  skip {start} hs := by
    refine Comment.skipFrom_stays ?_ fun _ he => by cases he
    rw [Text.window_length, List.length_drop]
    omega
  extend := extend_stays grammar

end Hooks
end OrderedBnf
