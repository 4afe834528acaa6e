import OrderedBnf.Parse.Memory
import OrderedBnf.Proofs.Literals
import OrderedBnf.Proofs.Nesting

/-! What a match sees of its text: the characters up to the end of its range and, of all that comes
after them, whether a letter goes on there. -/
namespace OrderedBnf
open Attempt

namespace Text
variable {text text' : Text} {stop : Nat}

def cutsWord (text : Text) (offset : Nat) : Bool :=
  (text.take offset).getLast?.any isLetter && (text.drop offset).head?.any isLetter

/-- Texts with the same characters up to an offset, at which a word is cut in both or in
neither. -/
structure Alike (text text' : Text) (stop : Nat) : Prop where
  within : stop ≤ text.length
  within' : stop ≤ text'.length
  take : text.take stop = text'.take stop
  cuts : text.cutsWord stop = text'.cutsWord stop

theorem window_take (text : Text) (start stop : Nat) :
    window (text.take stop) start stop = text.window start stop := by
  rw [window, window, List.drop_take, List.take_take, Nat.min_self]

theorem cutsWord_take (text : Text) (stop : Nat) : cutsWord (text.take stop) stop = false := by
  rw [cutsWord, List.drop_eq_nil_of_le (List.length_take_le _ _), List.head?_nil, Option.any_none,
    Bool.and_false]

theorem alike_take (h : stop ≤ text.length) (hc : text.cutsWord stop = false) :
    Alike text (text.take stop) stop where
  within := h
  within' := Nat.le_of_eq (by rw [List.length_take, Nat.min_eq_left h])
  take := by rw [List.take_take, Nat.min_self]
  cuts := by rw [hc, cutsWord_take]

theorem Alike.window (h : Alike text text' stop) (start : Nat) :
    text'.window start stop = text.window start stop := by
  rw [← window_take, ← h.take, window_take]

/-- Behind a letter of the common characters another letter stands in both texts or in neither. -/
theorem Alike.next (h : Alike text text' stop) {i : Nat} (hi : i ≤ stop)
    (hl : (text.take i).getLast?.any isLetter) :
    (text'.drop i).head?.any isLetter = (text.drop i).head?.any isLetter := by
  rcases Nat.lt_or_eq_of_le hi with hlt | rfl
  · have hget := congrArg (·[i]?) h.take
    simp only [List.getElem?_take_of_lt hlt] at hget
    rw [List.head?_drop, List.head?_drop, hget]
  · have hcuts := h.cuts
    rwa [cutsWord, cutsWord, ← h.take, hl, Bool.true_and, Bool.true_and, eq_comm] at hcuts

end Text

/-- A scanner that looks at the characters of a range and at nothing else of the text around it. To
find something that ends behind the range it would have to know how much text there is. -/
structure Scanner.LooksWithin (scan : Scanner) : Prop where
  same {text text' : Text} {start stop : Nat} : start < stop → stop ≤ text.length →
    stop ≤ text'.length → text'.window start stop = text.window start stop →
    scan text' start stop = scan text start stop
  found {text : Text} {start stop : Nat} {found : Found} : start < stop → stop ≤ text.length →
    scan text start stop = .ok (some found) →
    0 ≤ found.start ∧ found.start ≤ found.stop ∧ found.stop ≤ stop

/-- Hooks that look at the characters of a range and at nothing else of the text around it. -/
structure Lexis.LooksWithin (lexis : Lexis) : Prop where
  skip {text text' : Text} {start stop : Nat} : start ≤ stop → stop ≤ text.length →
    stop ≤ text'.length → text'.window start stop = text.window start stop →
    lexis.skip text' start stop = lexis.skip text start stop
  extend (rule : Rule) : (lexis.extend rule).LooksWithin

namespace Reader

/-- A word that is found where the reader stands is the end of the text up to where it ends. -/
theorem last_of_prefix {r : Reader} {i : Nat} {word : Text} (hp : word <+: r.rest i)
    (hw : word ≠ []) : (r.text.take (i + word.length)).getLast? = word.getLast? := by
  have hdrop : word <+: r.text.drop i := hp.trans (List.take_prefix _ _)
  rw [List.take_add, ← List.prefix_iff_eq_take.1 hdrop, List.getLast?_append_of_ne_nil _ hw]

def withText (r : Reader) (text : Text) : Reader := { r with text := text }

section Leaves
variable {r : Reader} {text : Text} {rule : Rule} {start : Nat}
  (same : r.text.Alike text r.stop) (hooks : r.lexis.LooksWithin)

section Rests
include same

theorem rest_withText (i : Nat) : (r.withText text).rest i = r.rest i := same.window i

theorem lacks_withText (i : Nat) : text.lacks i r.stop = false := Text.lacks_eq_false same.within' i

theorem matchNewLine_withText : (r.withText text).matchNewLine rule start = r.matchNewLine rule start := by
  rw [matchNewLine, matchNewLine, rest_withText same, Text.lacks_eq_false same.within]
  exact if_neg (Bool.eq_false_iff.1 (lacks_withText same start))

end Rests

include same hooks

theorem significant_withText (hs : start ≤ r.stop) :
    (r.withText text).significant start = r.significant start := by
  have hskip : (r.withText text).skip start = r.skip start := by
    simp only [skip, withText, hooks.skip hs same.within same.within' (same.window start)]
  rw [significant, hskip]
  rfl

theorem matchToken_withText (hs : start ≤ r.stop) :
    (r.withText text).matchToken rule start = r.matchToken rule start := by
  rw [matchToken, matchToken, significant_withText same hooks hs]
  simp only [rest_withText same]
  rfl

theorem matchIdentifier_withText (hs : start ≤ r.stop) :
    (r.withText text).matchIdentifier rule start = r.matchIdentifier rule start := by
  rw [matchIdentifier, matchIdentifier, significant_withText same hooks hs]
  simp only [rest_withText same, Text.lacks_eq_false same.within]
  congr 1
  funext i
  split
  · rfl
  · simp only [withText, lacks_withText same]
    rfl

theorem matchLiteral_withText (hs : start ≤ r.stop) :
    (r.withText text).matchLiteral rule start = r.matchLiteral rule start := by
  have hlength := Nat.not_lt.2 (Nat.le_trans hs same.within)
  have hlength' : ¬ (r.withText text).text.length < start := Nat.not_lt.2 (Nat.le_trans hs same.within')
  rw [matchLiteral, matchLiteral, matchWord, matchWord, if_neg hlength, if_neg hlength']
  split
  · rfl
  · rename_i hword
    rw [significant_withText same hooks hs]
    refine bind_congr_of_result (r.significant_steady start) fun i _ => ?_
    simp only [rest_withText same]
    cases hp : rule.literal.isPrefixOf (r.rest i) with
    | false => rfl
    | true =>
      have hp := List.isPrefixOf_iff_prefix.1 hp
      have hnext : (rule.literal.getLast?.any isLetter &&
            (text.drop (i + rule.literal.length)).head?.any isLetter) =
          (rule.literal.getLast?.any isLetter &&
            (r.text.drop (i + rule.literal.length)).head?.any isLetter) := by
        cases hl : rule.literal.getLast?.any isLetter with
        | false => rfl
        | true =>
          rw [← last_of_prefix hp hword] at hl
          rw [same.next (rest_prefix_bound hp hword).1 hl]
      simp only [withText, Bool.and_assoc, hnext, lacks_withText same, Text.lacks_eq_false same.within]
      rfl

theorem matchExtension_withText (hs : start ≤ r.stop) :
    (r.withText text).matchExtension rule start = r.matchExtension rule start := by
  rw [matchExtension, matchExtension, significant_withText same hooks hs]
  refine bind_congr_of_result (r.significant_steady start) fun i hi => ?_
  have hlt : i < r.stop := significant_lt hi
  have hextend : (r.withText text).lexis.extend rule (r.withText text).text i (r.withText text).stop =
      r.lexis.extend rule r.text i r.stop :=
    (hooks.extend _).same hlt same.within same.within' (same.window i)
  rw [hextend]
  split
  · rfl
  · rfl
  · rename_i found hf
    obtain ⟨hstart, hle, hstop⟩ := (hooks.extend _).found hlt same.within hf
    have hin (text : Text) (ht : r.stop ≤ text.length) :
        (0 ≤ found.start && found.start ≤ found.stop && found.stop ≤ text.length) = true := by
      simp only [Bool.and_eq_true, decide_eq_true_eq]
      omega
    rw [if_pos (hin _ same.within)]
    exact if_pos (hin _ same.within')

end Leaves

/-- However many rounds there may be, a body that keeps to a range is matched as often. -/
theorem again_rounds {step : Step Attempt} (h : ∀ rule start, (step rule start).Steady)
    {body : Rule} {size : Nat} (hb : ∀ start tree, (step body start).result = .ok tree →
      start ≤ size → tree.stop ≤ size) (rounds : Nat) : ∀ rounds' start, start ≤ size →
      size - start < rounds → size - start < rounds' →
      again step body rounds start = again step body rounds' start := by
  induction rounds with
  | zero => exact fun _ _ _ hr => absurd hr (Nat.not_lt_zero _)
  | succ rounds ih =>
    intro rounds' start hs hr hr'
    obtain ⟨rounds', rfl⟩ := Nat.exists_eq_add_one_of_ne_zero (Nat.ne_zero_of_lt hr')
    rw [again, again]
    refine bind_congr_of_result (h body start).recover fun out ho => ?_
    cases out with
    | error failure => rfl
    | ok tree =>
      dsimp only
      split
      · rfl
      · rename_i hlt
        have hle := hb start tree (recover_eq_ok.1 ho) hs
        rw [ih rounds' tree.stop hle (by omega) (by omega)]

variable {r : Reader} {text : Text} {rule : Rule} {start : Nat}

/-- A match from one offset to the other remains in the range if it starts there. -/
def Remains (r : Reader) (start offset : Nat) : Prop := start ≤ r.stop → offset ≤ r.stop

theorem Remains.trans {a b c : Nat} (hab : r.Remains a b) (hbc : r.Remains b c) : r.Remains a c :=
  hbc ∘ hab

theorem run_remains (hooks : r.lexis.LooksWithin) (ht : r.stop ≤ r.text.length) {depth : Nat}
    {busy : List (Nat × Rule)} {tree : ParseTree}
    (h : (r.run depth busy rule start).result = .ok tree) : r.Remains start tree.stop := by
  refine run_builds (fun _ start tree => r.Remains start tree.stop) (fun rule start tree hy => ?_)
    depth h
  refine hy.builds.leads (fun _ => id) .trans (fun _ _ tree ha => ha tree rfl) fun m hp hs => ?_
  cases hp with
  | nothing => exact hs
  | newLine hlt => exact hlt
  | word _ _ _ hstop => exact hstop
  | extension _ hlt hf =>
    have := (hooks.extend _).found hlt ht hf
    dsimp only
    omega

section Runs
variable (same : r.text.Alike text r.stop) (hooks : r.lexis.LooksWithin)
include same hooks

theorem node_withText {step : Step Attempt} (hstep : ∀ rule start, (step rule start).Steady)
    (hremains : ∀ rule start tree, (step rule start).result = .ok tree → r.Remains start tree.stop)
    (hs : start ≤ r.stop) :
    (r.withText text).node (r.withText text).matchLiteral step rule start =
      r.node r.matchLiteral step rule start := by
  unfold node
  split
  · exact matchLiteral_withText same hooks hs
  · exact matchToken_withText same hooks hs
  · exact matchIdentifier_withText same hooks hs
  · exact matchNewLine_withText same
  · rw [matchExtension_withText same hooks hs]
    rfl
  · rfl
  · rfl
  · rfl
  · have hl := same.within
    have hl' : r.stop ≤ (r.withText text).text.length := same.within'
    rw [again_rounds hstep (fun start tree => hremains _ start tree) _ (r.text.length + 1) start hs
      (by omega) (by omega)]

/-- A run over another text with the same range is the same run. -/
theorem run_withText (depth : Nat) : ∀ {busy : List (Nat × Rule)} {rule : Rule} {start : Nat},
    start ≤ r.stop → (r.withText text).run depth busy rule start = r.run depth busy rule start := by
  induction depth with
  | zero => exact fun _ => rfl
  | succ depth ih =>
    intro busy rule start hs
    refine (run_congr_reader (fun _ => (node_withText same hooks ((r.withText text).run_steady depth _)
      (fun _ _ _ => run_remains (r := r.withText text) hooks same.within') hs).symm)
      fun _ rule' start' htry => (ih ?_).symm).symm
    have hleads : r.Remains start start' :=
      htry.leads (fun _ => id) .trans fun _ _ _ h => run_remains hooks same.within h
    exact hleads hs

/-- No bound on the depth is reached in either text, so it does not matter that they differ. -/
theorem attempt_withText (hs : start ≤ r.stop) :
    (r.withText text).attempt rule start = r.attempt rule start := by
  have hdeep := run_add_of_deep ((r.withText text).depthBound rule) _ (@deep_of_depthBound r rule start)
  have hdeep' := run_add_of_deep (r.depthBound rule) _
    (@deep_of_depthBound (r.withText text) rule start)
  rw [attempt, attempt, ← hdeep, ← hdeep', run_withText same hooks _ hs, Nat.add_comm]

end Runs
end Reader

section Hooks

theorem skipWhile_same {p : Char → Bool} {text text' : Text} {start stop : Nat}
    (ht : stop ≤ text.length) (ht' : stop ≤ text'.length)
    (h : text'.window start stop = text.window start stop) :
    skipWhile p text' start stop = skipWhile p text start stop := by
  rw [skipWhile, skipWhile, h, Text.lacks_eq_false ht, Text.lacks_eq_false ht']

theorem Scanner.never_looksWithin : Scanner.never.LooksWithin where
  same _ _ _ _ := rfl
  found _ _ h := by cases h

theorem Lexis.plain_looksWithin : Lexis.plain.LooksWithin where
  skip _ := skipWhile_same
  extend _ := Scanner.never_looksWithin

theorem Scanner.byName_looksWithin {scanners : List (String × Scanner)} {name : String}
    (h : ∀ entry ∈ scanners, entry.2.LooksWithin) : (Scanner.byName scanners name).LooksWithin := by
  rw [byName]
  cases hscan : scanners.lookup name with
  | none => exact never_looksWithin
  | some scan =>
    obtain ⟨front, back, rfl, -⟩ := List.lookup_eq_some_iff.1 hscan
    exact h _ (List.mem_append_right _ List.mem_cons_self)

theorem Text.window_cons {text : Text} {start stop : Nat} (hlt : start < stop)
    (ht : stop ≤ text.length) : ∃ c rest, text.window start stop = c :: rest := by
  refine List.exists_cons_of_ne_nil (List.ne_nil_of_length_pos ?_)
  rw [Text.length_window]
  omega

theorem Quotation.scanner_looksWithin (mark : Char) : (scanner mark).LooksWithin where
  same {text text' start stop} hlt ht ht' h := by
    obtain ⟨c, rest, hw⟩ := Text.window_cons hlt ht
    rw [scanner_window hw, scanner_window (h.trans hw)]
  found {text start stop found} hlt ht h := by
    obtain ⟨c, rest, hw⟩ := Text.window_cons hlt ht
    have hlength := congrArg List.length hw
    have hu := Text.unescaped_offset (fun c => c = '\n' || c = mark) (start + 1) rest
    rw [Text.length_window, List.length_cons] at hlength
    rw [scanner_window hw] at h
    split at h
    · cases h
    · split at h
      · rename_i i close hi
        rw [hi] at hu
        split at h <;> cases h
        dsimp only at hu ⊢
        omega
      · split at h <;> cases h

theorem Numeral.scanner_looksWithin (read? : Text → Option Text) :
    (scanner read?).LooksWithin where
  same {text text' start stop} hlt ht ht' h := by
    simp only [scanner, h, Text.lacks_eq_false ht, Text.lacks_eq_false ht']
  found {text start stop found} hlt ht h := by
    have hlength := text.length_window start stop
    rw [scanner] at h
    dsimp only at h
    split at h
    · cases h
    · rename_i rest _
      rw [Text.lacks_eq_false ht, if_neg Bool.false_ne_true] at h
      split at h <;> cases h
      dsimp only
      omega

theorem CurlyBrace.looksWithin (grammar : Grammar) : (language grammar).lexis.LooksWithin where
  skip _ _ _ h := congrArg (Comment.skipFrom _ _ _) h
  extend _ := Scanner.byName_looksWithin (by
    simp only [literals, List.forall_mem_cons]
    exact ⟨Quotation.scanner_looksWithin _, Quotation.scanner_looksWithin _,
      Numeral.scanner_looksWithin _, Numeral.scanner_looksWithin _, List.forall_mem_nil _⟩)

end Hooks

namespace Language

/-- Over texts with the same characters up to the end of its range, at which both cut a word or
neither does, a match comes to the same tree or the same failure and to the same farthest offset. So
nothing behind the range has a part in it, unless the range ends between two letters. -/
theorem match_range {language : Language} (hooks : language.lexis.LooksWithin) {text : Text}
    {rule : Rule} {start stop : Nat} (hs : start ≤ stop) (ht : stop ≤ text.length) :
    (∀ text' : Text, stop ≤ text'.length → text'.take stop = text.take stop →
      text'.cutsWord stop = text.cutsWord stop →
      (language.readerUpTo text' stop).attempt rule start =
        (language.readerUpTo text stop).attempt rule start) ∧
    (text.cutsWord stop = false →
      (language.readerUpTo (text.take stop) stop).attempt rule start =
        (language.readerUpTo text stop).attempt rule start) := by
  have hover (text' : Text) (same : text.Alike text' stop) :
      (language.readerUpTo text' stop).attempt rule start =
        (language.readerUpTo text stop).attempt rule start :=
    Reader.attempt_withText (r := language.readerUpTo text stop) same hooks hs
  exact ⟨fun text' ht' htake hcuts => hover text' ⟨ht, ht', htake.symm, hcuts.symm⟩,
    fun hcuts => hover _ (Text.alike_take ht hcuts)⟩

def doWord : Language where
  grammar := .ofList [("S", some (.leaf .literal ⟨0, 4, false, none, "'do'".toList⟩))]
  lexis := .plain

theorem do_it_range : ∃ rule tree, doWord.grammar.body? "S" = some (some rule) ∧
    ((doWord.readerUpTo "do_it".toList 2).attempt rule 0).result = .ok tree ∧
    ((doWord.readerUpTo "do".toList 2).attempt rule 0).result = .ok tree ∧ tree.stop = 2 := by
  have h : ((doWord.readerUpTo "do_it".toList 2).attempt
    (.leaf .literal ⟨0, 4, true, some "S", "'do'".toList⟩) 0).result = .ok _ := rfl
  have hrange := (@match_range doWord Lexis.plain_looksWithin "do_it".toList
    (.leaf .literal ⟨0, 4, true, some "S", "'do'".toList⟩) 0 2 (by decide) (by decide)).2
    (by decide)
  exact ⟨_, _, rfl, h, (congrArg result hrange).trans h, rfl⟩

/-- In a text that goes on the front of the word is refused, in the text up to there it is not. -/
theorem do_ne_range : ∃ rule, doWord.grammar.body? "S" = some (some rule) ∧
    ((doWord.readerUpTo "done".toList 2).attempt rule 0).result =
      .error (.failure (.because (.wordContinues "do".toList) 2 [])) ∧
    ((doWord.readerUpTo "do".toList 2).attempt rule 0).result = .ok (.leaf ⟨.token, 0, 2, rule⟩) :=
  ⟨_, rfl, rfl, rfl⟩

end Language
end OrderedBnf
