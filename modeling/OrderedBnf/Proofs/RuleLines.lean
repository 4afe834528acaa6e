import OrderedBnf.Proofs.DocumentLines
import OrderedBnf.Proofs.Loading
import OrderedBnf.Proofs.NotationDocuments

/-! The lines of a document as the loader collects them, where the notation has read rules. A line
within a rule is no head: a colon of an expression stands in quotation marks, and a block that was
closed there would be left with the mark open. -/
namespace OrderedBnf

namespace Place
variable {place : Place} {c mark : Char} {before words rest : Text}

def Fair : Place → Prop
  | inside _ mark | escaped _ mark => isQuote mark
  | _ => True

theorem Fair.step (h : Fair place) (c : Char) : Fair (place.step c) := by
  cases place with
  | outside depth =>
    change Fair (stepOutside depth c)
    unfold stepOutside
    by_cases hquote : isQuote c
    · rw [if_pos hquote]
      exact hquote
    · rw [if_neg hquote]
      split
      · trivial
      · split
        · cases depth <;> trivial
        · trivial
  | inside depth mark =>
    rw [Place.step]
    split
    · exact h
    · split
      · trivial
      · exact h
  | escaped depth mark => exact h
  | lost => trivial

theorem Fair.after_text (h : Fair place) (text : Text) : Fair (place.after text) := by
  induction text generalizing place with
  | nil => exact h
  | cons c text ih => exact ih (h.step c)

theorem not_quote_of_blank (hc : isBlank c) : isQuote c = false ∧ c ≠ '\\' := by
  refine ⟨(of_not_sign (not_sign_of_blank hc)).1, ?_⟩
  rintro rfl
  cases hc

theorem ne_mark_of_blank (hc : isBlank c) (h : isQuote mark) : c ≠ mark := by
  rintro rfl
  rw [(not_quote_of_blank hc).1] at h
  cases h

/-- Every blank has the effect of a line break. -/
theorem Fair.step_blank (h : Fair place) (hc : isBlank c) : place.step c = place.step '\n' := by
  cases place with
  | outside depth => rw [Place.step_blank hc, Place.step_blank (by decide)]
  | inside depth mark =>
    have hfeed : '\n' ≠ mark := ne_mark_of_blank (by decide) h
    rw [Place.step, Place.step, if_neg (not_quote_of_blank hc).2, if_neg (ne_mark_of_blank hc h),
      if_neg (by decide), if_neg hfeed]
  | escaped depth mark => rfl
  | lost => rfl

/-- A place that a reader is in after a line break: further blanks leave him there. -/
structure Settled (place : Place) : Prop where
  fair : Fair place
  step : place.step '\n' = place

theorem Fair.settled (h : Fair place) : Settled (place.step '\n') := by
  refine ⟨h.step _, ?_⟩
  cases place with
  | outside depth => rw [Place.step_blank (by decide), Place.step_blank (by decide)]
  | inside depth mark | escaped depth mark =>
    have hfeed : '\n' ≠ mark := ne_mark_of_blank (by decide) h
    simp [Place.step, hfeed]
  | lost => rfl

theorem Settled.blanks (h : Settled place) (hb : Blanks before) : place.after before = place := by
  induction before with
  | nil => rfl
  | cons c before ih =>
    rw [after_cons, h.fair.step_blank (hb c List.mem_cons_self), h.step]
    exact ih fun c hc => hb c (List.mem_cons_of_mem _ hc)

theorem Fair.line_end (h : Fair place) (hr : Blanks rest) :
    place.after (rest ++ ['\n']) = place.step '\n' := by
  cases rest with
  | nil => rfl
  | cons c rest =>
    rw [List.cons_append, after_cons, h.step_blank (hr c List.mem_cons_self)]
    exact h.settled.blanks (List.forall_mem_append.2
      ⟨fun c hc => hr c (List.mem_cons_of_mem _ hc), by simp [isBlank]⟩)

/-- The blanks around the words of a line make no difference. -/
theorem Settled.line (h : Settled place) (hb : Blanks before) (hr : Blanks rest) :
    place.after (before ++ words ++ rest ++ ['\n']) = (place.after words).step '\n' := by
  rw [List.append_assoc, after_append, after_append place before, h.blanks hb]
  exact (h.fair.after_text words).line_end hr

/-- Where a reader is at the start of the line after those of an open block. -/
def ofBody (body : List Text) : Place := ((outside 0).after (Text.join ['\n'] body)).step '\n'

theorem settled_ofBody (body : List Text) : Settled (ofBody body) :=
  ((show Fair (outside 0) from trivial).after_text _).settled

theorem ofBody_concat {body : List Text} (h : body ≠ []) (words : Text) :
    ofBody (body ++ [words]) = ((ofBody body).after words).step '\n' := by
  rw [ofBody, Text.join_append h (List.cons_ne_nil _ _), after_append, after_append]
  rfl

theorem ofBody_singleton (line : Text) :
    ofBody [line.trimRight isBlank] = (outside 0).after (line ++ ['\n']) := by
  obtain ⟨rest, hr, hline⟩ := line.trimRight_append_rest isBlank
  have hstart : Settled (outside 0) := ⟨trivial, rfl⟩
  calc ofBody [line.trimRight isBlank]
      = (outside 0).after ([] ++ line.trimRight isBlank ++ rest ++ ['\n']) :=
        (hstart.line Blanks.nil hr).symm
    _ = (outside 0).after (line ++ ['\n']) := by rw [List.nil_append, ← hline]

end Place

open Place

/-- A text that a reader leaves as deep in brackets as he was, with no colon outside quotation
marks. -/
structure Mute (depth : Nat) (text : Text) : Prop where
  closed : (outside depth).after text = outside depth
  quiet : ∀ u v, text = u ++ ':' :: v → ∀ d, (outside depth).after u ≠ outside d

namespace Mute
variable {depth : Nat} {text rest : Text}

theorem of_not_mem (hclosed : (outside depth).after text = outside depth) (h : ':' ∉ text) :
    Mute depth text :=
  ⟨hclosed, fun u v he => absurd (by simp) (he ▸ h)⟩

/-- Mute texts may follow one another. -/
theorem append (h : Mute depth text) (h' : Mute depth rest) : Mute depth (text ++ rest) where
  closed := by rw [after_append, h.closed, h'.closed]
  quiet u v he d := by
    rcases append_eq_append_cons he with ⟨w, hw, -⟩ | ⟨w, rfl, hw⟩
    · exact h.quiet u w hw d
    · rw [after_append, h.closed]
      exact h'.quiet w v hw d

theorem blanks (h : Blanks text) : Mute depth text :=
  .of_not_mem (after_blanks h) fun hc => absurd (h _ hc) (by decide)

theorem identifier (h : isIdentifier text) : Mute depth text :=
  have h := identifierChar_of_identifier h
  .of_not_mem (after_identifier h) fun hc => absurd (h _ hc) (by decide)

theorem escaped_ne {mark : Char} {u v body : Text} (h : Escaped mark body) (hb : body = u ++ v)
    (d : Nat) : (inside depth mark).after u ≠ outside d := by
  induction h generalizing u with
  | nil =>
    rw [(List.append_eq_nil_iff.1 hb.symm).1]
    rintro ⟨⟩
  | @plain c rest hm hs _ ih =>
    cases u with
    | nil => rintro ⟨⟩
    | cons c' u =>
      obtain ⟨rfl, hrest⟩ := List.cons.inj hb
      rw [after_cons, step, if_neg hs, if_neg hm]
      exact ih hrest
  | @escape c rest _ ih =>
    rcases u with _ | ⟨c', _ | ⟨c'', u⟩⟩
    · rintro ⟨⟩
    · obtain ⟨rfl, -⟩ := List.cons.inj hb
      rintro ⟨⟩
    · obtain ⟨rfl, htail⟩ := List.cons.inj hb
      obtain ⟨rfl, hrest⟩ := List.cons.inj htail
      exact ih (u := u) hrest

/-- A text with a sign at each end, of which the first leads to a place where the rest is mute. -/
theorem wrapped {opening closing : Char} {inner : Place} (hopening : opening ≠ ':')
    (hclosing : closing ≠ ':') (ho : (outside depth).step opening = inner)
    (hc : (inner.after text).step closing = outside depth)
    (hquiet : ∀ u v, text = u ++ ':' :: v → ∀ d, inner.after u ≠ outside d) :
    Mute depth (opening :: (text ++ [closing])) where
  closed := by rw [after_cons, ho, after_append, after_cons, hc, after_nil]
  quiet u v he d := by
    cases u with
    | nil => exact absurd (List.cons.inj he).1 hopening
    | cons c u =>
      obtain ⟨rfl, hrest⟩ := List.cons.inj he
      rw [after_cons, ho]
      rcases append_eq_append_cons hrest with ⟨w, hw, -⟩ | ⟨_ | ⟨c, w⟩, -, hw⟩
      · exact hquiet u w hw d
      · exact absurd (List.cons.inj hw).1 hclosing
      · simp at hw

/-- A terminal is mute. -/
theorem terminal {form : Leaf} (h : Terminal form text) : Mute depth text := by
  cases h with
  | @literal mark body hmark h =>
    have hslash : mark ≠ '\\' := by
      rintro rfl
      cases hmark
    have hcolon : mark ≠ ':' := by
      rintro rfl
      cases hmark
    refine wrapped hcolon hcolon (step_quote hmark) ?_ fun u v hb d => escaped_ne h hb d
    rw [after_escaped h, step, if_neg hslash, if_pos rfl]
  | reserved h => exact identifier (reserved_identifier h)
  | reference h => exact identifier h

end Mute

/-- An expression with blanks between its words is mute. -/
theorem Spread.mute {spacing : Spacing} {size : Nat} {level : Level} {es : List Expression}
    {text : Text} (h : Spread Terminal spacing size level es text)
    (hs : spacing.Le ⟨Blanks, Blanks, Blanks, Blanks⟩) : ∀ depth, Mute depth text := by
  induction h with
  | leaf h => exact fun _ => .terminal h
  | enclosed henc hb _ ha ih =>
    intro depth
    have hinner := ((Mute.blanks (hs.within hb)).append (ih (depth + 1))).append
      (Mute.blanks (hs.within ha))
    have hclosed {closing : Char} (hc : (outside (depth + 1)).step closing = outside depth) :
        ((outside (depth + 1)).after (_ ++ _ ++ _)).step closing = outside depth :=
      (congrArg (step · closing) hinner.closed).trans hc
    cases henc <;>
      exact .wrapped (by decide) (by decide) rfl (hclosed rfl) hinner.quiet
  | alone _ ih => exact ih
  | several _ _ ih => exact ih
  | cons _ hb _ ih ih' =>
    intro depth
    refine ((ih depth).append ?_).append (ih' depth)
    cases hb with
    | apart h => exact .blanks (hs.apart h)
    | bar hb ha =>
      exact (Mute.blanks (hs.beforeBar hb)).append
        (@Mute.append _ ['|'] _ (.of_not_mem rfl (by decide)) (.blanks (hs.afterBar ha)))

section Heads
variable {u rest words : Text} {name : String}

/-- A line is a title where an identifier stands in front of its first colon. -/
theorem headOf?_eq (h : ':' ∉ u) :
    headOf? (u ++ ':' :: rest) = if isIdentifier u then some (String.ofList u, rest) else none := by
  have hu : ∀ c ∈ u, c != ':' := fun c hc => bne_iff_ne.2 fun he => h (he ▸ hc)
  rw [headOf?, List.span_eq_takeWhile_dropWhile, List.takeWhile_append_of_pos hu,
    List.dropWhile_append_of_pos hu]
  simp

theorem headOf?_some (h : headOf? words = some (name, rest)) :
    isIdentifier name.toList ∧ words = name.toList ++ ':' :: rest := by
  rw [headOf?, List.span_eq_takeWhile_dropWhile] at h
  have hsplit := List.takeWhile_append_dropWhile (p := (· != ':')) (l := words)
  have hhead := List.head?_dropWhile_not (· != ':') words
  split at h
  · rename_i u c tail he
    obtain ⟨hu, hd⟩ := Prod.mk.inj he
    rw [hd] at hhead
    obtain rfl : c = ':' := by simpa using hhead
    split at h
    · obtain ⟨rfl, rfl⟩ := Prod.mk.inj (Option.some.inj h)
      rw [String.toList_ofList, ← hu, ← hd]
      exact ⟨hu ▸ ‹isIdentifier u›, hsplit.symm⟩
    · cases h
  · cases h

end Heads

namespace Block

theorem Sound.padded {name : String} {line : Nat} {body : List Text}
    (h : (ofLines name line body).Sound) : Padded (Text.join ['\n'] body) := by
  rcases h with h | ⟨rule, h⟩
  · obtain ⟨after, ha, he⟩ := (Text.join ['\n'] body).trim_parts isBlank
    rw [show (Text.join ['\n'] body).trim isBlank = [] from h, List.append_nil] at he
    rw [he]
    exact .blank (List.forall_mem_append.2 ⟨fun c hc => List.mem_takeWhile_imp hc, ha⟩)
  · exact Rule.padded_of_compile h

theorem Sound.closed {name : String} {line : Nat} {body : List Text}
    (h : (ofLines name line body).Sound) : ofBody body = outside 0 := by
  rw [ofBody, h.padded.closed]
  rfl

variable {number line : Nat} {name : String} {body lines rest : List Text}

/-- The open block keeps its name and its lines. -/
theorem collect_first : ∃ more blocks,
    collect number name line body lines = ofLines name line (body ++ more) :: blocks := by
  induction lines generalizing number body with
  | nil => exact ⟨[], [], by rw [List.append_nil]; rfl⟩
  | cons next lines ih =>
    rw [collect]
    split
    · exact ih
    · split
      · rename_i words _ _ _
        obtain ⟨more, blocks, h⟩ := @ih (number + 1) (body ++ [words])
        exact ⟨words :: more, blocks, by rw [h, List.append_assoc]; rfl⟩
      · exact ⟨[], _, by rw [List.append_nil]⟩

/-- Lines in which no colon stands outside quotation marks belong to the open block, if all blocks
compile. -/
theorem collect_lines (hclean : ∀ l ∈ lines, Clean l) (hne : body ≠ [])
    (hquiet : ∀ u v, Text.unlines lines = u ++ ':' :: v → (ofBody body).after u ≠ outside 0)
    (hsound : ∀ b ∈ collect number name line body (lines ++ rest), b.Sound) :
    collect number name line body (lines ++ rest) = collect (number + lines.length) name line
      (body ++ lines.filterMap significant?) rest ∧
    ofBody (body ++ lines.filterMap significant?) = (ofBody body).after (Text.unlines lines) := by
  induction lines generalizing number body with
  | nil => simp [Text.unlines]
  | cons next lines ih =>
    have hclean' : ∀ l ∈ lines, Clean l := fun l hl => hclean l (List.mem_cons_of_mem _ hl)
    have hset := settled_ofBody body
    have hlength : number + (next :: lines).length = number + 1 + lines.length := by
      rw [List.length_cons]
      omega
    have hunlines : Text.unlines (next :: lines) = (next ++ ['\n']) ++ Text.unlines lines := by
      rw [Text.unlines_cons, List.append_assoc]
      rfl
    have hquiet' (u v : Text) (hu : Text.unlines lines = u ++ ':' :: v) :
        ((ofBody body).after (next ++ ['\n'])).after u ≠ outside 0 := by
      rw [← after_append]
      refine hquiet _ v ?_
      rw [hunlines, hu, List.append_assoc _ u]
    rw [List.cons_append, collect] at hsound ⊢
    rw [hlength, hunlines, after_append]
    cases hs : significant? next with
    | none =>
      have hblank := (hclean next List.mem_cons_self).blank hs
      have hnext : (ofBody body).after (next ++ ['\n']) = ofBody body :=
        hset.blanks (List.forall_mem_append.2 ⟨hblank, by simp [isBlank]⟩)
      rw [hnext] at hquiet' ⊢
      rw [List.filterMap_cons_none hs]
      rw [hs] at hsound
      exact ih hclean' hne hquiet' hsound
    | some words =>
      obtain ⟨before, after, hb, ha, hline⟩ := significant?_parts hs
      rw [hs] at hsound
      dsimp only at hsound ⊢
      cases hh : headOf? words with
      | none =>
        have hnext : (ofBody body).after (next ++ ['\n']) = ofBody (body ++ [words]) := by
          rw [hline, hset.line hb ha, ofBody_concat hne]
        rw [hnext] at hquiet' ⊢
        rw [hh] at hsound
        rw [List.filterMap_cons_some hs, List.append_cons body words (lines.filterMap _)]
        exact ih hclean' (by simp) hquiet' hsound
      | some head =>
        -- the block would be closed here, and its reader is outside brackets and quotations
        obtain ⟨name', first⟩ := head
        rw [hh] at hsound
        have hclosed := (hsound _ List.mem_cons_self).closed
        obtain ⟨hname, hwords⟩ := headOf?_some hh
        refine absurd ?_ (hquiet (before ++ name'.toList) (first ++ after ++ '\n' ::
          Text.unlines lines) ?_)
        · rw [hclosed, after_append, after_blanks hb,
            after_identifier (identifierChar_of_identifier hname)]
        · rw [Text.unlines_cons, hline, hwords]
          simp

end Block
end OrderedBnf
