import OrderedBnf.Proofs.CommandLine
import OrderedBnf.Proofs.UnclosedComments
import OrderedBnf.StatementTrace

/-! Instrumenting one program after another: each is treated by itself, up to the first with a
comment that nothing closes, at which the run ends. -/
namespace OrderedBnf.StatementTrace
open CommandLine (inOrder inOrder_cons)

def table (path : String) (places : List Position) : List String :=
  places.zipIdx 1 |>.map fun (place, number) =>
    toString number ++ "\t" ++ path ++ ":" ++ toString place.line ++ ":" ++ toString place.column

def report (path : String) : Except ParseError Instrumented → Transcript
  | .ok result => { out := [String.ofList result.text], err := table path result.places }
  | .error (.failed d) => Transcript.complaint d
  | .error (.aborted _) => {}

def written (path : String) (text : Text) : Transcript := report path (instrument text "trace")

/-- A program is instrumented, with a table of its statements, or there is a complaint about a place
in it. -/
def Treated (path : String) (text : Text) : Prop :=
  (∃ result, instrument text "trace" = .ok result ∧
    written path text = { out := [String.ofList result.text], err := table path result.places }) ∨
  ∃ (d : Diagnosis) (i : Nat) (picture : String),
    let position := Source.position { content := text } i
    instrument text "trace" = .error (.failed d) ∧ d.failure.position = i ∧ i ≤ text.length ∧
      1 ≤ position.line ∧ 1 ≤ position.column ∧ written path text =
        { err := ["At" ++ position.inWords ++ ": " ++ d.failure.message ++ "\n" ++ picture] }

/-- A program in which a comment is opened that nothing closes, where it is read that far. -/
def Unended (text : Text) (opened : Nat) : Prop :=
  instrument text "trace" = .error (.aborted (.lexical (Comment.unclosed opened))) ∧
    ∃ i, Comment.LeftOpen text i opened

variable {ε : Type} {read : Reads ε} {path : String} {text : Text} {call : String} {error : ParseError}

theorem parse_of_instrument_error (h : instrument text call = .error error) :
    language.parse "Program" text none = .error error := by
  cases hparse : language.parse "Program" text none with
  | error error' =>
    rw [instrument, hparse] at h
    cases h
    rfl
  | ok tree =>
    rw [instrument, hparse] at h
    cases h

theorem treated_of_failed {d : Diagnosis} (h : instrument text "trace" = .error (.failed d))
    (hsource : d.source = { content := text }) (hlies : d.failure.Lies text.length) :
    Treated path text := by
  obtain ⟨i, hi⟩ := Int.eq_ofNat_of_zero_le hlies.1
  have hle := hlies.2
  rw [hi] at hle
  have htab : (1 : Int) ≤ 2 := by decide
  obtain ⟨hfirst, -, hcolumn⟩ := @Source.position_within { content := text } htab i
  obtain ⟨picture, hpicture⟩ := Source.complaint?_natCast { content := text } i
    (min (i + 1) text.length) d.failure.message
  refine .inr ⟨d, i, picture, h, hi, Int.ofNat_le.1 hle, hfirst, hcolumn, ?_⟩
  rw [written, h, report, Transcript.complaint, Diagnosis.complaint?, hsource, hi]
  dsimp only
  rw [hpicture]
  rfl

theorem treated_or_unended (path : String) (text : Text) :
    Treated path text ∨ ∃ opened, Unended text opened := by
  cases h : instrument text "trace" with
  | ok result => exact .inl (.inl ⟨result, h, by rw [written, h, report]⟩)
  | error error =>
    have hparse := parse_of_instrument_error h
    rcases Language.parse_error (CurlyBrace.stays grammar) hparse with
      ⟨d, rfl, hsource, hlies⟩ | ⟨cause, rfl, error, rfl, -⟩
    · exact .inl (treated_of_failed h hsource hlies)
    · obtain ⟨i, opened, -, ho, rfl⟩ := CurlyBrace.leftOpen_of_parse hparse
      exact .inr ⟨opened, h, i, ho⟩

/-- What follows a file that has been read, whatever it is, so that none of it is evaluated. -/
theorem go_of_read {α : Type} {found : Except ε Text} {unread : ε → α} {go : Text → α} :
    found = .ok text →
      (match found with
        | .error error => unread error
        | .ok text => go text) = go text := by
  rintro rfl
  rfl

/-- What the first program comes to decides whether the run goes on behind it. -/
theorem runWith_cons (hread : read path = .ok text) (before : Transcript) (rest : List String) :
    (∀ cause, instrument text "trace" = .error (.aborted cause) →
      runWith read before (path :: rest) = (.error (.aborted cause), before)) ∧
    ((∀ cause, instrument text "trace" ≠ .error (.aborted cause)) →
      runWith read before (path :: rest) = runWith read (before ++ written path text) rest) := by
  rw [runWith, written]
  constructor
  · intro cause h
    refine (go_of_read hread).trans ?_
    rw [h]
  · intro h
    refine (go_of_read hread).trans ?_
    cases hout : instrument text "trace" with
    | ok result => rw [report, table]
    | error error =>
      cases error with
      | failed d => rw [report]
      | aborted cause => exact absurd hout (h cause)

theorem Treated.not_aborted (h : Treated path text) (cause : Abort) :
    instrument text "trace" ≠ .error (.aborted cause) := by
  intro hout
  rcases h with ⟨result, h, -⟩ | ⟨d, i, picture, h, -⟩
  · cases hout.symm.trans h
  · cases hout.symm.trans h

/-- Programs that are treated do not stop those behind them. -/
theorem runWith_append {entries : List (String × Text)}
    (hread : ∀ entry ∈ entries, read entry.1 = .ok entry.2)
    (h : ∀ entry ∈ entries, Treated entry.1 entry.2) (rest : List String) :
    ∀ before : Transcript, runWith read before (entries.map Prod.fst ++ rest) =
      runWith read (before ++ inOrder (entries.map fun entry => written entry.1 entry.2)) rest := by
  induction entries with
  | nil =>
    intro before
    rw [List.map_nil, List.map_nil, inOrder, List.foldr_nil, Transcript.append_empty,
      List.nil_append]
  | cons entry entries ih =>
    intro before
    obtain ⟨hentry, hread⟩ := List.forall_mem_cons.1 hread
    obtain ⟨htreated, h⟩ := List.forall_mem_cons.1 h
    rw [List.map_cons, List.cons_append, (runWith_cons hentry _ _).2 htreated.not_aborted, ih hread h,
      List.map_cons, inOrder_cons, Transcript.append_assoc]

/-- Over programs that can be read, each is treated or has a comment that nothing closes. Where all
are treated the run comes to its end and has written, in their order, what each gets by itself. A
comment that nothing closes ends the run: it has written what the programs in front get, and
nothing for that program and those behind it. -/
theorem run_programs (files : Files) {entries : List (String × Text)}
    (hread : ∀ entry ∈ entries, files.read entry.1 = .ok entry.2) :
    (∀ entry ∈ entries, Treated entry.1 entry.2 ∨ ∃ opened, Unended entry.2 opened) ∧
    ((∀ entry ∈ entries, Treated entry.1 entry.2) →
      run files {} (entries.map Prod.fst) =
        (.ok (), inOrder (entries.map fun entry => written entry.1 entry.2))) ∧
    ∀ done entry rest opened, entries = done ++ entry :: rest →
      (∀ entry ∈ done, Treated entry.1 entry.2) → Unended entry.2 opened →
      run files {} (entries.map Prod.fst) =
        (.error (.aborted (.lexical (Comment.unclosed opened))),
          inOrder (done.map fun entry => written entry.1 entry.2)) := by
  refine ⟨fun entry _ => treated_or_unended entry.1 entry.2, fun h => ?_, ?_⟩
  · have hrun := runWith_append hread h [] {}
    rwa [List.append_nil] at hrun
  · rintro done entry rest opened rfl h hu
    have hdone := fun entry hm => hread entry (List.mem_append_left _ hm)
    have hentry := hread entry (List.mem_append_right _ List.mem_cons_self)
    rw [run, List.map_append, List.map_cons, runWith_append hdone h, (runWith_cons hentry _ _).1 _ hu.1]
    rfl

def aborted? : Except ParseError Instrumented → Option Abort
  | .error (.aborted cause) => some cause
  | _ => none

theorem aborted?_eq_some {out : Except ParseError Instrumented} {cause : Abort} :
    aborted? out = some cause ↔ out = .error (.aborted cause) := by
  rcases out with (d | cause') | result <;> simp [aborted?]

def soundProgram : Text := "function f() \x7b g(); \x7d".toList

def threePrograms : Files :=
  [("cut", "function".toList), ("whole", soundProgram), ("open", "/* x".toList)]

theorem aborted_programs : aborted? (instrument "function".toList "trace") = none ∧
    aborted? (instrument soundProgram "trace") = none ∧
    aborted? (instrument "/* x".toList "trace") = some (.lexical (Comment.unclosed 0)) := by
  decide +kernel

theorem three_programs_run :
    run threePrograms {} ["cut", "whole"] =
      (.ok (), inOrder [written "cut" "function".toList, written "whole" soundProgram]) ∧
    run threePrograms {} ["cut", "whole", "open"] =
      (.error (.aborted (.lexical (Comment.unclosed 0))),
        inOrder [written "cut" "function".toList, written "whole" soundProgram]) := by
  obtain ⟨hcut, hwhole, hopen⟩ := aborted_programs
  have hread : ∀ entry ∈ threePrograms, threePrograms.read entry.1 = .ok entry.2 := by
    simp only [threePrograms, List.forall_mem_cons]
    exact ⟨rfl, rfl, rfl, List.forall_mem_nil _⟩
  have hfront : ∀ entry ∈ [("cut", "function".toList), ("whole", soundProgram)],
      threePrograms.read entry.1 = .ok entry.2 :=
    fun entry hm => hread entry (List.mem_of_mem_take (show entry ∈ threePrograms.take 2 from hm))
  have hone (path : String) {text : Text} (h : aborted? (instrument text "trace") = none) :
      Treated path text := by
    refine (treated_or_unended path text).resolve_right ?_
    rintro ⟨opened, hu, -⟩
    cases h.symm.trans (aborted?_eq_some.2 hu)
  have htreated : ∀ entry ∈ [("cut", "function".toList), ("whole", soundProgram)],
      Treated entry.1 entry.2 := by
    simp only [List.forall_mem_cons]
    exact ⟨hone _ hcut, hone _ hwhole, List.forall_mem_nil _⟩
  have hunended : Unended "/* x".toList 0 := ⟨aborted?_eq_some.1 hopen, 0,
    @Comment.leftOpen_of_drop _ 0 [] _ rfl .nil ⟨_, rfl, by decide⟩⟩
  exact ⟨(run_programs threePrograms hfront).2.1 htreated,
    (run_programs threePrograms hread).2.2 _ _ [] 0 rfl htreated hunended⟩

/-- The whole program would be instrumented, but for the comment in the file before it. -/
theorem open_before_whole :
    run threePrograms {} ["open", "whole"] =
        (.error (.aborted (.lexical ⟨"Comment not closed", 0⟩)), {}) ∧
      threePrograms.read "open" = .ok "/* x".toList ∧ threePrograms.read "whole" = .ok soundProgram :=
  ⟨(runWith_cons rfl {} ["whole"]).1 _ (aborted?_eq_some.1 aborted_programs.2.2), rfl, rfl⟩

end OrderedBnf.StatementTrace
