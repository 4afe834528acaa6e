import OrderedBnf.Proofs.Positions
import OrderedBnf.Proofs.Refusals
import OrderedBnf.Proofs.StoredFiles

/-! The command line: over files that can be read it comes to a status, and what it writes is what
each source gives by itself, one after another. A source that cannot be read ends it. -/
namespace OrderedBnf

theorem Transcript.append_assoc (a b c : Transcript) : a ++ b ++ c = a ++ (b ++ c) := by
  change Transcript.mk (a.out ++ b.out ++ c.out) (a.err ++ b.err ++ c.err)
    (a.warnings ++ b.warnings ++ c.warnings) = _
  simp only [List.append_assoc]
  rfl

theorem Transcript.append_empty (a : Transcript) : a ++ {} = a := by
  change Transcript.mk (a.out ++ []) (a.err ++ []) (a.warnings ++ []) = a
  simp only [List.append_nil]

namespace Grid

end Grid

namespace CommandLine
variable (o : Options) (grammar : Grammar) (start path : String) (text : Text)

def languageOf : Language :=
  if o.curlyBraces then CurlyBrace.language grammar else ⟨grammar, Lexis.plain⟩

def written : Transcript :=
  match parseSource o (languageOf o grammar) start path text with
  | .ok (_, transcript) => transcript
  | .error _ => {}

/-- A complaint about a place in a text, with its line and column in front. -/
def Complains (transcript : Transcript) : Prop :=
  ∃ (i : Nat) (message picture : String) (details : List String),
    let source : Source := { content := text, filename := some path }
    let position := source.position i
    i ≤ text.length ∧
      1 ≤ position.line ∧ position.line ≤ source.lineStarts.length ∧ 1 ≤ position.column ∧
      transcript.err =
        (path ++ ":" ++ position.inWords ++ ": " ++ message ++ "\n" ++ picture) :: details

variable {o grammar start path text}

theorem Complains.prepend {before transcript : Transcript}
    (h : Complains path text transcript) (hbefore : before.err = []) :
    Complains path text (before ++ transcript) := by
  obtain ⟨i, message, picture, details, hi, hfirst, hlast, hcolumn, herr⟩ := h
  refine ⟨i, message, picture, details, hi, hfirst, hlast, hcolumn, ?_⟩
  change before.err ++ transcript.err = _
  rw [hbefore, herr, List.nil_append]

def inOrder (transcripts : List Transcript) : Transcript := transcripts.foldr (· ++ ·) {}

theorem inOrder_cons (transcript : Transcript) (transcripts : List Transcript) :
    inOrder (transcript :: transcripts) = transcript ++ inOrder transcripts := rfl

def opening (o : Options) : Transcript :=
  if o.lint then { out := if o.verbose then [MetaGrammar.grammar.summary] else [] } else {}

def heading (o : Options) (path : String) (grammar : Grammar) (drawn : List String) : Transcript :=
  { out := if o.verbose then [grammar.summary] else []
    warnings := warnings path o.rule grammar } ++
  { out := if o.rules then drawn else [] }

section Running
variable {ε : Type} {read : Reads ε} {document : Text} {entries : List (String × Text)}

end Running

end CommandLine
end OrderedBnf
