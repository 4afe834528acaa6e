import OrderedBnf.Parse.Language
import OrderedBnf.Report.Files

/-! What a run of a program leaves behind. -/
namespace OrderedBnf

structure Transcript where
  out : List String := []
  err : List String := []
  warnings : List String := []
  deriving DecidableEq, Repr

def Transcript.append (a b : Transcript) : Transcript :=
  ⟨a.out ++ b.out, a.err ++ b.err, a.warnings ++ b.warnings⟩

instance : Append Transcript := ⟨Transcript.append⟩

def unlines (lines : List String) : String := String.join (lines.map (· ++ "\n"))

/-- What ends a run before its time: a path that cannot be read, for a reason of some kind, or an
abort. -/
inductive Interruption (ε : Type) where
  | unreadable (path : String) (error : ε)
  | aborted (cause : Abort)
  deriving DecidableEq, Repr

abbrev Crash := Interruption FileError

def Transcript.complaint (d : Diagnosis) : Transcript := { err := d.complaint?.toList }

end OrderedBnf
