import OrderedBnf.Lexical.CurlyBrace
import OrderedBnf.Grammar.Load
import OrderedBnf.Grammar.Overview
import OrderedBnf.Grammar.Reachable
import OrderedBnf.MetaGrammar
import OrderedBnf.Parse.Decorated
import OrderedBnf.Report.Grid
import OrderedBnf.Report.Transcript

/-! The command line: load a grammar, parse files by it, and say of each whether it matches. -/
namespace OrderedBnf.CommandLine

structure Options where
  rule : Option String := none
  curlyBraces : Bool := false
  lint : Bool := false
  rules : Bool := false
  outline : Bool := false
  verbose : Bool := false
  /-- The grammar, then the sources. -/
  paths : List String := []
  deriving DecidableEq, Repr

namespace Options

private def readShort (o : Options) : Text → Option (Options × Bool)
  | [] => some (o, false)
  | ['r'] => some (o, true)
  | 'r' :: name => some ({ o with rule := some (String.ofList name) }, false)
  | 'c' :: rest => readShort { o with curlyBraces := true } rest
  | 'v' :: rest => readShort { o with verbose := true } rest
  | _ => none

private def readLong (o : Options) (name : String) : Option (Options × Bool) :=
  match name with
  | "rule" => some (o, true)
  | "c-family" => some ({ o with curlyBraces := true }, false)
  | "lint" => some ({ o with lint := true }, false)
  | "rules" => some ({ o with rules := true }, false)
  | "outline" => some ({ o with outline := true }, false)
  | "verbose" => some ({ o with verbose := true }, false)
  | _ => none

private def readWord (o : Options) (word : String) : Option (Options × Bool) :=
  match word.toList with
  | '-' :: 'r' :: '=' :: name => some ({ o with rule := some (String.ofList name) }, false)
  | '-' :: '-' :: name =>
    match name.span (· ≠ '=') with
    | (_, []) => o.readLong (String.ofList name)
    | (name, _ :: value) =>
      if name = "rule".toList then some ({ o with rule := some (String.ofList value) }, false)
      else none
  | '-' :: c :: rest => o.readShort (c :: rest)
  | _ => some ({ o with paths := o.paths ++ [word] }, false)

/-- Switches may stand anywhere among the paths. -/
def read (o : Options) : List String → Option Options
  | [] => some o
  | word :: rest =>
    match o.readWord word with
    | none => none
    | some (o, false) => o.read rest
    | some (o, true) =>
      match rest with
      | [] => none
      | name :: rest => { o with rule := some name }.read rest

end Options

def complain (d : Diagnosis) : Transcript :=
  let details := if d.failure.causes.isEmpty then [] else d.failure.details (some d.source)
  Transcript.complaint d ++ { err := details.map ("\t" ++ ·) }

def complainLexical (path : String) (text : Text) (error : LexicalError) : Transcript :=
  let source : Source := { content := text, filename := some path }
  { err := (source.complaint? error.position
      (min (error.position + 1) text.length) error.message).toList }

def parseSource (o : Options) (language : Language) (start path : String) (text : Text) :
    Except Abort (Bool × Transcript) :=
  match language.parse start text (some path) with
  | .error (.failed d) => .ok (false, complain d)
  | .error (.aborted (.lexical error)) => .ok (false, complainLexical path text error)
  | .error (.aborted cause) => .error cause
  | .ok tree =>
    let size := toString (ParseTree.stop tree - ParseTree.start tree)
    let parsed := path ++ ": parsed " ++ size ++ " characters as " ++ start
    .ok (true, { out := (if o.verbose then [parsed] else []) ++
      (if o.outline then ParseTree.outline text tree {} else []) })

def parseSources {ε : Type} (o : Options) (read : Reads ε) (language : Language) (start : String)
    (matched : Bool) (before : Transcript) :
    List String → Except (Interruption ε) Nat × Transcript
  | [] => (.ok (if matched then 0 else 1), before)
  | path :: rest =>
    match read path with
    | .error error => (.error (.unreadable path error), before)
    | .ok text =>
      match parseSource o language start path text with
      | .error cause => (.error (.aborted cause), before)
      | .ok (good, transcript) =>
        parseSources o read language start (matched && good) (before ++ transcript) rest

def warnings (path : String) (rule : Option String) (grammar : Grammar) : List String :=
  match rule with
  | none => []
  | some start =>
    match grammar.unreachable start with
    | [] => []
    | names =>
      [path ++ ": rules unreachable from " ++ start ++ ": " ++ String.intercalate ", " names]

/-- Loads a grammar and parses the sources by it. An empty rule name stands for the first rule. -/
def runGrammar {ε : Type} (o : Options) (read : Reads ε) (path : String) (document : Text)
    (sources : List String) (before : Transcript) : Except (Interruption ε) Nat × Transcript :=
  match Grammar.load document.lines [] with
  | .error error => (.ok 1, before ++ { err := [path ++ ": " ++ error.message] })
  | .ok grammar =>
    let loaded : Transcript := before ++
      { out := if o.verbose then [grammar.summary] else []
        warnings := warnings path o.rule grammar }
    match (o.rule.filter (· ≠ "")).or grammar.names.head? with
    | none => (.ok 1, loaded ++ { err := [path ++ ": grammar has no rules"] })
    | some start =>
      let drawn := match Grid.draw grammar.grid with
        | .ok lines => lines
        | .error _ => []
      let shown := loaded ++ { out := if o.rules then drawn else [] }
      let language : Language :=
        if o.curlyBraces then CurlyBrace.language grammar else ⟨grammar, Lexis.plain⟩
      parseSources o read language start true shown sources

/-- Runs the command line. The status is 0 if everything matches and 1 if not. -/
def runWith {ε : Type} (read : Reads ε) (o : Options) :
    Except (Interruption ε) Nat × Transcript :=
  match o.paths with
  | [] => (.ok 2, {})
  | path :: sources =>
    match read path with
    | .error error => (.error (.unreadable path error), {})
    | .ok document =>
      if o.lint then
        let before : Transcript :=
          { out := if o.verbose then [MetaGrammar.grammar.summary] else [] }
        match MetaGrammar.lint document (some path) with
        | .error (.failed d) => (.ok 1, before ++ complain d)
        | .error (.aborted cause) => (.error (.aborted cause), before)
        | .ok _ => runGrammar o read path document sources before
      else runGrammar o read path document sources {}

def run (files : Files) (o : Options) : Except Crash Nat × Transcript := runWith files.read o

def runStored (encoding : Encoding) (folder : Folder) (o : Options) :
    Except (Interruption StorageError) Nat × Transcript :=
  runWith (folder.read encoding) o

end OrderedBnf.CommandLine
