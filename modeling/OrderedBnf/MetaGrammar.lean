import OrderedBnf.Grammar.Load
import OrderedBnf.Lexical.Quotation
import OrderedBnf.Parse.Language

/-! The notation described in itself. It is stricter than the loader: line breaks count, and only
spaces and tabs are skipped. A rule may go on over further lines as long as none of them looks like
the head of another rule. -/
namespace OrderedBnf.MetaGrammar

def document : List Text :=
  ["Grammar: \x7b NEW_LINE \x7d \x7b Rule \x7b NEW_LINE \x7d \x7d",
   "Rule: IDENTIFIER ':' [ [ Continuation ] Expression ] NEW_LINE",
   "Expression: Sequence \x7b Alternative \x7d",
   "Alternative: \x7b NEW_LINE \x7d '|' [ Continuation ] Sequence",
   "Sequence: Atom \x7b Atom | Continuation Atom \x7d",
   "Atom: Literal | Group | Optional | Repetition | Reserved | IDENTIFIER",
   "Literal: TOKEN | DoubleQuoted",
   "DoubleQuoted:",
   "Continuation:",
   "Group: '(' Expression ')'",
   "Optional: '[' Expression ']'",
   "Repetition: '\x7b' Expression '\x7d'",
   "Reserved: 'TOKEN' | 'IDENTIFIER' | 'NEW_LINE'"].map String.toList

def grammar : Grammar :=
  match Grammar.load document [] with
  | .ok grammar => grammar
  | .error _ => .empty

/-- Line breaks and the indentation after them, if the next line with words on it neither opens an
alternative nor starts another rule. -/
def continuation : Scanner := fun text start stop =>
  match text.drop start with
  | [] => .error (.abort .beyondText)
  | c :: _ =>
    if c ≠ '\n' then .ok none
    else match skipWhile (fun c => c = ' ' || c = '\t' || c = '\n') text start stop with
      | .error cause => .error (.abort cause)
      | .ok next =>
        let line := Text.trim isBlank ((text.window next stop).takeWhile (· ≠ '\n'))
        if next = stop || line.head? = some '|' || (headOf? line).isSome then .ok none
        else .ok (some ⟨.token, start, next⟩)

def reservedWords : List Text := ["TOKEN".toList, "IDENTIFIER".toList, "NEW_LINE".toList]

def scanners : List (String × Scanner) :=
  [("DoubleQuoted", Quotation.scanner '"'), ("Continuation", continuation)]

def language : Language where
  grammar := grammar
  lexis :=
    { isKeyword := reservedWords.contains
      skip := skipWhile fun c => c = ' ' || c = '\t'
      extend := Scanner.byName scanners }

/-- Comments become blank lines, blanks at the ends of lines go away, and every line ends in a
feed. -/
def normalize (text : Text) : Text :=
  let lines := text.lines.map fun line =>
    if (line.trimLeft isBlank).head? = some '#' then [] else line.trimRight isBlank
  Text.join ['\n'] lines ++ ['\n']

def lint (text : Text) (filename : Option String) : Except ParseError ParseTree :=
  language.parse "Grammar" (normalize text) filename

end OrderedBnf.MetaGrammar
