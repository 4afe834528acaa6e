import OrderedBnf.Lexical.Comment
import OrderedBnf.Lexical.Numeral
import OrderedBnf.Lexical.Quotation
import OrderedBnf.Parse.Language

/-! The lexical habits of the curly-brace languages. -/
namespace OrderedBnf.CurlyBrace

def literals : List (String × Scanner) :=
  [("StringLiteral", Quotation.scanner '"'),
   ("CharacterLiteral", Quotation.scanner '\''),
   ("IntegerLiteral", Numeral.scanner Numeral.integer?),
   ("FloatingPointLiteral", Numeral.scanner Numeral.floating?)]

/-- Every word that the grammar spells out is reserved, and comments are skipped like blanks. -/
def languageWith (grammar : Grammar) (literals : List (String × Scanner)) : Language :=
  let words := grammar.keywords
  { grammar := grammar
    lexis :=
      { isKeyword := fun word => words.contains word
        skip := Comment.skip
        extend := Scanner.byName literals } }

def language (grammar : Grammar) : Language := languageWith grammar literals

end OrderedBnf.CurlyBrace
