/-! The kinds of node in rule trees and parse trees. -/
namespace OrderedBnf

/-- The three keyword kinds appear in rule trees only. -/
inductive Kind where
  | token
  | identifier
  | sequence
  | choice
  | optional
  | repetition
  | tokenKeyword
  | identifierKeyword
  | newlineKeyword
  deriving DecidableEq, Repr

namespace Kind

def label : Kind → String
  | token => "token"
  | identifier => "identifier"
  | sequence => "sequence"
  | choice => "choice"
  | optional => "optional"
  | repetition => "repetition"
  | tokenKeyword => "token_keyword"
  | identifierKeyword => "identifier_keyword"
  | newlineKeyword => "newline_keyword"

def all : List Kind :=
  [token, identifier, sequence, choice, optional, repetition, tokenKeyword, identifierKeyword,
    newlineKeyword]

def ofLabel? (name : String) : Option Kind := all.find? (·.label = name)

end Kind
end OrderedBnf
