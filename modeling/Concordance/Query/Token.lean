import Concordance.Text.Alphanumeric
/-!
The tokens of the query language.
-/
namespace Concordance.Query

/-- A token of a query. -/
inductive Token where
  /-- A run of word characters that is no keyword. -/
  | word (text : String)
  /-- The text between two quotes. -/
  | phrase (text : String)
  /-- `/k`: the words on both sides stand at most `k` places apart. -/
  | within (distance : UInt32)
  | and
  | or
  | not
  | leftParen
  | rightParen
  deriving DecidableEq, Repr

/-- Query words are made of alphanumeric characters and the apostrophe. -/
def isQueryChar (c : Char) : Bool := isAlphanumeric c || c == '\''

/-- Whether a token can begin with the character. All other characters separate tokens. -/
def startsToken (c : Char) : Bool :=
  c == '(' || c == ')' || c == '"' || c == '/' || isQueryChar c

/-- The token that a run of query characters spells. Keywords are in capitals, so that the same
words in small letters can be searched for. -/
def Token.ofRun (text : String) : Token :=
  if text = "AND" then .and
  else if text = "OR" then .or
  else if text = "NOT" then .not
  else .word text

end Concordance.Query
