/-!
Tokens: the lexemes with one fixed spelling each, which are punctuation marks and keywords.
-/

namespace RequestDoc

/-- A punctuation mark or a keyword. -/
inductive Token where
  | openParen
  | closeParen
  | openBrace
  | closeBrace
  | openBracket
  | closeBracket
  | colon
  | comma
  | dollar
  | equals
  | bang
  | trueWord
  | falseWord
  | nullWord
  | query
  | mutation
  deriving DecidableEq

namespace Token

/-- The spelling of a token. -/
def text : Token → String
  | openParen => "("
  | closeParen => ")"
  | openBrace => "\x7b"
  | closeBrace => "\x7d"
  | openBracket => "["
  | closeBracket => "]"
  | colon => ":"
  | comma => ","
  | dollar => "$"
  | equals => "="
  | bang => "!"
  | trueWord => "true"
  | falseWord => "false"
  | nullWord => "null"
  | query => "query"
  | mutation => "mutation"

/-- How an error message calls a token. -/
def label (t : Token) : String :=
  "'" ++ t.text ++ "'"

/-- The token is spelled like a name. -/
def isKeyword : Token → Bool
  | trueWord | falseWord | nullWord | query | mutation => true
  | _ => false

end Token

end RequestDoc
