import ExprLang.Token

/-!
# Parse errors

A parse fails where the next token is none of those that could follow. The error holds what was
expected there and what was found.
-/

namespace ExprLang

/-- What a production asks for at a place. -/
inductive Expected
  | expression
  | closeParen
  | argumentSeparator
  | functionName
  | prototypeOpen
  | prototypeClose
deriving DecidableEq

/-- What was expected, and the token or end of input that was found. -/
structure ParseError where
  expected : Expected
  found : Option Token
deriving DecidableEq

namespace Expected

/-- What was expected, in the words of a message. -/
def text : Expected → String
  | expression => "unknown token when expecting an expression"
  | closeParen => "expected ')'"
  | argumentSeparator => "expected ')' or ',' in argument list"
  | functionName => "expected function name in prototype"
  | prototypeOpen => "expected '(' in prototype"
  | prototypeClose => "expected ')' in prototype"

end Expected

namespace ParseError

/-- The message of an error. -/
def message (e : ParseError) : String := e.expected.text ++ ", found " ++ Token.foundText e.found

/-- Equality of errors, a number that was found by value. -/
def numEq (e f : ParseError) : Bool :=
  e.expected == f.expected &&
    match e.found, f.found with
    | some s, some t => s.numEq t
    | none, none => true
    | _, _ => false

end ParseError

end ExprLang
