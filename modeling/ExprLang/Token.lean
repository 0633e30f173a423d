import ExprLang.Decimal.Shortest

/-!
# Tokens

The words of the language: two keywords, identifiers, numbers, and every other character as a
symbol of its own. There is no token for the end of input; where it can stand in place of a token
the type is `Option Token` and the end is `none`.
-/

namespace ExprLang

/-- Characters that only separate tokens. -/
def isBlank (c : Char) : Bool :=
  c = ' ' || c = '\t' || c = '\n' || c = '\r' || c = '\x0b' || c = '\x0c'

/-- Characters that end a comment. -/
def isLineEnd (c : Char) : Bool := c = '\n' || c = '\r'

/-- Characters that make up a numeral. -/
def isNumeric (c : Char) : Bool := c.isDigit || c = '.'

/-- One word of the language. -/
inductive Token
  | definition
  | external
  | ident (name : String)
  | number (value : Binary64)
  | symbol (c : Char)
deriving DecidableEq

namespace Token

/-- A word is one of the two keywords or an identifier. -/
def ofWord (word : String) : Token :=
  if word = "def" then .definition
  else if word = "extern" then .external
  else .ident word

/-- A numeral stands for the number nearest to it. -/
def ofNumeral (cs : List Char) : Token := .number (Decimal.ofNumeral cs).nearest

/-- The name of a token in messages. -/
def text : Token → String
  | definition => "def"
  | external => "extern"
  | ident name => "identifier '" ++ name ++ "'"
  | number value => "number " ++ value.text
  | symbol c => "'" ++ c.toString ++ "'"

/-- The name in messages of a token or of the end of input. -/
def foundText : Option Token → String
  | none => "end of input"
  | some token => token.text

/-- Equality of tokens, numbers by value. -/
def numEq : Token → Token → Bool
  | number x, number y => x.numEq y
  | s, t => s = t

end Token

end ExprLang
