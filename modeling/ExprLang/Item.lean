import ExprLang.Expr

/-!
# Items

A program is a list of items: declarations of external functions, and functions. A bare expression
is a function too, under a reserved name that no identifier can spell, and is written without it.
-/

namespace ExprLang

/-- The name and the parameters of a function. -/
structure Prototype where
  name : String
  params : List String
deriving DecidableEq

namespace Prototype

/-- The reserved name of the function that holds a bare expression. -/
def anonymousName : String := "__anon_expr"

/-- The prototype of a bare expression. -/
def anonymous : Prototype := ⟨anonymousName, []⟩

/-- Whether a prototype has the reserved name. -/
def isAnonymous (p : Prototype) : Bool := p.name == anonymousName

/-- The text of a prototype; spaces divide the parameters. -/
def text (p : Prototype) : String := p.name ++ "(" ++ " ".intercalate p.params ++ ")"

end Prototype

/-- A prototype with a body. -/
structure Function where
  prototype : Prototype
  body : Expr

namespace Function

/-- The text of a function, which for a bare expression is its body. -/
def text (f : Function) : String :=
  if f.prototype.isAnonymous then f.body.text
  else "def " ++ f.prototype.text ++ " " ++ f.body.text

/-- Equality of functions, numbers by value. -/
def numEq (f g : Function) : Bool := f.prototype == g.prototype && f.body.numEq g.body

end Function

/-- One item of a program. -/
inductive Item
  | external (prototype : Prototype)
  | function (function : Function)

namespace Item

/-- The prototype of an item. -/
def prototype : Item → Prototype
  | external p => p
  | function f => f.prototype

/-- The text of an item. -/
def text : Item → String
  | external p => "extern " ++ p.text
  | function f => f.text

/-- Equality of items, numbers by value. -/
def numEq : Item → Item → Bool
  | external p, external q => p == q
  | function f, function g => f.numEq g
  | _, _ => false

/-- The text of a program: a semicolon and a line feed divide the items. -/
def listText (items : List Item) : String := ";\n".intercalate (items.map text)

/-- Equality of programs, item by item. -/
def listNumEq : List Item → List Item → Bool
  | [], [] => true
  | x :: xs, y :: ys => x.numEq y && listNumEq xs ys
  | _, _ => false

end Item

end ExprLang
