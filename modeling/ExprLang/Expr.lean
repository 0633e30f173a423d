import ExprLang.Decimal.Shortest

/-!
# Expressions

Expression trees and their text. The text puts every binary expression in parentheses, so it shows
the shape of the tree without any rule of precedence.
-/

namespace ExprLang

/-- An expression: a number, a name, an operator between two expressions, or a call. -/
inductive Expr
  | literal (value : Binary64)
  | var (name : String)
  | binary (op : Char) (lhs rhs : Expr)
  | call (callee : String) (args : List Expr)

namespace Expr

mutual

/-- The text of an expression. -/
def text : Expr → String
  | literal value => value.text
  | var name => name
  | binary op lhs rhs => "(" ++ lhs.text ++ " " ++ op.toString ++ " " ++ rhs.text ++ ")"
  | call callee args => callee ++ "(" ++ argsText args ++ ")"

/-- The texts of arguments, divided by commas. -/
def argsText : List Expr → String
  | [] => ""
  | [arg] => arg.text
  | arg :: next :: args => arg.text ++ ", " ++ argsText (next :: args)

end

mutual

/-- Equality of expressions, numbers by value. -/
def numEq : Expr → Expr → Bool
  | literal x, literal y => x.numEq y
  | var a, var b => a == b
  | binary op lhs rhs, binary op' lhs' rhs' => op == op' && lhs.numEq lhs' && rhs.numEq rhs'
  | call callee args, call callee' args' => callee == callee' && argsNumEq args args'
  | _, _ => false

/-- Equality of arguments, one by one. -/
def argsNumEq : List Expr → List Expr → Bool
  | [], [] => true
  | arg :: args, arg' :: args' => arg.numEq arg' && argsNumEq args args'
  | _, _ => false

end

end Expr

end ExprLang
