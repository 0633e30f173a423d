/-!
# Lowering errors

What can be wrong with an item that parses, when it is lowered to code. Lowering itself is not part of the
library; the errors are here for the lines that report them.
-/

namespace ExprLang

/-- A cause why an item cannot be lowered. -/
inductive LoweringError
  | unknownVariable (name : String)
  | invalidOperator (op : Char)
  | unknownFunction (name : String)
  | invalidCall (name : String) (expected found : Nat)
  | redefinition (name : String)
  | redeclaration (name : String) (expected found : Nat)
  | invalidFunction (name : String)
  | builder (reason : String)

namespace LoweringError

/-- The message of an error. What the builder of code refuses is told in its own words. -/
def message : LoweringError → String
  | unknownVariable name => "unknown variable name " ++ name
  | invalidOperator op => "invalid binary operator " ++ op.toString
  | unknownFunction name => "unknown function referenced " ++ name
  | invalidCall name expected found =>
      "incorrect number of arguments passed to " ++ name ++ ": expected " ++ expected.repr ++
        ", found " ++ found.repr
  | redefinition name => "function " ++ name ++ " cannot be redefined"
  | redeclaration name expected found =>
      "function " ++ name ++ " was declared with " ++ expected.repr ++ " parameters, found " ++
        found.repr
  | invalidFunction name => "failed to verify function " ++ name
  | builder reason => reason

end LoweringError

end ExprLang
