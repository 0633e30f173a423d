import ExprLang.Execution
import ExprLang.Lowering
import ExprLang.Parser.Error

/-!
# Failures

What can go wrong with an item: it does not parse, it cannot be lowered, or its code cannot be executed. The
program reports each of these by one line and goes on.
-/

namespace ExprLang

/-- What went wrong with an item. -/
inductive Failure
  | parsing (e : ParseError)
  | lowering (e : LoweringError)
  | execution (e : ExecutionError)

namespace Failure

/-- The message of a failure, with that of a cause beneath it. -/
def chain : Failure → String
  | parsing e => e.message
  | lowering e => e.message
  | execution e => e.chain

/-- The line that reports a failure. -/
def report (f : Failure) : String := "Error: " ++ f.chain ++ "\n"

end Failure

end ExprLang
