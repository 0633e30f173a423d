/-!
# Execution errors

What can fail when lowered code is handed over to be executed. One of the errors has a cause beneath it;
the chain of an error names both. Execution itself is not part of the library, and the text of the cause is
that of the engine which the program is built with; no result rests on it.
-/

namespace ExprLang

/-- A cause why code cannot be executed. -/
inductive ExecutionError
  | target (reason : String)
  | engine (reason : String)
  | compile (name : String)
  | unknownSymbol (name : String)
  | notNullary (name : String) (params : Nat)

namespace ExecutionError

/-- The message of an error. -/
def message : ExecutionError → String
  | target reason => "failed to initialize native target: " ++ reason
  | engine reason => "failed to create execution engine: " ++ reason
  | compile name => "failed to compile " ++ name
  | unknownSymbol name => "unknown symbol " ++ name
  | notNullary name params =>
      name ++ " takes " ++ params.repr ++ " arguments, cannot call it without any"

/-- The message of the cause beneath an error: a function fails to compile when the engine has no code
for it. -/
def cause? : ExecutionError → Option String
  | compile _ => some "FunctionLookupError(Function not found in ExecutionEngine)"
  | _ => none

/-- The message of an error and that of its cause. -/
def chain (e : ExecutionError) : String :=
  match e.cause? with
  | some cause => e.message ++ ": " ++ cause
  | none => e.message

end ExecutionError

end ExprLang
