import ExprLang.Parser.Item

/-!
# Parser sessions

A session is a cursor with an operator table that can be edited between productions. Commands run one
after another, and each answers and leaves a session, also when its production failed.
-/

namespace ExprLang

/-- An operator table and a cursor. -/
structure Session (τ : Type) [TokenStream τ] where
  ops : OpTable
  cursor : Cursor τ

/-- What can be asked of a session. -/
inductive Command
  | advance
  | expr
  | prototype
  | definition
  | external
  | toplevel
  | program
  | setOperator (c : Char) (precedence : Int32)
  | removeOperator (c : Char)
  | table

/-- What a session answers. -/
inductive Answer
  | moved
  | expr (e : Expr)
  | prototype (p : Prototype)
  | function (f : Function)
  | items (xs : List Item)
  | error (e : ParseError)
  | entry (old : Option Int32)
  | table (entries : List (Char × Int32))

namespace Session

variable {τ : Type} [TokenStream τ]

/-- A session at the start of a stream, with the standard operators. -/
def start (t : τ) : Session τ := ⟨.standard, .start t⟩

/-- Answers with the outcome of a production and goes to the cursor where it stopped. -/
def settle {α : Type} (s : Session τ) (answer : α → Answer) (r : Outcome τ α) : Answer × Session τ :=
  match r with
  | (.ok a, c) => (answer a, { s with cursor := c })
  | (.error e, c) => (.error e, { s with cursor := c })

/-- Runs one command. -/
def run (s : Session τ) : Command → Answer × Session τ
  | .advance => (.moved, { s with cursor := s.cursor.advance })
  | .expr => s.settle .expr (s.cursor.expr s.ops)
  | .prototype => s.settle .prototype s.cursor.prototype
  | .definition => s.settle .function (s.cursor.definition s.ops)
  | .external => s.settle .prototype s.cursor.external
  | .toplevel => s.settle .function (s.cursor.toplevel s.ops)
  | .program => s.settle .items (s.cursor.program s.ops)
  | .setOperator c precedence =>
      (.entry (s.ops.get? c), { s with ops := s.ops.insert c precedence })
  | .removeOperator c => (.entry (s.ops.get? c), { s with ops := s.ops.erase c })
  | .table => (.table s.ops.toList, s)

/-- Runs commands in order; lists each answer with the session that it leaves. -/
def trace (s : Session τ) : List Command → List (Answer × Session τ)
  | [] => []
  | command :: commands =>
      let answer := s.run command
      answer :: answer.2.trace commands

end Session

end ExprLang
