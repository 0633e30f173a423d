import ExprLang.CommandLine
import ExprLang.Failure
import ExprLang.Parser.Item

/-!
# Main program

Reads the arguments, then a file or the standard input, and reports each item and each failure on the error
stream. Items are not lowered: what is shown of an item is its text in place of its code.

The standard input is read by lines, and a line only when it is asked for. The parser does not wait for
lines by itself. A step that comes to the end of the lines that are there is not reported; it is made again,
from where it began, with one line more. A step that does not come to their end does not depend on what
follows them.
-/

namespace ExprLang

/-- The lexer has met the end of the lines that are there, and no fault, so it would read on if there were
more. -/
def Lexer.isDry (l : Lexer LineReader) : Bool :=
  match l.slot with
  | .ended => l.source.faults == 0
  | _ => false

/-- The lexer with one more line behind those of its reader. -/
def Lexer.feed (l : Lexer LineReader) (line : List UInt8) : Lexer LineReader :=
  ⟨{ l.source with blocks := l.source.blocks ++ [line] }, l.slot, .inr (LineReader.ends _)⟩

/-- Reads bytes through the next line feed, or to the end of the stream. -/
partial def readLine (stream : IO.FS.Stream) : IO (List UInt8) := do
  match (← stream.read 1).toList with
  | [] => return []
  | byte :: _ => if byte = 10 then return [byte] else return byte :: (← readLine stream)

/-- Acts on a lexer, and again with one more line as long as the lines that are there do not suffice. At the
end of the stream the lexer stays dry and asks for nothing more. A fault is reported when it is met. -/
partial def supply {α : Type} (stream : IO.FS.Stream)
    (act : Lexer LineReader → α × Cursor (Lexer LineReader)) (l : Lexer LineReader) :
    IO (α × Cursor (Lexer LineReader)) := do
  let outcome := act l
  if outcome.2.rest.isDry && !l.isDry then
    let line ← readLine stream
    unless line.isEmpty do return ← supply stream act (l.feed line)
  if l.source.faults = 0 then IO.eprint outcome.2.rest.source.report
  return outcome

/-- The line that announces an item. -/
def heading : Item → String
  | .external _ => "Read extern:"
  | .function f =>
      if f.prototype.isAnonymous then "Read top-level expression:" else "Read function definition:"

/-- The prompt of an interactive run. -/
def prompt (options : Options) : IO Unit :=
  if options.interactive then IO.eprint "ready> " else pure ()

/-- Reports what one step of the parser has read. -/
def reportStep (options : Options) : Option (Except ParseError Item) → IO Unit
  | none => pure ()
  | some (.error e) => IO.eprint (Failure.parsing e).report
  | some (.ok x) =>
      if options.printIr then IO.eprintln (heading x ++ "\n" ++ x.text) else pure ()

/-- Reports what all steps have read, with a prompt before each of them and at the end. -/
def reportSteps (options : Options) (steps : List (Option (Except ParseError Item))) : IO Unit := do
  prompt options
  for step in steps do
    reportStep options step
    prompt options

/-- Takes steps to the end of a stream that is read by lines, reports each and prompts for the next one. -/
partial def reportLines (options : Options) (stream : IO.FS.Stream) (c : Cursor (Lexer LineReader)) :
    IO Unit := do
  match c.current with
  | none => pure ()
  | some k =>
      let (result, next) ← supply stream (fun l => (Cursor.mk (some k) l nofun).step .standard) c.rest
      reportStep options result
      prompt options
      reportLines options stream next

/-- Runs a request. -/
def runRequest : CommandLine.Request → IO Unit
  | .help => IO.print CommandLine.helpText
  | .version => IO.print CommandLine.versionText
  | .run (some path) options => do
      let text ← IO.FS.readFile path
      reportSteps options ((Cursor.start (Lexer.ofText (.ofString text))).recover .standard).1
  | .run none options => do
      let stream ← IO.getStdin
      prompt options
      let (_, first) ← supply stream (fun l => ((), .start l)) (Lexer.ofLines (.ofBlocks []))
      reportLines options stream first

end ExprLang

/-- The program: status 0 after a request and 2 after arguments that are refused. -/
def main (args : List String) : IO UInt32 := do
  match ExprLang.CommandLine.parse args with
  | .ok request =>
      ExprLang.runRequest request
      return 0
  | .error e =>
      IO.eprintln e.message
      IO.eprintln ("\n" ++ ExprLang.CommandLine.usage ++ "\n\nFor more information, try '--help'.")
      return 2
