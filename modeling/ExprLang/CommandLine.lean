import ExprLang.ControlSequence

/-!
# Command line

The arguments of the program: at most one file, two flags that each may stand once, and requests for
help or for the version. Arguments are read from left to right, and the first one that asks for help or
the version, or that is wrong, decides. An empty file name is wrong too, but it is only looked at when
the next known flag, or the end of the arguments, shows that the file is complete.

The order of these decisions and the texts of help and of the errors are those of the argument parser that
the program is built with. They are written down here so that the program can be run; no result rests on
them.
-/

namespace ExprLang

/-- How a program is run. -/
structure Options where
  jit : Bool
  printIr : Bool
  interactive : Bool
deriving DecidableEq

namespace Options

/-- Execute, print the code of each item, and do not prompt. -/
def standard : Options := ⟨true, true, false⟩

end Options

namespace CommandLine

/-- The flags of the program. -/
inductive Flag
  | noJit
  | quietIr
  | help
  | version
deriving DecidableEq

namespace Flag

/-- All flags. -/
def all : List Flag := [noJit, quietIr, help, version]

/-- The name of a flag behind its two dashes. -/
def name : Flag → String
  | noJit => "no-jit"
  | quietIr => "quiet-ir"
  | help => "help"
  | version => "version"

/-- The letter of a flag behind one dash. -/
def letter? : Flag → Option Char
  | help => some 'h'
  | version => some 'V'
  | _ => none

/-- A flag as it is written. -/
def text (flag : Flag) : String := "--" ++ flag.name

/-- The flag of a name. -/
def ofName? (name : String) : Option Flag := all.find? (·.name == name)

/-- The flag of a letter. -/
def ofLetter? (c : Char) : Option Flag := all.find? (·.letter? == some c)

end Flag

/-- The shape of one argument. Of letters joined behind one dash only the first can matter, because
every flag that has a letter ends the reading. -/
inductive Argument
  | escape
  | long (name : String) (value : Option String)
  | short (letter : Char)
  | positional (text : String)

/-- The shape of an argument; an equals sign divides the name of a flag from a value. -/
def Argument.ofString (arg : String) : Argument :=
  match arg.toList with
  | ['-', '-'] => escape
  | '-' :: '-' :: cs =>
      let name := String.ofList (cs.takeWhile (· ≠ '='))
      match cs.dropWhile (· ≠ '=') with
      | [] => long name none
      | _ :: value => long name (some (String.ofList value))
  | '-' :: c :: _ => short c
  | _ => positional arg

/-- A cause why the arguments are refused. -/
inductive UsageError
  | unexpectedArgument (arg : String)
  | unexpectedValue (value : String) (flag : Flag)
  | repeated (flag : Flag)
  | emptyFile
deriving DecidableEq

namespace UsageError

/-- The message of an error. It quotes what is shown of an argument. -/
def message : UsageError → String
  | unexpectedArgument arg => "error: unexpected argument '" ++ visibleText arg ++ "' found"
  | unexpectedValue value flag =>
      "error: unexpected value '" ++ visibleText value ++ "' for '" ++ flag.text ++
        "' found; no more were expected"
  | repeated flag => "error: the argument '" ++ flag.text ++ "' cannot be used multiple times"
  | emptyFile => "error: a value is required for '[FILE]' but none was supplied"

end UsageError

/-- What the arguments ask for. -/
inductive Request
  | run (file : Option String) (options : Options)
  | help
  | version
deriving DecidableEq

/-- The arguments read so far. -/
structure Seen where
  file : Option String
  noJit : Bool
  quietIr : Bool

namespace Seen

/-- No arguments. -/
def nothing : Seen := ⟨none, false, false⟩

/-- The file is complete, so it has to be a name. -/
def checkFile (seen : Seen) : Except UsageError Unit :=
  if seen.file = some "" then .error .emptyFile else .ok ()

/-- Takes the file, of which there is at most one. -/
def addFile (seen : Seen) (text : String) : Except UsageError Seen :=
  match seen.file with
  | none => .ok { seen with file := some text }
  | some _ => .error (.unexpectedArgument text)

/-- What is asked for at the end of the arguments. Without a file the program is interactive. -/
def request (seen : Seen) : Request :=
  .run seen.file
    { jit := !seen.noJit, printIr := !seen.quietIr, interactive := seen.file.isNone }

end Seen

/-- Reads arguments behind an escape, which are all positional. -/
def readPositional (seen : Seen) : List String → Except UsageError Request
  | [] => do
      seen.checkFile
      return seen.request
  | arg :: args => do
      let seen ← seen.addFile arg
      readPositional seen args

/-- Reads arguments. -/
def read (seen : Seen) : List String → Except UsageError Request
  | [] => do
      seen.checkFile
      return seen.request
  | arg :: args =>
      match Argument.ofString arg with
      | .escape => readPositional seen args
      | .positional text => do
          let seen ← seen.addFile text
          read seen args
      | .short letter =>
          match Flag.ofLetter? letter with
          | some flag => take flag seen args
          | none => .error (.unexpectedArgument ("-" ++ letter.toString))
      | .long name value =>
          match Flag.ofName? name, value with
          | some flag, none => take flag seen args
          | some flag, some value => .error (.unexpectedValue value flag)
          | none, _ => .error (.unexpectedArgument ("--" ++ name))
where
  /-- Acts on a flag and reads on, unless the flag ends the reading. -/
  take (flag : Flag) (seen : Seen) (args : List String) : Except UsageError Request := do
    seen.checkFile
    match flag with
    | .help => return .help
    | .version => return .version
    | .noJit => if seen.noJit then .error (.repeated flag) else read { seen with noJit := true } args
    | .quietIr =>
        if seen.quietIr then .error (.repeated flag) else read { seen with quietIr := true } args

/-- What a list of arguments asks for. -/
def parse (args : List String) : Except UsageError Request := read .nothing args

/-- How the program is called. -/
def usage : String := "Usage: kaleido [OPTIONS] [FILE]"

/-- The text of help. -/
def helpText : String :=
  "a small expression language front end and llvm jit\n\n" ++ usage ++
  "\n\nArguments:\n" ++
  "  [FILE]  Source file to run. Reads stdin interactively when omitted\n" ++
  "\nOptions:\n" ++
  "      --no-jit    Only lower to IR, never execute top-level expressions\n" ++
  "      --quiet-ir  Don't print the IR of each item as it is read\n" ++
  "  -h, --help      Print help\n" ++
  "  -V, --version   Print version\n"

/-- The text of the version. -/
def versionText : String := "kaleido-jit 0.1.0\n"

end CommandLine

end ExprLang
