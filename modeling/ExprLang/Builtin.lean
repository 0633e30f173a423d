import ExprLang.Decimal.Shortest

/-!
# Builtin functions

The functions that a program can call without defining them. Each takes a number, writes bytes to the
error stream and returns zero.
-/

namespace ExprLang

/-- The builtin functions. -/
inductive Builtin
  | putByte
  | printLine
deriving DecidableEq

namespace Builtin

/-- All builtin functions, in the order in which they are offered. -/
def all : List Builtin := [putByte, printLine]

/-- The name under which a program calls a builtin. -/
def name : Builtin → String
  | putByte => "putchard"
  | printLine => "printd"

/-- The builtin of a name. -/
def ofName? (name : String) : Option Builtin := all.find? (·.name == name)

/-- What a builtin writes: one byte, or the text of the number and a line feed. -/
def output : Builtin → Binary64 → List UInt8
  | putByte, x => [x.toByte]
  | printLine, x => (x.text ++ "\n").toUTF8.toList

/-- What a builtin returns, which is zero for every number. -/
def value : Builtin → Binary64 → Binary64
  | _, _ => .zero

end Builtin

end ExprLang
