import Std.Data.TreeMap
import ExprLang.Token

/-!
# Operator tables

A table gives characters a precedence, a signed 32-bit word. An ASCII character with an entry that is
not negative is a binary operator; all other entries are kept and have no effect.
-/

namespace ExprLang

/-- Precedences by character, in the order of code points. -/
structure OpTable where
  entries : Std.TreeMap Char Int32

namespace OpTable

/-- The table that holds no entries. -/
def empty : OpTable := ⟨∅⟩

/-- The entry of a character. -/
def get? (ops : OpTable) (c : Char) : Option Int32 := ops.entries.get? c

/-- Sets the entry of a character, in place of one that it may have. -/
def insert (ops : OpTable) (c : Char) (precedence : Int32) : OpTable :=
  ⟨ops.entries.insert c precedence⟩

/-- Removes the entry of a character. -/
def erase (ops : OpTable) (c : Char) : OpTable := ⟨ops.entries.erase c⟩

/-- All entries, in the order of code points. -/
def toList (ops : OpTable) : List (Char × Int32) := ops.entries.toList

/-- The table to begin with: comparison, then sum and difference, then product. -/
def standard : OpTable := empty |>.insert '<' 10 |>.insert '+' 20 |>.insert '-' 20 |>.insert '*' 40

/-- The operator at a token, with its precedence, if the token is one. -/
def operator? (ops : OpTable) : Option Token → Option (Char × Int32)
  | some (.symbol c) =>
      if c.toNat < 128 then ((ops.get? c).filter (0 ≤ ·)).map (c, ·) else none
  | _ => none

/-- The operators are the ASCII symbols with an entry that is not negative. -/
theorem operator?_eq_some_iff {ops : OpTable} {token : Option Token} {op : Char}
    {precedence : Int32} :
    ops.operator? token = some (op, precedence) ↔
      token = some (.symbol op) ∧ op.toNat < 128 ∧ ops.get? op = some precedence ∧
        0 ≤ precedence := by
  unfold operator?
  split
  next c =>
    by_cases hascii : c.toNat < 128
    · simp only [hascii, ↓reduceIte, Option.map_eq_some_iff, Option.filter_eq_some_iff,
        Prod.mk.injEq, Option.some.injEq, Token.symbol.injEq, decide_eq_true_eq]
      constructor
      · intro ⟨_, ⟨hget, hle⟩, hop, hprecedence⟩
        subst hop hprecedence
        exact ⟨rfl, hascii, hget, hle⟩
      · intro ⟨hop, _, hget, hle⟩
        subst hop
        exact ⟨precedence, ⟨hget, hle⟩, rfl, rfl⟩
    · simp only [hascii, ↓reduceIte, reduceCtorEq, Option.some.injEq, Token.symbol.injEq,
        false_iff]
      intro ⟨hop, hlt, _⟩
      exact hascii (hop ▸ hlt)
  next token hne =>
    simp only [reduceCtorEq, false_iff]
    intro ⟨htoken, _⟩
    exact hne op htoken

/-- Whether a token is an operator of higher precedence than the given one. -/
def bindsTighter (ops : OpTable) (precedence : Int32) (token : Option Token) : Bool :=
  match ops.operator? token with
  | some (_, other) => precedence < other
  | none => false

end OpTable

end ExprLang
