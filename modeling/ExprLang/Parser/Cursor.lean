import ExprLang.Token.Stream
import ExprLang.Parser.Error

/-!
# Cursors

A cursor stands on a token of a stream, or at its end, and has taken nothing after that token. A
production starts at a cursor and answers with a result and the cursor where it stopped, also when it
failed. `tokens` is what a cursor has in front of it; its length bounds every recursion on cursors.
-/

namespace ExprLang

/-- A token of a stream, or its end, and the stream behind it. -/
structure Cursor (τ : Type) [TokenStream τ] where
  current : Option Token
  rest : τ
  ended : current = none → Source.next rest = (none, rest)

/-- The answer of a production and the cursor where it stopped. -/
abbrev Outcome (τ α : Type) [TokenStream τ] : Type := Except ParseError α × Cursor τ

namespace Cursor

variable {τ : Type} [TokenStream τ]

/-- The cursor on the first token of a stream. -/
def start (t : τ) : Cursor τ :=
  let first := Source.next t
  ⟨first.1, first.2, fun h => TokenStream.stays t first.2 (Prod.ext h rfl)⟩

/-- The cursor on the next token. -/
def advance (c : Cursor τ) : Cursor τ := start c.rest

/-- A failure at the current token, which is not taken. -/
def fail {α : Type} (c : Cursor τ) (expected : Expected) : Outcome τ α :=
  (.error ⟨expected, c.current⟩, c)

/-- The tokens in front of a cursor, the current one first. -/
noncomputable def tokens (c : Cursor τ) : List Token :=
  match c.current with
  | none => []
  | some k => k :: Source.items c.rest

/-- The cursor on the first token of a stream has all its tokens in front of it. -/
theorem tokens_start (t : τ) : (start t).tokens = Source.items t := by
  match h : Source.next t with
  | (none, u) => simp only [tokens, start, h, Source.items_of_next_none h]
  | (some k, u) =>
      simp only [tokens, start, h, Source.items_of_next_some (TokenStream.ends t) h]

/-- A cursor at the end stays there. -/
theorem advance_of_current_none {c : Cursor τ} (h : c.current = none) : c.advance = c := by
  obtain ⟨current, rest, ended⟩ := c
  subst h
  simp only [advance, start, ended rfl]

/-- At the end there are no tokens. -/
theorem tokens_of_current_none {c : Cursor τ} (h : c.current = none) : c.tokens = [] := by
  simp only [tokens, h]

/-- Elsewhere the current token stands before those of the next cursor. -/
theorem tokens_of_current_some {c : Cursor τ} {k : Token} (h : c.current = some k) :
    c.tokens = k :: c.advance.tokens := by
  rw [advance, tokens_start]
  simp only [tokens, h]

/-- Advancing takes the current token and no other. -/
theorem tokens_advance (c : Cursor τ) : c.advance.tokens = c.tokens.tail := by
  cases h : c.current with
  | none => rw [advance_of_current_none h, tokens_of_current_none h, List.tail_nil]
  | some k => rw [tokens_of_current_some h, List.tail_cons]

/-- The number of tokens in front of a cursor. -/
noncomputable def left (c : Cursor τ) : Nat := c.tokens.length

/-- Advancing over a token leaves one less. -/
theorem left_of_current_some {c : Cursor τ} {k : Token} (h : c.current = some k) :
    c.left = c.advance.left + 1 := by
  rw [left, tokens_of_current_some h, List.length_cons, left]

/-- Advancing over a token leaves fewer. -/
theorem left_advance_lt {c : Cursor τ} {k : Token} (h : c.current = some k) :
    c.advance.left < c.left := by
  rw [left_of_current_some h]
  exact Nat.lt_succ_self _

/-- Advancing never leaves more. -/
theorem left_advance_le (c : Cursor τ) : c.advance.left ≤ c.left := by
  rw [left, tokens_advance, List.length_tail, left]
  exact Nat.sub_le _ _

end Cursor

namespace Outcome

variable {τ α β : Type} [TokenStream τ]

/-- Goes on with a production after success; a failure stays where it is. -/
def andThen (r : Outcome τ α) (f : α → Cursor τ → Outcome τ β) : Outcome τ β :=
  match r with
  | (.ok a, c) => f a c
  | (.error e, c) => (.error e, c)

/-- Going on succeeds exactly when both parts do. -/
theorem andThen_eq_ok_iff {r : Outcome τ α} {f : α → Cursor τ → Outcome τ β} {b : β}
    {d : Cursor τ} :
    r.andThen f = (.ok b, d) ↔ ∃ a c, r = (.ok a, c) ∧ f a c = (.ok b, d) := by
  obtain ⟨result, c⟩ := r
  cases result with
  | ok a =>
      constructor
      · intro h
        exact ⟨a, c, rfl, h⟩
      · intro ⟨b, e, hr, h⟩
        cases hr
        exact h
  | error e => simp [andThen]

end Outcome

end ExprLang
