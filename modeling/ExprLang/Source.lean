/-!
# Sources

A source answers each request with an item or with an end, and goes on to a next state either way.
An end is only an answer: what a source does when it is asked again is its own affair, and some
sources resume. `Yields` says what a source answers before its first end.
-/

namespace ExprLang

/-- States that answer requests for items of one type. -/
class Source (σ : Type) (α : outParam Type) where
  next : σ → Option α × σ

namespace Source

variable {σ α : Type} [Source σ α]

/-- The source answers the listed items, in this order, and then an end. -/
inductive Yields : σ → List α → Prop
  | done {s t : σ} (h : next s = (none, t)) : Yields s []
  | more {s t : σ} {a : α} {as : List α} (h : next s = (some a, t)) (rest : Yields t as) :
      Yields s (a :: as)

/-- The source comes to an end after finitely many items. -/
def Ends (s : σ) : Prop := ∃ as, Yields s as

/-- Before its first end a source has one list of items. -/
theorem Yields.unique {s : σ} {as bs : List α} (ha : Yields s as) (hb : Yields s bs) :
    as = bs := by
  induction ha generalizing bs with
  | done h =>
      cases hb with
      | done _ => rfl
      | more h' _ => simp [h] at h'
  | more h _ ih =>
      cases hb with
      | done h' => simp [h] at h'
      | more h' rest =>
          rw [h, Prod.mk.injEq, Option.some.injEq] at h'
          obtain ⟨rfl, rfl⟩ := h'
          rw [ih rest]

/-- A source that answers an item has an end only if it goes on to one. -/
theorem Ends.of_next {s t : σ} {a : α} (h : next s = (some a, t)) : Ends s → Ends t
  | ⟨_, .done h'⟩ => by simp [h] at h'
  | ⟨_, .more h' rest⟩ => by
      rw [h, Prod.mk.injEq] at h'
      exact h'.2 ▸ ⟨_, rest⟩

/-- The next answer of a source that ends, with an end behind every item. -/
def nextOfEnds (s : σ) (h : Ends s) : { r : Option α × σ // ∀ a, r.1 = some a → Ends r.2 } :=
  ⟨next s, fun _ ha => h.of_next (Prod.ext ha rfl)⟩

/-- The first `n` answers, each with the state that it leaves. -/
def trace : Nat → σ → List (Option α × σ)
  | 0, _ => []
  | n + 1, s =>
      let answer := next s
      answer :: trace n answer.2

end Source

/-- A text in memory and how many of its characters have been taken. -/
structure Text where
  rest : List Char
  pulled : Nat

namespace Text

/-- A text of which nothing has been taken. -/
def ofString (s : String) : Text := ⟨s.toList, 0⟩

/-- Takes the next character. -/
def next : Text → Option Char × Text
  | ⟨[], n⟩ => (none, ⟨[], n⟩)
  | ⟨c :: cs, n⟩ => (some c, ⟨cs, n + 1⟩)

instance : Source Text Char := ⟨next⟩

/-- A text yields the characters that it has left. -/
theorem yields : (cs : List Char) → (n : Nat) → Source.Yields (Text.mk cs n) cs
  | [], _ => .done rfl
  | _ :: cs, n => .more rfl (yields cs (n + 1))

/-- Every text ends. -/
theorem ends (t : Text) : Source.Ends t := ⟨t.rest, yields t.rest t.pulled⟩

end Text

end ExprLang
