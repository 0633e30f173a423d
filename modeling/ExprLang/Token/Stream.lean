import ExprLang.Source
import ExprLang.Token

/-!
# Token streams

A token stream is a source of tokens that ends, whatever its state, and that stays at its end.
`items` is the list of what is left of a source; on a token stream it is also what `collect`
computes.
-/

namespace ExprLang

namespace Source

variable {σ α : Type} [Source σ α]

open Classical in
/-- What a source answers before its end. -/
noncomputable def items (s : σ) : List α := if h : Ends s then h.choose else []

/-- The items of a source are what it yields. -/
theorem items_eq {s : σ} {as : List α} (h : Yields s as) : items s = as := by
  have hends : Ends s := ⟨as, h⟩
  rw [items, dif_pos hends]
  exact hends.choose_spec.unique h

/-- A source that answers an end has no items left. -/
theorem items_of_next_none {s t : σ} (h : next s = (none, t)) : items s = [] :=
  items_eq (.done h)

/-- A source that answers an item has that item and those of the state after it. -/
theorem items_of_next_some {s t : σ} {a : α} (hends : Ends s) (h : next s = (some a, t)) :
    items s = a :: items t := by
  obtain ⟨as, has⟩ := hends.of_next h
  rw [items_eq has, items_eq (.more h has)]

end Source

/-- Sources of tokens that always end and do not resume. -/
class TokenStream (τ : Type) extends Source τ Token where
  ends : ∀ t : τ, Source.Ends t
  stays : ∀ t u : τ, next t = (none, u) → next u = (none, u)

namespace TokenStream

variable {τ : Type} [TokenStream τ]

/-- The number of tokens that are left. -/
noncomputable def size (t : τ) : Nat := (Source.items t).length

/-- A token that is taken is no longer there. -/
theorem size_of_next_some {t u : τ} {k : Token} (h : Source.next t = (some k, u)) :
    size t = size u + 1 := by
  rw [size, Source.items_of_next_some (ends t) h, List.length_cons, size]

/-- The next answer of a stream, with fewer tokens left behind every token. -/
def nextWithin (t : τ) : { r : Option Token × τ // ∀ k, r.1 = some k → size r.2 < size t } :=
  ⟨Source.next t, fun _ hk =>
    Nat.lt_of_succ_le (Nat.le_of_eq (size_of_next_some (Prod.ext hk rfl)).symm)⟩

/-- All tokens of a stream. -/
def collect (t : τ) : List Token :=
  match nextWithin t with
  | ⟨(none, _), _⟩ => []
  | ⟨(some k, u), h⟩ =>
      have : size u < size t := h k rfl
      k :: collect u
termination_by size t

/-- Collecting a stream gives the items that it has. -/
theorem collect_eq_items (t : τ) : collect t = Source.items t := by
  fun_induction collect t with
  | case1 t u hu h => exact (Source.items_of_next_none (congrArg Subtype.val h)).symm
  | case2 t k u hu h hlt ih =>
      rw [Source.items_of_next_some (ends t) (congrArg Subtype.val h), ih]

end TokenStream

/-- A list of tokens gives them in order. -/
instance : Source (List Token) Token where
  next
    | [] => (none, [])
    | k :: ks => (some k, ks)

/-- A list yields what it holds. -/
theorem yields_list : (ks : List Token) → Source.Yields ks ks
  | [] => .done rfl
  | _ :: ks => .more rfl (yields_list ks)

instance : TokenStream (List Token) where
  ends ks := ⟨ks, yields_list ks⟩
  stays
    | [], _, rfl => rfl

end ExprLang
