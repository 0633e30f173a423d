import ExprLang.Proofs.Locality
import ExprLang.Proofs.WellFormed

/-!
# Equality by value

Trees are compared with their numbers by value: a word that is not a number differs from every word and so
from itself, and the two zeros agree. `canonical` puts the zero with sign bit clear in the place of either
zero. Two trees are equal by value exactly when neither holds a word that is not a number and their
canonical forms are one tree. That is shown once by going through two trees at a time; that the comparison
is symmetric and transitive, and which trees equal themselves, is then read off it.

A numeral never stands for a negative zero or for a word that is not a number, so what a parse answers is
its own canonical form, and equality by value of two answers is identity, bit for bit.
-/

namespace ExprLang

/-- The comparison is symmetric and transitive, and what equals itself is what can be compared. -/
structure PartialEquality {α : Type} (eq : α → α → Bool) (comparable : α → Prop) : Prop where
  symm : ∀ x y, eq x y = true → eq y x = true
  trans : ∀ x y z, eq x y = true → eq y z = true → eq x z = true
  self_iff : ∀ x, eq x x = true ↔ comparable x

/-- This holds if to be equal is to have one form. -/
theorem partialEquality_of_form {α β : Type} {eq : α → α → Bool} {comparable : α → Prop} {form : α → β}
    (h : ∀ x y, eq x y = true ↔ comparable x ∧ comparable y ∧ form x = form y) :
    PartialEquality eq comparable := by
  constructor
  · intro x y hxy
    obtain ⟨hx, hy, hform⟩ := (h x y).mp hxy
    exact (h y x).mpr ⟨hy, hx, hform.symm⟩
  · intro x y z hxy hyz
    obtain ⟨hx, _, hform⟩ := (h x y).mp hxy
    obtain ⟨_, hz, hform'⟩ := (h y z).mp hyz
    exact (h x z).mpr ⟨hx, hz, hform.trans hform'⟩
  · intro x
    simp [h]

namespace Binary64

/-- The number, with the zero whose sign bit is clear for either zero. -/
def canonical (x : Binary64) : Binary64 := if x.magnitude = 0 then zero else x

/-- Numbers are equal by value if they have one canonical form. -/
theorem numEq_iff (x y : Binary64) :
    x.numEq y = true ↔ x.isNaN = false ∧ y.isNaN = false ∧ x.canonical = y.canonical := by
  have hzero : zero.magnitude = 0 := rfl
  have hform : (x = y ∨ x.magnitude = 0 ∧ y.magnitude = 0) ↔ x.canonical = y.canonical := by
    unfold canonical
    by_cases hx : x.magnitude = 0
    · by_cases hy : y.magnitude = 0
      · simp [hx, hy]
      · have hne : ¬x = y := fun h => hy (h ▸ hx)
        have hne' : ¬zero = y := fun h => hy (h ▸ hzero)
        simp [hx, hy, hne, hne']
    · by_cases hy : y.magnitude = 0
      · have hne : ¬x = y := fun h => hx (h ▸ hy)
        have hne' : ¬x = zero := fun h => hx (h ▸ hzero)
        simp [hx, hy, hne, hne']
      · simp [hx, hy]
  simp [numEq, hform, and_assoc]

-- The two zeros are equal and are not the same, and one word that is not a number differs from itself.
example : (⟨0x8000000000000000⟩ : Binary64).numEq zero = true ∧ (⟨0x8000000000000000⟩ : Binary64) ≠ zero ∧
    (⟨0x7FF8000000000000⟩ : Binary64).numEq ⟨0x7FF8000000000000⟩ = false := by decide

/-- A number equals itself by value unless it is not a number. -/
theorem numEq_self_iff (x : Binary64) : x.numEq x = true ↔ x.isNaN = false := by
  simp [numEq_iff]

/-- What a numeral can stand for is its own canonical form. -/
theorem IsNumeral.canonical_eq {x : Binary64} (h : x.IsNumeral) : x.canonical = x := by
  unfold canonical
  split
  next hzero => rw [← ofMagnitude_magnitude h.1, hzero, zero]
  next => rfl

end Binary64

namespace Expr

mutual

/-- The expression with its numbers in canonical form. -/
def canonical : Expr → Expr
  | literal value => literal value.canonical
  | var name => var name
  | binary op lhs rhs => binary op lhs.canonical rhs.canonical
  | call callee args => call callee (argsCanonical args)

/-- Arguments with their numbers in canonical form. -/
def argsCanonical : List Expr → List Expr
  | [] => []
  | arg :: args => arg.canonical :: argsCanonical args

end

/-- No number of the expression is a word that is not a number. -/
abbrev Comparable (e : Expr) : Prop := e.All (fun _ => True) (fun _ => True) (·.isNaN = false)

/-- The same of arguments. -/
abbrev ArgsComparable (es : List Expr) : Prop :=
  argsAll (fun _ => True) (fun _ => True) (·.isNaN = false) es

mutual

/-- Expressions are equal by value if they can be compared and have one canonical form. -/
theorem numEq_iff : (e e' : Expr) →
    (e.numEq e' = true ↔ e.Comparable ∧ e'.Comparable ∧ e.canonical = e'.canonical)
  | literal x, e' => by
      cases e' with
      | literal y => simp [numEq, All, canonical, Binary64.numEq_iff]
      | _ => simp [numEq, canonical]
  | var a, e' => by
      cases e' with
      | var b => simp [numEq, All, canonical]
      | _ => simp [numEq, canonical]
  | binary op lhs rhs, e' => by
      cases e' with
      | binary op' lhs' rhs' =>
          simp only [numEq, Bool.and_eq_true, beq_iff_eq, numEq_iff lhs lhs', numEq_iff rhs rhs', All,
            canonical, binary.injEq, true_and]
          constructor
          · rintro ⟨⟨hop, hl, hl', hlhs⟩, hr, hr', hrhs⟩
            exact ⟨⟨hl, hr⟩, ⟨hl', hr'⟩, hop, hlhs, hrhs⟩
          · rintro ⟨⟨hl, hr⟩, ⟨hl', hr'⟩, hop, hlhs, hrhs⟩
            exact ⟨⟨hop, hl, hl', hlhs⟩, hr, hr', hrhs⟩
      | _ => simp [numEq, canonical]
  | call callee args, e' => by
      cases e' with
      | call callee' args' =>
          simp only [numEq, Bool.and_eq_true, beq_iff_eq, argsNumEq_iff args args', All, canonical,
            call.injEq, true_and]
          constructor
          · rintro ⟨hcallee, h, h', hargs⟩
            exact ⟨h, h', hcallee, hargs⟩
          · rintro ⟨h, h', hcallee, hargs⟩
            exact ⟨hcallee, h, h', hargs⟩
      | _ => simp [numEq, canonical]

/-- The same of arguments. -/
theorem argsNumEq_iff : (es es' : List Expr) →
    (argsNumEq es es' = true ↔ ArgsComparable es ∧ ArgsComparable es' ∧ argsCanonical es = argsCanonical es')
  | [], es' => by
      cases es' with
      | nil => simp [argsNumEq, argsAll]
      | cons _ _ => simp [argsNumEq, argsCanonical]
  | arg :: args, es' => by
      cases es' with
      | nil => simp [argsNumEq, argsCanonical]
      | cons arg' args' =>
          simp only [argsNumEq, Bool.and_eq_true, numEq_iff arg arg', argsNumEq_iff args args', argsAll,
            argsCanonical, List.cons.injEq]
          constructor
          · rintro ⟨⟨h, h', harg⟩, hs, hs', hargs⟩
            exact ⟨⟨h, hs⟩, ⟨h', hs'⟩, harg, hargs⟩
          · rintro ⟨⟨h, hs⟩, ⟨h', hs'⟩, harg, hargs⟩
            exact ⟨⟨h, h', harg⟩, hs, hs', hargs⟩

end

mutual

/-- An expression whose numbers a numeral can stand for is its own canonical form. -/
theorem canonical_eq {name : String → Prop} {op : Char → Prop} :
    (e : Expr) → e.All name op Binary64.IsNumeral → e.canonical = e
  | literal _, h => by rw [canonical, h.canonical_eq]
  | var _, _ => rfl
  | binary _ lhs rhs, ⟨_, hlhs, hrhs⟩ => by rw [canonical, canonical_eq lhs hlhs, canonical_eq rhs hrhs]
  | call _ args, ⟨_, hargs⟩ => by rw [canonical, argsCanonical_eq args hargs]

/-- The same of arguments. -/
theorem argsCanonical_eq {name : String → Prop} {op : Char → Prop} :
    (es : List Expr) → argsAll name op Binary64.IsNumeral es → argsCanonical es = es
  | [], _ => rfl
  | arg :: args, ⟨harg, hargs⟩ => by rw [argsCanonical, canonical_eq arg harg, argsCanonical_eq args hargs]

end

end Expr

namespace Function

/-- The function with the numbers of its body in canonical form. -/
def canonical (f : Function) : Function := ⟨f.prototype, f.body.canonical⟩

/-- Functions are equal by value if their bodies can be compared and they have one canonical form. -/
theorem numEq_iff (f g : Function) :
    f.numEq g = true ↔ f.body.Comparable ∧ g.body.Comparable ∧ f.canonical = g.canonical := by
  simp only [numEq, Bool.and_eq_true, beq_iff_eq, Expr.numEq_iff, canonical, mk.injEq]
  constructor
  · rintro ⟨hprototype, hf, hg, hbody⟩
    exact ⟨hf, hg, hprototype, hbody⟩
  · rintro ⟨hf, hg, hprototype, hbody⟩
    exact ⟨hprototype, hf, hg, hbody⟩

end Function

namespace Item

/-- The item with its numbers in canonical form. -/
def canonical : Item → Item
  | external p => external p
  | function f => function f.canonical

/-- A function holds the numbers of its body. -/
theorem numbers_function {number : Binary64 → Prop} (f : Function) :
    (function f).Numbers number ↔ f.body.All (fun _ => True) (fun _ => True) number := by
  simp [Numbers, All, Prototype.All]

/-- A declaration holds no numbers. -/
theorem numbers_external {number : Binary64 → Prop} (p : Prototype) : (external p).Numbers number := by
  simp [Numbers, All, Prototype.All]

/-- Items are equal by value if they can be compared and have one canonical form. -/
theorem numEq_iff (x y : Item) :
    x.numEq y = true ↔
      x.Numbers (·.isNaN = false) ∧ y.Numbers (·.isNaN = false) ∧ x.canonical = y.canonical := by
  cases x with
  | external p =>
      cases y with
      | external q => simp [numEq, numbers_external, canonical]
      | function g => simp [numEq, canonical]
  | function f =>
      cases y with
      | external q => simp [numEq, canonical]
      | function g => simp [numEq, numbers_function, Function.numEq_iff, canonical]

/-- Programs are equal by value if their items can be compared and have the same canonical forms. -/
theorem listNumEq_iff (xs ys : List Item) :
    listNumEq xs ys = true ↔
      (∀ x ∈ xs, x.Numbers (·.isNaN = false)) ∧ (∀ y ∈ ys, y.Numbers (·.isNaN = false)) ∧
        xs.map canonical = ys.map canonical := by
  induction xs generalizing ys with
  | nil => cases ys <;> simp [listNumEq]
  | cons x xs ih =>
      cases ys with
      | nil => simp [listNumEq]
      | cons y ys =>
          simp only [listNumEq, Bool.and_eq_true, numEq_iff, ih, List.forall_mem_cons, List.map_cons,
            List.cons.injEq]
          constructor
          · rintro ⟨⟨hx, hy, hform⟩, hxs, hys, hforms⟩
            exact ⟨⟨hx, hxs⟩, ⟨hy, hys⟩, hform, hforms⟩
          · rintro ⟨⟨hx, hxs⟩, ⟨hy, hys⟩, hform, hforms⟩
            exact ⟨⟨hx, hy, hform⟩, hxs, hys, hforms⟩

/-- A program equals itself by value if all its words are numbers, and only then. -/
theorem listNumEq_self_iff (xs : List Item) :
    listNumEq xs xs = true ↔ ∀ x ∈ xs, x.Numbers (·.isNaN = false) := by
  simp [listNumEq_iff]

/-- An item whose numbers a numeral can stand for is its own canonical form. -/
theorem canonical_eq {name : String → Prop} {op : Char → Prop} {x : Item}
    (h : x.All name op Binary64.IsNumeral) : x.canonical = x := by
  cases x with
  | external p => rfl
  | function f => rw [canonical, Function.canonical, Expr.canonical_eq f.body h.2]

/-- Programs whose numbers numerals can stand for are equal by value only if they are the same. -/
theorem listNumEq_iff_eq {name : String → Prop} {op : Char → Prop} {xs ys : List Item}
    (hxs : ∀ x ∈ xs, x.All name op Binary64.IsNumeral) (hys : ∀ y ∈ ys, y.All name op Binary64.IsNumeral) :
    listNumEq xs ys = true ↔ xs = ys := by
  have hcomparable {zs : List Item} (hzs : ∀ z ∈ zs, z.All name op Binary64.IsNumeral) :
      ∀ z ∈ zs, z.Numbers (·.isNaN = false) :=
    fun z hz => (hzs z hz).numbers fun _ hv => hv.isNaN_eq_false
  have hform {zs : List Item} (hzs : ∀ z ∈ zs, z.All name op Binary64.IsNumeral) : zs.map canonical = zs :=
    (List.map_congr_left fun z hz => canonical_eq (hzs z hz)).trans (List.map_id zs)
  rw [listNumEq_iff, hform hxs, hform hys]
  exact ⟨fun h => h.2.2, fun h => ⟨hcomparable hxs, hcomparable hys, h⟩⟩

end Item

/-- Tokens whose numbers numerals can stand for are equal by value only if they are the same. -/
theorem Token.numEq_iff_eq {s t : Token} (hs : ∀ v, s = .number v → v.IsNumeral)
    (ht : ∀ v, t = .number v → v.IsNumeral) : s.numEq t = true ↔ s = t := by
  by_cases hnumbers : (∃ x, s = .number x) ∧ ∃ y, t = .number y
  · obtain ⟨⟨x, rfl⟩, y, rfl⟩ := hnumbers
    have hx := hs x rfl
    have hy := ht y rfl
    simp [numEq, Binary64.numEq_iff, hx.isNaN_eq_false, hy.isNaN_eq_false, hx.canonical_eq, hy.canonical_eq]
  · unfold numEq
    split
    next x y => exact absurd ⟨⟨x, rfl⟩, y, rfl⟩ hnumbers
    next => exact decide_eq_true_iff

/-- Errors whose tokens come from a text are equal by value only if they are the same. -/
theorem ParseError.numEq_iff_eq {e f : ParseError} (he : ∀ v, e.found = some (.number v) → v.IsNumeral)
    (hf : ∀ v, f.found = some (.number v) → v.IsNumeral) : e.numEq f = true ↔ e = f := by
  obtain ⟨expected, found⟩ := e
  obtain ⟨expected', found'⟩ := f
  cases found with
  | none => cases found' <;> simp [numEq]
  | some s =>
      cases found' with
      | none => simp [numEq]
      | some t =>
          have htoken := Token.numEq_iff_eq (s := s) (t := t) (fun v hv => he v (congrArg some hv))
            fun v hv => hf v (congrArg some hv)
          simp [numEq, htoken]

/-- A number that a parse fails at is one that a numeral can stand for. -/
theorem isNumeral_of_parse_error {s : String} {e : ParseError} (h : parse s = .error e) (v : Binary64)
    (hv : e.found = some (.number v)) : v.IsNumeral := by
  let c := Cursor.start (Lexer.ofText (.ofString s))
  have hsettled : c.Settled (c.program .standard) fun c' : Cursor (Lexer Text) => c'.program .standard :=
    Cursor.settled_program .standard c
  have hspelled := (Cursor.spelled_start (Lexer.ofText (.ofString s))).settled hsettled
  obtain ⟨_, _, herror, _⟩ := hsettled
  have hcurrent : (c.program .standard).2.tokens.head? = some (.number v) := by
    rw [Cursor.head?_tokens, ← herror e h, hv]
  obtain ⟨w, hw⟩ := hspelled _ (List.mem_of_mem_head? hcurrent)
  exact Binary64.isNumeral_of_spells hw

/-- Two parses are equal by value only if they give the same result. -/
theorem parsedNumEq_parse_iff (a b : String) : parsedNumEq (parse a) (parse b) = true ↔ parse a = parse b := by
  cases ha : parse a with
  | ok xs =>
      cases hb : parse b with
      | ok ys =>
          rw [parsedNumEq, Item.listNumEq_iff_eq (all_of_parseWith_ok ha) (all_of_parseWith_ok hb)]
          exact ⟨congrArg Except.ok, Except.ok.inj⟩
      | error f => simp [parsedNumEq]
  | error e =>
      cases hb : parse b with
      | ok ys => simp [parsedNumEq]
      | error f =>
          rw [parsedNumEq, ParseError.numEq_iff_eq (isNumeral_of_parse_error ha) (isNumeral_of_parse_error hb)]
          exact ⟨congrArg Except.error, Except.error.inj⟩

/-- Equality by value is sound. On expressions, functions, items and programs it is symmetric and
transitive, and what equals itself is what holds no word that is not a number. Two parses are equal by
value exactly when both give the same items, bit for bit, or both fail at the same token for the same
reason, so among parses it is an equivalence. -/
theorem numEq_sound :
    PartialEquality Expr.numEq Expr.Comparable ∧
      PartialEquality Function.numEq (fun f => f.body.Comparable) ∧
      PartialEquality Item.numEq (fun x => x.Numbers (·.isNaN = false)) ∧
      PartialEquality Item.listNumEq (fun xs => ∀ x ∈ xs, x.Numbers (·.isNaN = false)) ∧
      (∀ a b : String, parsedNumEq (parse a) (parse b) = true ↔
        (∃ xs, parse a = .ok xs ∧ parse b = .ok xs) ∨ ∃ e, parse a = .error e ∧ parse b = .error e) ∧
      Equivalence fun a b : String => parsedNumEq (parse a) (parse b) = true := by
  refine ⟨partialEquality_of_form Expr.numEq_iff, partialEquality_of_form Function.numEq_iff,
    partialEquality_of_form Item.numEq_iff, partialEquality_of_form Item.listNumEq_iff, ?_, ?_⟩
  · intro a b
    rw [parsedNumEq_parse_iff]
    constructor
    · intro h
      cases hb : parse b with
      | ok xs => exact .inl ⟨xs, h.trans hb, rfl⟩
      | error e => exact .inr ⟨e, h.trans hb, rfl⟩
    · rintro (⟨xs, ha, hb⟩ | ⟨e, ha, hb⟩)
      · rw [ha, hb]
      · rw [ha, hb]
  · simp only [parsedNumEq_parse_iff]
    exact ⟨fun _ => rfl, Eq.symm, Eq.trans⟩

end ExprLang
