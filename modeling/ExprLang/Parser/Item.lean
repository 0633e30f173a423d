import ExprLang.Item
import ExprLang.Token.Lexer
import ExprLang.Parser.Expr

/-!
# Parsing items

The productions above expressions: prototypes, definitions, declarations, bare expressions, and whole
programs. A program stops at the first error. Recovery goes on after one by leaving out the token where
the error stands, and so comes to the end of input whatever stands there.
-/

namespace ExprLang

namespace Cursor

variable {τ : Type} [TokenStream τ]

/-- Takes the identifiers in front of the cursor. -/
def parameters (c : Cursor τ) : List String × Cursor τ :=
  match _ : c.current with
  | some (.ident name) =>
      let (names, d) := c.advance.parameters
      (name :: names, d)
  | _ => ([], c)
termination_by c.left
decreasing_by exact left_advance_lt ‹_›

/-- Parses a name and parameters in parentheses. -/
def prototype (c : Cursor τ) : Outcome τ Prototype :=
  match c.current with
  | some (.ident name) =>
      let d := c.advance
      if d.current = some (.symbol '(') then
        let (params, e) := d.advance.parameters
        if e.current = some (.symbol ')') then (.ok ⟨name, params⟩, e.advance)
        else e.fail .prototypeClose
      else d.fail .prototypeOpen
  | _ => c.fail .functionName

/-- Leaves out the current token and parses a prototype and a body. -/
def definition (ops : OpTable) (c : Cursor τ) : Outcome τ Function :=
  c.advance.prototype.andThen fun prototype d =>
    (d.expr ops).andThen fun body e => (.ok ⟨prototype, body⟩, e)

/-- Leaves out the current token and parses a prototype. -/
def external (c : Cursor τ) : Outcome τ Prototype := c.advance.prototype

/-- Parses a bare expression. -/
def toplevel (ops : OpTable) (c : Cursor τ) : Outcome τ Function :=
  (c.expr ops).andThen fun body d => (.ok ⟨.anonymous, body⟩, d)

/-- Parses the item that the current token begins. -/
def item (ops : OpTable) (c : Cursor τ) : Outcome τ Item :=
  match c.current with
  | some .definition => (c.definition ops).andThen fun f d => (.ok (.function f), d)
  | some .external => c.external.andThen fun p d => (.ok (.external p), d)
  | _ => (c.toplevel ops).andThen fun f d => (.ok (.function f), d)

/-- Parameters leave no more tokens than there were. -/
theorem left_parameters_le (c : Cursor τ) : c.parameters.2.left ≤ c.left := by
  fun_induction parameters c with
  | case1 c name hc names d hrec ih =>
      rw [hrec] at ih
      exact Nat.le_trans ih c.left_advance_le
  | case2 => exact Nat.le_refl _

/-- A prototype leaves no more tokens than there were. -/
theorem left_prototype_le (c : Cursor τ) : c.prototype.2.left ≤ c.left := by
  unfold prototype
  split
  next name hc =>
    have hname := c.left_advance_le
    dsimp only
    split
    · have hopen := c.advance.left_advance_le
      have hparams := c.advance.advance.left_parameters_le
      split
      · have hclose := c.advance.advance.parameters.2.left_advance_le
        dsimp only
        omega
      · dsimp only [fail]
        omega
    · exact hname
  next => exact Nat.le_refl _

/-- Going on leaves no more tokens than there were, if both parts leave no more. -/
theorem left_andThen_le {α β : Type} {c : Cursor τ} {r : Outcome τ α}
    {f : α → Cursor τ → Outcome τ β} (hr : r.2.left ≤ c.left)
    (hf : ∀ a d, (f a d).2.left ≤ d.left) : (r.andThen f).2.left ≤ c.left := by
  obtain ⟨result, d⟩ := r
  cases result with
  | ok a => exact Nat.le_trans (hf a d) hr
  | error e => exact hr

/-- A definition leaves no more tokens than are behind the one that it leaves out. -/
theorem left_definition_le (ops : OpTable) (c : Cursor τ) :
    (c.definition ops).2.left ≤ c.advance.left :=
  left_andThen_le c.advance.left_prototype_le fun _ d =>
    left_andThen_le (d.left_expr_le ops) fun _ e => Nat.le_refl e.left

/-- A bare expression leaves no more tokens than there were. -/
theorem left_toplevel_le (ops : OpTable) (c : Cursor τ) : (c.toplevel ops).2.left ≤ c.left :=
  left_andThen_le (c.left_expr_le ops) fun _ d => Nat.le_refl d.left

/-- An item leaves no more tokens than there were. -/
theorem left_item_le (ops : OpTable) (c : Cursor τ) : (c.item ops).2.left ≤ c.left := by
  unfold item
  split
  · exact left_andThen_le (Nat.le_trans (c.left_definition_le ops) c.left_advance_le)
      fun _ d => Nat.le_refl d.left
  · exact left_andThen_le (Nat.le_trans c.advance.left_prototype_le c.left_advance_le)
      fun _ d => Nat.le_refl d.left
  · exact left_andThen_le (c.left_toplevel_le ops) fun _ d => Nat.le_refl d.left

/-- An item takes at least one token. -/
theorem left_lt_of_item_ok {ops : OpTable} {c d : Cursor τ} {x : Item}
    (h : c.item ops = (.ok x, d)) : d.left < c.left := by
  unfold item at h
  split at h
  next hc =>
    obtain ⟨f, e, hf, he⟩ := Outcome.andThen_eq_ok_iff.mp h
    have hle := c.left_definition_le ops
    rw [hf] at hle
    rw [← (Prod.mk.inj he).2]
    exact Nat.lt_of_le_of_lt hle (left_advance_lt hc)
  next hc =>
    obtain ⟨p, e, hp, he⟩ := Outcome.andThen_eq_ok_iff.mp h
    have hle := c.advance.left_prototype_le
    rw [external] at hp
    rw [hp] at hle
    rw [← (Prod.mk.inj he).2]
    exact Nat.lt_of_le_of_lt hle (left_advance_lt hc)
  next =>
    obtain ⟨f, e, hf, he⟩ := Outcome.andThen_eq_ok_iff.mp h
    obtain ⟨body, g, hbody, hg⟩ := Outcome.andThen_eq_ok_iff.mp hf
    rw [← (Prod.mk.inj he).2, ← (Prod.mk.inj hg).2]
    exact left_lt_of_expr_ok hbody

/-- Parses an item, with fewer tokens left behind every item. -/
def itemWithin (ops : OpTable) (c : Cursor τ) :
    { r : Outcome τ Item // ∀ x, r.1 = .ok x → r.2.left < c.left } :=
  ⟨c.item ops, fun _ hx => left_lt_of_item_ok (Prod.ext hx rfl)⟩

/-- Parses items to the end of input, leaving out semicolons between them. -/
def program (ops : OpTable) (c : Cursor τ) : Outcome τ (List Item) :=
  match hc : c.current with
  | none => (.ok [], c)
  | some k =>
      have : c.advance.left < c.left := left_advance_lt hc
      if k = .symbol ';' then c.advance.program ops
      else
        match c.itemWithin ops with
        | ⟨(.error e, d), _⟩ => (.error e, d)
        | ⟨(.ok x, d), h⟩ =>
            have : d.left < c.left := h x rfl
            (d.program ops).andThen fun xs e => (.ok (x :: xs), e)
termination_by c.left

/-- A program is empty, or a semicolon and a program, or an item and a program. -/
theorem program_eq (ops : OpTable) (c : Cursor τ) :
    c.program ops =
      match c.current with
      | none => (.ok [], c)
      | some k =>
          if k = .symbol ';' then c.advance.program ops
          else
            (c.item ops).andThen fun x d =>
              (d.program ops).andThen fun xs e => (.ok (x :: xs), e) := by
  rw [program]
  split
  next hc => rw [hc]
  next k hc =>
    simp only [hc]
    split
    · rfl
    · split
      next e d hd h =>
        have hitem : c.item ops = (.error e, d) := congrArg Subtype.val h
        rw [hitem]
        rfl
      next x d hd h =>
        have hitem : c.item ops = (.ok x, d) := congrArg Subtype.val h
        rw [hitem]
        rfl

/-- After an error, the cursor behind the token where it stands has fewer tokens left. -/
theorem left_advance_lt_of_le {c d : Cursor τ} {k : Token} (hc : c.current = some k)
    (h : d.left ≤ c.left) : d.advance.left < c.left := by
  cases hd : d.current with
  | none =>
      rw [advance_of_current_none hd, left, tokens_of_current_none hd, List.length_nil,
        left_of_current_some hc]
      exact Nat.succ_pos _
  | some j => exact Nat.lt_of_lt_of_le (left_advance_lt hd) h

/-- One step of recovery: a semicolon is left out, an item is read, and after an error the token where
it stands is left out. -/
def step (ops : OpTable) (c : Cursor τ) : Option (Except ParseError Item) × Cursor τ :=
  if c.current = some (.symbol ';') then (none, c.advance)
  else
    match c.item ops with
    | (.ok x, d) => (some (.ok x), d)
    | (.error e, d) => (some (.error e), d.advance)

/-- Before the end a step takes at least one token. -/
theorem left_step_lt {ops : OpTable} {c : Cursor τ} {k : Token} (hc : c.current = some k) :
    (c.step ops).2.left < c.left := by
  unfold step
  split
  · exact left_advance_lt hc
  · have hle := c.left_item_le ops
    split
    next x d hitem => exact left_lt_of_item_ok hitem
    next e d hitem =>
      rw [hitem] at hle
      exact left_advance_lt_of_le hc hle

/-- Takes steps to the end of input; lists what each one reads, and gives the cursor at the end. -/
def recover (ops : OpTable) (c : Cursor τ) :
    List (Option (Except ParseError Item)) × Cursor τ :=
  match hc : c.current with
  | none => ([], c)
  | some _ =>
      let first := c.step ops
      have : first.2.left < c.left := left_step_lt hc
      let (results, last) := first.2.recover ops
      (first.1 :: results, last)
termination_by c.left

end Cursor

/-- Parses a whole text with an operator table. -/
def parseWith (ops : OpTable) (s : String) : Except ParseError (List Item) :=
  ((Cursor.start (Lexer.ofText (.ofString s))).program ops).1

/-- Parses a whole text with the standard operators. -/
def parse (s : String) : Except ParseError (List Item) := parseWith .standard s

/-- Equality of the results of two parses, numbers by value. -/
def parsedNumEq : Except ParseError (List Item) → Except ParseError (List Item) → Bool
  | .ok xs, .ok ys => Item.listNumEq xs ys
  | .error e, .error f => e.numEq f
  | _, _ => false

end ExprLang
