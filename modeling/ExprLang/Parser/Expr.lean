import ExprLang.Expr
import ExprLang.Operators
import ExprLang.Parser.Cursor

/-!
# Parsing expressions

An expression is a chain of primaries with operators between them. `climb` extends an operand to
the right by precedence climbing: it takes operators down to a least precedence, and before it joins an
operand it lets a tighter operator behind that operand have it first. The productions call each other
in circles, and what bounds them is that none leaves more tokens than it found. So they are built, in
`Within`, together with what is known of the cursor where they stop, and then stated without it:
`primary`, `arguments`, `climb` and `expr` each have an equation of their own.
-/

namespace ExprLang

namespace Cursor

variable {τ : Type} [TokenStream τ]

/-- The cursors with no more tokens left than `c`. -/
def NotBefore (c d : Cursor τ) : Prop := d.left ≤ c.left

/-- An outcome with a cursor of a kind. -/
def Within (P : Cursor τ → Prop) (α : Type) : Type := { r : Outcome τ α // P r.2 }

namespace Within

variable {α β : Type} {P Q : Cursor τ → Prop}

/-- Success at a cursor of the kind. -/
def done {d : Cursor τ} (a : α) (h : P d) : Within P α := ⟨(.ok a, d), h⟩

/-- Failure at a cursor of the kind. -/
def fail {d : Cursor τ} (expected : Expected) (h : P d) : Within P α := ⟨d.fail expected, h⟩

/-- An outcome with a cursor of a wider kind. -/
def lift (r : Within Q α) (hQ : ∀ d, Q d → P d) : Within P α := ⟨r.val, hQ r.val.2 r.property⟩

/-- Goes on after success, with what is known of the cursor there. -/
def andThen (r : Within Q α) (hQ : ∀ d, Q d → P d)
    (f : α → (d : Cursor τ) → Q d → Within P β) : Within P β :=
  match r with
  | ⟨(.ok a, d), h⟩ => f a d h
  | ⟨(.error e, d), h⟩ => ⟨(.error e, d), hQ d h⟩

/-- Going on within bounds is going on without them. -/
theorem val_andThen (r : Within Q α) (hQ : ∀ d, Q d → P d)
    {f : α → (d : Cursor τ) → Q d → Within P β} {g : α → Cursor τ → Outcome τ β}
    (h : ∀ a d hd, (f a d hd).val = g a d) : (r.andThen hQ f).val = Outcome.andThen r.val g := by
  obtain ⟨⟨result, d⟩, hd⟩ := r
  cases result with
  | ok a => exact h a d hd
  | error e => rfl

/-- The operator at a cursor, with fewer tokens left behind every operator. -/
def operator? (ops : OpTable) (c : Cursor τ) :
    { r : Option (Char × Int32) // ∀ x, r = some x → c.advance.left < c.left } :=
  ⟨ops.operator? c.current, fun _ h => left_advance_lt (OpTable.operator?_eq_some_iff.mp h).1⟩

mutual

/-- A number, a name, a call or an expression in parentheses. -/
def primary (ops : OpTable) (P : Cursor τ → Prop) (c : Cursor τ) (hP : ∀ d, NotBefore c d → P d) :
    Within P Expr :=
  match hc : c.current with
  | some (.number value) => done (.literal value) (hP c.advance c.left_advance_le)
  | some (.ident name) =>
      let d := c.advance
      have hd : d.left < c.left := left_advance_lt hc
      if d.current = some (.symbol '(') then
        let e := d.advance
        have he : e.left < c.left := Nat.lt_of_le_of_lt d.left_advance_le hd
        if e.current = some (.symbol ')') then
          done (.call name []) (hP e.advance (Nat.le_trans e.left_advance_le (Nat.le_of_lt he)))
        else
          (arguments ops (NotBefore e) e fun _ h => h).andThen
            (fun f hf => hP f (Nat.le_trans hf (Nat.le_of_lt he))) fun args f hf =>
              done (.call name args) (hP f (Nat.le_trans hf (Nat.le_of_lt he)))
      else done (.var name) (hP d (Nat.le_of_lt hd))
  | some (.symbol s) =>
      if s = '(' then
        let d := c.advance
        have hd : d.left < c.left := left_advance_lt hc
        (expr ops (NotBefore d) d fun _ h => h).andThen
          (fun e he => hP e (Nat.le_trans he (Nat.le_of_lt hd))) fun inner e he =>
            have hle : e.left ≤ c.left := Nat.le_trans he (Nat.le_of_lt hd)
            if e.current = some (.symbol ')') then
              done inner (hP e.advance (Nat.le_trans e.left_advance_le hle))
            else fail .closeParen (hP e hle)
      else fail .expression (hP c (Nat.le_refl c.left))
  | _ => fail .expression (hP c (Nat.le_refl c.left))
termination_by (c.left, 0)

/-- At least one argument, and the parenthesis that closes the list. -/
def arguments (ops : OpTable) (P : Cursor τ → Prop) (c : Cursor τ)
    (hP : ∀ d, NotBefore c d → P d) : Within P (List Expr) :=
  (expr ops (NotBefore c) c fun _ h => h).andThen hP fun arg d hd =>
    if d.current = some (.symbol ')') then
      done [arg] (hP d.advance (Nat.le_trans d.left_advance_le hd))
    else if hcomma : d.current = some (.symbol ',') then
      let e := d.advance
      have he : e.left < c.left := Nat.lt_of_lt_of_le (left_advance_lt hcomma) hd
      (arguments ops (NotBefore e) e fun _ h => h).andThen
        (fun f hf => hP f (Nat.le_trans hf (Nat.le_of_lt he))) fun args f hf =>
          done (arg :: args) (hP f (Nat.le_trans hf (Nat.le_of_lt he)))
    else fail .argumentSeparator (hP d hd)
termination_by (c.left, 2)

/-- The operators and operands that follow `lhs`, down to the precedence `least`. -/
def climb (ops : OpTable) (least : Int32) (lhs : Expr) (P : Cursor τ → Prop) (c : Cursor τ)
    (hP : ∀ d, NotBefore c d → P d) : Within P Expr :=
  match operator? ops c with
  | ⟨none, _⟩ => done lhs (hP c (Nat.le_refl c.left))
  | ⟨some (op, precedence), hop⟩ =>
      if precedence < least then done lhs (hP c (Nat.le_refl c.left))
      else
        let d := c.advance
        have hd : d.left < c.left := hop _ rfl
        (primary ops (NotBefore d) d fun _ h => h).andThen
          (fun e he => hP e (Nat.le_trans he (Nat.le_of_lt hd))) fun operand e he =>
            have helt : e.left < c.left := Nat.lt_of_le_of_lt he hd
            Within.andThen
              (if ops.bindsTighter precedence e.current then
                climb ops (precedence + 1) operand (NotBefore e) e fun _ h => h
              else done operand (Nat.le_refl e.left))
              (fun f hf => hP f (Nat.le_trans hf (Nat.le_of_lt helt))) fun rhs f hf =>
                have hflt : f.left < c.left := Nat.lt_of_le_of_lt hf helt
                (climb ops least (.binary op lhs rhs) (NotBefore f) f fun _ h => h).lift fun g hg =>
                  hP g (Nat.le_trans hg (Nat.le_of_lt hflt))
termination_by (c.left, 0)

/-- A primary and the operators and operands that follow it. -/
def expr (ops : OpTable) (P : Cursor τ → Prop) (c : Cursor τ) (hP : ∀ d, NotBefore c d → P d) :
    Within P Expr :=
  (primary ops (NotBefore c) c fun _ h => h).andThen hP fun lhs d hd =>
    (climb ops 0 lhs (NotBefore d) d fun _ h => h).lift fun e he => hP e (Nat.le_trans he hd)
termination_by (c.left, 1)
decreasing_by
  · exact Prod.Lex.right _ Nat.zero_lt_one
  · have hle : d.left ≤ c.left := hd
    simp only [Prod.lex_def]
    omega

end

end Within

/-- Parses a number, a name, a call or an expression in parentheses. -/
def primary (ops : OpTable) (c : Cursor τ) : Outcome τ Expr :=
  (Within.primary ops (NotBefore c) c fun _ h => h).val

/-- Parses at least one argument and the parenthesis that closes the list. -/
def arguments (ops : OpTable) (c : Cursor τ) : Outcome τ (List Expr) :=
  (Within.arguments ops (NotBefore c) c fun _ h => h).val

/-- Parses the operators and operands that follow `lhs`, down to the precedence `least`. -/
def climb (ops : OpTable) (least : Int32) (lhs : Expr) (c : Cursor τ) : Outcome τ Expr :=
  (Within.climb ops least lhs (NotBefore c) c fun _ h => h).val

/-- Parses an expression. -/
def expr (ops : OpTable) (c : Cursor τ) : Outcome τ Expr :=
  (Within.expr ops (NotBefore c) c fun _ h => h).val

/-- The first token decides what a primary is. -/
theorem primary_eq (ops : OpTable) (c : Cursor τ) :
    c.primary ops =
      match c.current with
      | some (.number value) => (.ok (.literal value), c.advance)
      | some (.ident name) =>
          if c.advance.current = some (.symbol '(') then
            if c.advance.advance.current = some (.symbol ')') then
              (.ok (.call name []), c.advance.advance.advance)
            else
              (c.advance.advance.arguments ops).andThen fun args d => (.ok (.call name args), d)
          else (.ok (.var name), c.advance)
      | some (.symbol s) =>
          if s = '(' then
            (c.advance.expr ops).andThen fun inner d =>
              if d.current = some (.symbol ')') then (.ok inner, d.advance) else d.fail .closeParen
          else c.fail .expression
      | _ => c.fail .expression := by
  rw [primary, Within.primary]
  split
  next value hc => simp only [hc, Within.done]
  next name hc =>
    simp only [hc]
    split
    · split
      · rfl
      · rw [Within.val_andThen]
        · rfl
        · intro args d hd
          rfl
    · rfl
  next s hc =>
    simp only [hc]
    split
    · rw [Within.val_andThen]
      · rfl
      · intro inner d hd
        split <;> rfl
    · rfl
  next hnumber hident hsymbol =>
    split
    next value hc => exact absurd hc (hnumber value)
    next name hc => exact absurd hc (hident name)
    next s hc => exact absurd hc (hsymbol s)
    next => rfl

/-- After an argument the list is closed, or a comma leads to the next one. -/
theorem arguments_eq (ops : OpTable) (c : Cursor τ) :
    c.arguments ops =
      (c.expr ops).andThen fun arg d =>
        if d.current = some (.symbol ')') then (.ok [arg], d.advance)
        else if d.current = some (.symbol ',') then
          (d.advance.arguments ops).andThen fun args e => (.ok (arg :: args), e)
        else d.fail .argumentSeparator := by
  rw [arguments, Within.arguments, Within.val_andThen]
  · rfl
  · intro arg d hd
    split
    · rfl
    · split
      · rw [Within.val_andThen]
        · rfl
        · intro args e he
          rfl
      · rfl

/-- An operator that is not below `least` takes the primary behind it, and what binds tighter to that
primary first. -/
theorem climb_eq (ops : OpTable) (least : Int32) (lhs : Expr) (c : Cursor τ) :
    c.climb ops least lhs =
      match ops.operator? c.current with
      | none => (.ok lhs, c)
      | some (op, precedence) =>
          if precedence < least then (.ok lhs, c)
          else
            (c.advance.primary ops).andThen fun operand d =>
              Outcome.andThen
                (if ops.bindsTighter precedence d.current then d.climb ops (precedence + 1) operand
                else (.ok operand, d))
                fun rhs e => e.climb ops least (.binary op lhs rhs) := by
  rw [climb, Within.climb]
  split
  next hnone h =>
    have hop : ops.operator? c.current = none := congrArg Subtype.val h
    rw [hop]
    rfl
  next op precedence hsome h =>
    have hop : ops.operator? c.current = some (op, precedence) := congrArg Subtype.val h
    simp only [hop]
    split
    · rfl
    · rw [Within.val_andThen]
      · rfl
      · intro operand d hd
        rw [Within.val_andThen (g := fun rhs e => e.climb ops least (.binary op lhs rhs))]
        · congr 1
          split <;> rfl
        · intro rhs e he
          rfl

/-- An expression is a primary and what follows it at any precedence. -/
theorem expr_eq (ops : OpTable) (c : Cursor τ) :
    c.expr ops = (c.primary ops).andThen fun lhs d => d.climb ops 0 lhs := by
  rw [expr, Within.expr, Within.val_andThen]
  · rfl
  · intro lhs d hd
    rfl

/-- A primary leaves no more tokens than there were. -/
theorem left_primary_le (ops : OpTable) (c : Cursor τ) : (c.primary ops).2.left ≤ c.left :=
  (Within.primary ops (NotBefore c) c fun _ h => h).property

/-- Arguments leave no more tokens than there were. -/
theorem left_arguments_le (ops : OpTable) (c : Cursor τ) : (c.arguments ops).2.left ≤ c.left :=
  (Within.arguments ops (NotBefore c) c fun _ h => h).property

/-- Climbing leaves no more tokens than there were. -/
theorem left_climb_le (ops : OpTable) (least : Int32) (lhs : Expr) (c : Cursor τ) :
    (c.climb ops least lhs).2.left ≤ c.left :=
  (Within.climb ops least lhs (NotBefore c) c fun _ h => h).property

/-- An expression leaves no more tokens than there were. -/
theorem left_expr_le (ops : OpTable) (c : Cursor τ) : (c.expr ops).2.left ≤ c.left :=
  (Within.expr ops (NotBefore c) c fun _ h => h).property

/-- A primary takes at least one token. -/
theorem left_lt_of_primary_ok {ops : OpTable} {c d : Cursor τ} {e : Expr}
    (h : c.primary ops = (.ok e, d)) : d.left < c.left := by
  rw [primary_eq] at h
  split at h
  next value hc =>
    rw [← (Prod.mk.inj h).2]
    exact left_advance_lt hc
  next name hc =>
    have hname := left_advance_lt hc
    split at h
    · have hopen := c.advance.left_advance_le
      split at h
      · rw [← (Prod.mk.inj h).2]
        have hclose := c.advance.advance.left_advance_le
        omega
      · obtain ⟨args, f, hargs, hf⟩ := Outcome.andThen_eq_ok_iff.mp h
        have hle := left_arguments_le ops c.advance.advance
        rw [hargs] at hle
        dsimp only at hle
        rw [← (Prod.mk.inj hf).2]
        omega
    · rw [← (Prod.mk.inj h).2]
      exact hname
  next s hc =>
    split at h
    · obtain ⟨inner, f, hinner, hf⟩ := Outcome.andThen_eq_ok_iff.mp h
      have hopen := left_advance_lt hc
      have hle := left_expr_le ops c.advance
      have hclose := f.left_advance_le
      rw [hinner] at hle
      dsimp only at hle
      split at hf
      · rw [← (Prod.mk.inj hf).2]
        omega
      · simp [fail] at hf
    · simp [fail] at h
  next => simp [fail] at h

/-- An expression takes at least one token. -/
theorem left_lt_of_expr_ok {ops : OpTable} {c d : Cursor τ} {e : Expr}
    (h : c.expr ops = (.ok e, d)) : d.left < c.left := by
  rw [expr_eq] at h
  obtain ⟨lhs, f, hlhs, hf⟩ := Outcome.andThen_eq_ok_iff.mp h
  have hle := left_climb_le ops 0 lhs f
  rw [hf] at hle
  exact Nat.lt_of_le_of_lt hle (left_lt_of_primary_ok hlhs)

end Cursor

end ExprLang
