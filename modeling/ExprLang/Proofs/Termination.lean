import ExprLang.Proofs.BufferedLexing
import ExprLang.Proofs.ErrorPosition
import ExprLang.Proofs.Grammar

/-!
# Every production returns

The productions are written here a second time, as programs that look at a token, move on and call each
other, and know nothing of how much is left; the loops of the lexer are there already, over a buffered
source. The main statement is that taking a token and each of the programs return wherever they start, and
that the result is the outcome of the production.

What makes the calls end is that a token is taken between a call and the next one at the same place. The
loop that goes on after errors is the one where this has to be seen of failures as well: a failed item may
have taken nothing, and then the loop leaves out the token that it failed at.
-/

namespace ExprLang

/-- Programs that work at a cursor, may fail there, and may not return. -/
abbrev Procedure (τ : Type) [TokenStream τ] (α : Type) : Type :=
  ExceptT ParseError (StateT (Cursor τ) Option) α

namespace Procedure

variable {τ α β : Type} [TokenStream τ]

/-- The token that the cursor stands on. -/
def current : Procedure τ (Option Token) := do return (← get).current

/-- Goes to the next token. -/
def advance : Procedure τ Unit := modify Cursor.advance

/-- Fails at the current token. -/
def fail (expected : Expected) : Procedure τ α := do throw ⟨expected, ← current⟩

/-- Has no result, since calls may not be nested deeper. -/
def overflow : Procedure τ α := ExceptT.mk failure

mutual

/-- Reads a number, a name, a call or an expression in parentheses. -/
def primary (ops : OpTable) : Nat → Procedure τ Expr
  | 0 => overflow
  | n + 1 => do
      match ← current with
      | some (.number value) =>
          advance
          return .literal value
      | some (.ident name) =>
          advance
          if (← current) = some (.symbol '(') then
            advance
            if (← current) = some (.symbol ')') then
              advance
              return .call name []
            else return .call name (← arguments ops n)
          else return .var name
      | some (.symbol s) =>
          if s = '(' then
            advance
            let inner ← expr ops n
            if (← current) = some (.symbol ')') then
              advance
              return inner
            else fail .closeParen
          else fail .expression
      | _ => fail .expression

/-- Reads at least one argument and the parenthesis that closes the list. -/
def arguments (ops : OpTable) : Nat → Procedure τ (List Expr)
  | 0 => overflow
  | n + 1 => do
      let arg ← expr ops n
      if (← current) = some (.symbol ')') then
        advance
        return [arg]
      else if (← current) = some (.symbol ',') then
        advance
        return arg :: (← arguments ops n)
      else fail .argumentSeparator

/-- Reads the operators and operands that follow `lhs`, down to the precedence `least`. -/
def climb (ops : OpTable) : Nat → Int32 → Expr → Procedure τ Expr
  | 0, _, _ => overflow
  | n + 1, least, lhs => do
      match ops.operator? (← current) with
      | none => return lhs
      | some (op, precedence) =>
          if precedence < least then return lhs
          else
            advance
            let operand ← primary ops n
            if ops.bindsTighter precedence (← current) then
              let rhs ← climb ops n (precedence + 1) operand
              climb ops n least (.binary op lhs rhs)
            else climb ops n least (.binary op lhs operand)

/-- Reads an expression. -/
def expr (ops : OpTable) : Nat → Procedure τ Expr
  | 0 => overflow
  | n + 1 => do
      let lhs ← primary ops n
      climb ops n 0 lhs

end

/-- Reads the identifiers in front of the cursor. -/
def parameters : Nat → Procedure τ (List String)
  | 0 => overflow
  | n + 1 => do
      match ← current with
      | some (.ident name) =>
          advance
          return name :: (← parameters n)
      | _ => return []

/-- Reads a name and parameters in parentheses. -/
def prototype (n : Nat) : Procedure τ Prototype := do
  match ← current with
  | some (.ident name) =>
      advance
      if (← current) = some (.symbol '(') then
        advance
        let params ← parameters n
        if (← current) = some (.symbol ')') then
          advance
          return ⟨name, params⟩
        else fail .prototypeClose
      else fail .prototypeOpen
  | _ => fail .functionName

/-- Leaves out the current token and reads a prototype and a body. -/
def definition (ops : OpTable) (n : Nat) : Procedure τ Function := do
  advance
  let p ← prototype n
  return ⟨p, ← expr ops n⟩

/-- Leaves out the current token and reads a prototype. -/
def external (n : Nat) : Procedure τ Prototype := do
  advance
  prototype n

/-- Reads a bare expression. -/
def toplevel (ops : OpTable) (n : Nat) : Procedure τ Function := do
  return ⟨.anonymous, ← expr ops n⟩

/-- Reads the item that the current token begins. -/
def item (ops : OpTable) (n : Nat) : Procedure τ Item := do
  match ← current with
  | some .definition => return .function (← definition ops n)
  | some .external => return .external (← external n)
  | _ => return .function (← toplevel ops n)

/-- Reads items to the end of input, leaving out semicolons between them. -/
def program (ops : OpTable) : Nat → Procedure τ (List Item)
  | 0 => overflow
  | n + 1 => do
      match ← current with
      | none => return []
      | some k =>
          if k = .symbol ';' then
            advance
            program ops n
          else
            let x ← item ops n
            return x :: (← program ops n)

/-- Leaves out a semicolon or reads an item, and after an error leaves out the token where it stands. -/
def step (ops : OpTable) (n : Nat) : Procedure τ (Option (Except ParseError Item)) := do
  if (← current) = some (.symbol ';') then
    advance
    return none
  else
    tryCatch (do return some (.ok (← item ops n))) fun e => do
      advance
      return some (.error e)

/-- Goes on with steps to the end of input, and lists what each one reads. -/
def recover (ops : OpTable) : Nat → Procedure τ (List (Option (Except ParseError Item)))
  | 0 => overflow
  | n + 1 => do
      match ← current with
      | none => return []
      | some _ =>
          let first ← step ops n
          return first :: (← recover ops n)

/-- The procedure returns with the outcome when it starts at the cursor. -/
def HaltsAt (p : Nat → Procedure τ α) (c : Cursor τ) (r : Outcome τ α) : Prop :=
  Halts (fun n => (p n).run) c r

variable {c : Cursor τ} {r : Outcome τ α}

/-- A call returns if what is called does. -/
theorem haltsAt_call {p : Nat → Procedure τ α} (h : HaltsAt (fun n => p (n + 1)) c r) :
    HaltsAt p c r := halts_call h

/-- A result is returned at once. -/
theorem haltsAt_pure (a : α) (c : Cursor τ) : HaltsAt (fun _ => pure a) c (.ok a, c) :=
  ⟨0, fun _ _ => rfl⟩

/-- A procedure goes on after success with what comes next, and returns if both parts do. -/
theorem HaltsAt.bind {p : Nat → Procedure τ α} {f : Nat → α → Procedure τ β}
    {g : α → Cursor τ → Outcome τ β} (hp : HaltsAt p c r)
    (hf : ∀ a d, r = (.ok a, d) → HaltsAt (fun n => f n a) d (g a d)) :
    HaltsAt (fun n => p n >>= f n) c (r.andThen g) := by
  obtain ⟨result, d⟩ := r
  cases result with
  | ok a => exact Halts.seq hp (hf a d rfl)
  | error e => exact Halts.seq hp ⟨0, fun _ _ => rfl⟩

/-- A decision on the current token. -/
theorem haltsAt_current {f : Nat → Option Token → Procedure τ α}
    (h : HaltsAt (fun n => f n c.current) c r) : HaltsAt (fun n => current >>= f n) c r := h

/-- What comes next begins at the next token. -/
theorem haltsAt_advance {f : Nat → Unit → Procedure τ α}
    (h : HaltsAt (fun n => f n ()) c.advance r) : HaltsAt (fun n => advance >>= f n) c r := h

/-- A failure returns. -/
theorem haltsAt_fail (c : Cursor τ) (expected : Expected) :
    HaltsAt (fun _ => (fail expected : Procedure τ α)) c (c.fail expected) := ⟨0, fun _ _ => rfl⟩

/-- A procedure that succeeds needs no handler. -/
theorem haltsAt_catch_ok {p : Nat → Procedure τ α} {handler : Nat → ParseError → Procedure τ α} {a : α}
    {d : Cursor τ} (hp : HaltsAt p c (.ok a, d)) :
    HaltsAt (fun n => tryCatch (p n) (handler n)) c (.ok a, d) := by
  apply Halts.trans hp (haltsAt_pure a d)
  intro n hn
  change ((p n).run.run c).bind _ = _
  rw [hn]
  rfl

/-- After a failure the handler goes on where the procedure has stopped. -/
theorem haltsAt_catch_error {p : Nat → Procedure τ α} {handler : Nat → ParseError → Procedure τ α}
    {e : ParseError} {d : Cursor τ} (hp : HaltsAt p c (.error e, d))
    (hhandler : HaltsAt (fun n => handler n e) d r) :
    HaltsAt (fun n => tryCatch (p n) (handler n)) c r := by
  apply Halts.trans hp hhandler
  intro n hn
  change ((p n).run.run c).bind _ = _
  rw [hn]
  rfl

/-- A choice returns if the part that is chosen does. -/
theorem haltsAt_ite {P : Prop} [Decidable P] {p q : Nat → Procedure τ α} {r s : Outcome τ α}
    (hp : P → HaltsAt p c r) (hq : ¬P → HaltsAt q c s) :
    HaltsAt (fun n => if P then p n else q n) c (if P then r else s) := by
  split
  next h => exact hp h
  next h => exact hq h

section Productions

variable (ops : OpTable)

/-- A primary returns if the arguments and the expressions inside it do. -/
theorem halts_primary
    (ih : ∀ d : Cursor τ, d.left < c.left →
      HaltsAt (expr ops) d (d.expr ops) ∧ HaltsAt (arguments ops) d (d.arguments ops)) :
    HaltsAt (primary ops) c (c.primary ops) := by
  apply haltsAt_call
  rw [Cursor.primary_eq]
  apply haltsAt_current
  cases hc : c.current with
  | none => exact haltsAt_fail c _
  | some k =>
      have hlt := Cursor.left_advance_lt hc
      cases k with
      | number value => exact haltsAt_advance (haltsAt_pure _ _)
      | ident name =>
          have hle := c.advance.left_advance_le
          refine haltsAt_advance (haltsAt_current (haltsAt_ite (fun _ => ?_) fun _ => haltsAt_pure _ _))
          refine haltsAt_advance (haltsAt_current (haltsAt_ite (fun _ => ?_) fun _ => ?_))
          · exact haltsAt_advance (haltsAt_pure _ _)
          · exact (ih c.advance.advance (by omega)).2.bind fun args d _ => haltsAt_pure _ d
      | symbol s =>
          refine haltsAt_ite (fun _ => haltsAt_advance ?_) fun _ => haltsAt_fail c _
          apply (ih c.advance hlt).1.bind
          intro inner d _
          refine haltsAt_current (haltsAt_ite (fun _ => ?_) fun _ => haltsAt_fail d _)
          exact haltsAt_advance (haltsAt_pure _ _)
      | definition => exact haltsAt_fail c _
      | external => exact haltsAt_fail c _

/-- What follows an operand returns if the primaries in it and what follows them do. -/
theorem halts_climb
    (ih : ∀ d : Cursor τ, d.left < c.left → HaltsAt (primary ops) d (d.primary ops) ∧
      ∀ least lhs, HaltsAt (fun n => climb ops n least lhs) d (d.climb ops least lhs))
    (least : Int32) (lhs : Expr) :
    HaltsAt (fun n => climb ops n least lhs) c (c.climb ops least lhs) := by
  apply haltsAt_call
  rw [Cursor.climb_eq]
  apply haltsAt_current
  cases hop : ops.operator? c.current with
  | none => exact haltsAt_pure lhs c
  | some x =>
      obtain ⟨op, precedence⟩ := x
      have hlt := Cursor.left_advance_lt (OpTable.operator?_eq_some_iff.mp hop).1
      refine haltsAt_ite (fun _ => haltsAt_pure lhs c) fun _ => haltsAt_advance ?_
      apply (ih c.advance hlt).1.bind
      intro operand d hoperand
      have hd := Cursor.left_lt_of_primary_ok hoperand
      apply haltsAt_current
      split
      next =>
        apply ((ih d (by omega)).2 (precedence + 1) operand).bind
        intro rhs e hrhs
        have he := d.left_climb_le ops (precedence + 1) operand
        rw [hrhs] at he
        exact (ih e (Nat.lt_of_le_of_lt he (by omega))).2 least (.binary op lhs rhs)
      next => exact (ih d (by omega)).2 least (.binary op lhs operand)

/-- All productions for expressions return, wherever they start. -/
theorem halts_productions : ∀ c : Cursor τ,
    HaltsAt (primary ops) c (c.primary ops) ∧
      (∀ least lhs, HaltsAt (fun n => climb ops n least lhs) c (c.climb ops least lhs)) ∧
      HaltsAt (expr ops) c (c.expr ops) ∧ HaltsAt (arguments ops) c (c.arguments ops) := by
  apply Cursor.production_induction
  case primary =>
    intro c ih
    exact halts_primary ops ih
  case links =>
    intro c ih
    exact halts_climb ops ih
  case expr =>
    intro c hprimary hclimb
    apply haltsAt_call
    rw [Cursor.expr_eq]
    apply hprimary.bind
    intro lhs d hlhs
    exact hclimb d (Nat.le_of_lt (Cursor.left_lt_of_primary_ok hlhs)) 0 lhs
  case arguments =>
    intro c hexpr ih
    apply haltsAt_call
    rw [Cursor.arguments_eq]
    apply hexpr.bind
    intro arg d harg
    have hd := Cursor.left_lt_of_expr_ok harg
    refine haltsAt_current (haltsAt_ite (fun _ => haltsAt_advance (haltsAt_pure _ _)) fun _ => ?_)
    refine haltsAt_current (haltsAt_ite (fun hcomma => haltsAt_advance ?_) fun _ => haltsAt_fail d _)
    have hlt := Cursor.left_advance_lt hcomma
    exact (ih d.advance (by omega)).bind fun args e _ => haltsAt_pure _ e

/-- An expression returns. -/
theorem halts_expr (c : Cursor τ) : HaltsAt (expr ops) c (c.expr ops) := (halts_productions ops c).2.2.1

/-- Parameters return. -/
theorem halts_parameters (c : Cursor τ) :
    HaltsAt parameters c (.ok c.parameters.1, c.parameters.2) := by
  induction hsize : c.left using Nat.strongRecOn generalizing c with
  | ind size ih =>
      have hstop := haltsAt_pure ([] : List String) c
      apply haltsAt_call
      rw [Cursor.parameters_eq]
      apply haltsAt_current
      cases hc : c.current with
      | none => exact hstop
      | some k =>
          cases k with
          | ident name =>
              have hrest := ih _ (hsize ▸ Cursor.left_advance_lt hc) c.advance rfl
              exact haltsAt_advance (hrest.bind fun names d _ => haltsAt_pure (name :: names) d)
          | _ => exact hstop

/-- A prototype returns. -/
theorem halts_prototype (c : Cursor τ) : HaltsAt prototype c c.prototype := by
  have hfail : HaltsAt (fun _ => (fail .functionName : Procedure τ Prototype)) c (c.fail .functionName) :=
    haltsAt_fail c .functionName
  rw [Cursor.prototype_eq]
  apply haltsAt_current
  cases hc : c.current with
  | none => exact hfail
  | some k =>
      cases k with
      | ident name =>
          refine haltsAt_advance (haltsAt_current (haltsAt_ite (fun _ => ?_) fun _ => haltsAt_fail _ _))
          apply haltsAt_advance
          apply (halts_parameters c.advance.advance).bind
          intro params d _
          refine haltsAt_current (haltsAt_ite (fun _ => ?_) fun _ => haltsAt_fail d _)
          exact haltsAt_advance (haltsAt_pure _ _)
      | _ => exact hfail

/-- A definition returns. -/
theorem halts_definition (c : Cursor τ) : HaltsAt (definition ops) c (c.definition ops) := by
  apply haltsAt_advance
  apply (halts_prototype c.advance).bind
  intro p d _
  exact (halts_expr ops d).bind fun body e _ => haltsAt_pure _ e

/-- A declaration returns. -/
theorem halts_external (c : Cursor τ) : HaltsAt external c c.external :=
  haltsAt_advance (halts_prototype c.advance)

/-- A bare expression returns. -/
theorem halts_toplevel (c : Cursor τ) : HaltsAt (toplevel ops) c (c.toplevel ops) :=
  (halts_expr ops c).bind fun _ d _ => haltsAt_pure _ d

/-- An item returns. -/
theorem haltsAt_item (c : Cursor τ) : HaltsAt (item ops) c (c.item ops) := by
  have htoplevel := (halts_toplevel ops c).bind fun f d _ => haltsAt_pure (Item.function f) d
  rw [Cursor.item]
  apply haltsAt_current
  cases hc : c.current with
  | none => exact htoplevel
  | some k =>
      cases k with
      | definition => exact (halts_definition ops c).bind fun _ d _ => haltsAt_pure _ d
      | external => exact (halts_external c).bind fun _ d _ => haltsAt_pure _ d
      | _ => exact htoplevel

/-- A program returns. -/
theorem halts_program (c : Cursor τ) : HaltsAt (program ops) c (c.program ops) := by
  induction hsize : c.left using Nat.strongRecOn generalizing c with
  | ind size ih =>
      apply haltsAt_call
      rw [Cursor.program_eq]
      apply haltsAt_current
      cases hc : c.current with
      | none => exact haltsAt_pure [] c
      | some k =>
          refine haltsAt_ite (fun _ => haltsAt_advance ?_) fun _ => ?_
          · exact ih _ (hsize ▸ Cursor.left_advance_lt hc) c.advance rfl
          · apply (haltsAt_item ops c).bind
            intro x d hx
            have hrest := ih _ (hsize ▸ Cursor.left_lt_of_item_ok hx) d rfl
            exact hrest.bind fun xs e _ => haltsAt_pure _ e

/-- A step of recovery returns. -/
theorem halts_step (c : Cursor τ) : HaltsAt (step ops) c (.ok (c.step ops).1, (c.step ops).2) := by
  rw [Cursor.step]
  apply haltsAt_current
  split
  next => exact haltsAt_advance (haltsAt_pure _ _)
  next =>
    have hitem := (haltsAt_item ops c).bind fun x d _ =>
      haltsAt_pure (some (Except.ok x) : Option (Except ParseError Item)) d
    generalize c.item ops = r at hitem
    obtain ⟨result, d⟩ := r
    cases result with
    | ok x => exact haltsAt_catch_ok hitem
    | error e => exact haltsAt_catch_error hitem (haltsAt_advance (haltsAt_pure _ _))

/-- Recovery returns. -/
theorem halts_recover (c : Cursor τ) :
    HaltsAt (recover ops) c (.ok (c.recover ops).1, (c.recover ops).2) := by
  fun_induction Cursor.recover ops c with
  | case1 c hc =>
      apply haltsAt_call
      apply haltsAt_current
      rw [hc]
      exact haltsAt_pure [] c
  | case2 c k hc first hlt results last hrec ih =>
      apply haltsAt_call
      apply haltsAt_current
      rw [hc]
      rw [hrec] at ih
      have hrest (x : Option (Except ParseError Item)) :=
        ih.bind fun xs d _ => haltsAt_pure (x :: xs) d
      apply (halts_step ops c).bind (g := fun x _ => (.ok (x :: results), last))
      intro x d hd
      cases hd
      exact hrest _

end Productions

end Procedure

namespace Cursor

variable {τ : Type} [TokenStream τ] {ops : OpTable} {c d : Cursor τ}

/-- Advancing over at least one token leads from the first cursor to the second. -/
def Consumes (c d : Cursor τ) : Prop := ∃ k ks, c.Advances (k :: ks) d

/-- A cursor that is reached with fewer tokens left is reached over at least one token. -/
theorem consumes_of_left_lt (h : ∃ ks, c.Advances ks d) (hlt : d.left < c.left) : c.Consumes d := by
  obtain ⟨ks, hks⟩ := h
  cases hks with
  | done => exact absurd hlt (Nat.lt_irrefl _)
  | @next _ _ k ks hc hks => exact ⟨k, ks, .next hc hks⟩

/-- An expression that is read takes at least one token. -/
theorem consumes_of_expr_ok {e : Expr} (h : c.expr ops = (.ok e, d)) : c.Consumes d := by
  have hstops := (stops_expr ops c).1
  rw [h] at hstops
  exact consumes_of_left_lt hstops (left_lt_of_expr_ok h)

/-- A prototype that is read takes at least one token. -/
theorem consumes_of_prototype_ok {p : Prototype} (h : c.prototype = (.ok p, d)) : c.Consumes d := by
  have hstops := (stops_prototype c).1
  rw [h] at hstops
  refine consumes_of_left_lt hstops ?_
  rw [left, left, tokens_of_prototype_ok h, Prototype.tokens]
  simp only [List.length_append, List.length_cons]
  omega

/-- A bare expression that is read takes at least one token. -/
theorem consumes_of_toplevel_ok {f : Function} (h : c.toplevel ops = (.ok f, d)) : c.Consumes d := by
  obtain ⟨body, e, hbody, h⟩ := Outcome.andThen_eq_ok_iff.mp h
  cases h
  exact consumes_of_expr_ok hbody

/-- A program that is read stops at the end of input. -/
theorem current_of_program_ok {xs : List Item} (h : c.program ops = (.ok xs, d)) : d.current = none := by
  induction hsize : c.left using Nat.strongRecOn generalizing c xs with
  | ind size ih =>
      rw [program_eq] at h
      split at h
      next hc =>
        cases h
        exact hc
      next k hc =>
        split at h
        next => exact ih _ (hsize ▸ left_advance_lt hc) h rfl
        next =>
          obtain ⟨x, e, hx, h⟩ := Outcome.andThen_eq_ok_iff.mp h
          obtain ⟨ys, f, hys, h⟩ := Outcome.andThen_eq_ok_iff.mp h
          cases h
          exact ih _ (hsize ▸ left_lt_of_item_ok hx) hys rfl

/-- A step of recovery moves by advancing. -/
theorem advances_step (ops : OpTable) (c : Cursor τ) : ∃ ks, c.Advances ks (c.step ops).2 := by
  obtain ⟨ks, hks⟩ := (stops_item ops c).1
  unfold step
  split
  next => exact ⟨_, c.advances_advance⟩
  next =>
    split
    next x d hitem =>
      rw [hitem] at hks
      exact ⟨ks, hks⟩
    next e d hitem =>
      -- an item that fails at once has taken nothing; the token where it fails is left out with it
      rw [hitem] at hks
      exact ⟨_, hks.trans d.advances_advance⟩

/-- Recovery takes at least one token for each step, and so comes to the end in time. -/
theorem recover_ends (ops : OpTable) (c : Cursor τ) :
    (c.recover ops).2.current = none ∧ (c.recover ops).1.length ≤ c.left := by
  fun_induction recover ops c with
  | case1 c hc => exact ⟨hc, Nat.zero_le _⟩
  | case2 c k hc first hlt results last hrec ih =>
      rw [hrec] at ih
      refine ⟨ih.1, ?_⟩
      have hlength : results.length ≤ first.2.left := ih.2
      rw [List.length_cons]
      omega

/-- Wherever a parser stands, and whatever its table is, taking the next token, each production and recovery
return. An expression, a prototype or a bare expression that is read takes at least one token, and a program
that is read leaves none. Before the end a step of recovery takes at least one token, so recovery stands at
the end after no more steps than there were tokens. -/
theorem productions_return {σ : Type} [Source σ Char] (ops : OpTable) (c : Cursor (Lexer σ)) :
    Halts Reading.token c.rest.buffered (c.rest.next.1, c.rest.next.2.buffered) ∧
      (Procedure.HaltsAt (Procedure.primary ops) c (c.primary ops) ∧
        (∀ least lhs,
          Procedure.HaltsAt (fun n => Procedure.climb ops n least lhs) c (c.climb ops least lhs)) ∧
        Procedure.HaltsAt (Procedure.expr ops) c (c.expr ops) ∧
        Procedure.HaltsAt (Procedure.arguments ops) c (c.arguments ops)) ∧
      Procedure.HaltsAt Procedure.prototype c c.prototype ∧
      Procedure.HaltsAt (Procedure.definition ops) c (c.definition ops) ∧
      Procedure.HaltsAt Procedure.external c c.external ∧
      Procedure.HaltsAt (Procedure.toplevel ops) c (c.toplevel ops) ∧
      Procedure.HaltsAt (Procedure.program ops) c (c.program ops) ∧
      Procedure.HaltsAt (Procedure.recover ops) c (.ok (c.recover ops).1, (c.recover ops).2) ∧
      (∀ e d, c.expr ops = (.ok e, d) → c.Consumes d) ∧
      (∀ p d, c.prototype = (.ok p, d) → c.Consumes d) ∧
      (∀ f d, c.toplevel ops = (.ok f, d) → c.Consumes d) ∧
      (∀ xs d, c.program ops = (.ok xs, d) → d.current = none) ∧
      (∀ k, c.current = some k → c.Consumes (c.step ops).2) ∧
      (c.recover ops).2.current = none ∧ (c.recover ops).1.length ≤ c.left := by
  refine ⟨Reading.halts_token c.rest, Procedure.halts_productions ops c, Procedure.halts_prototype c,
    Procedure.halts_definition ops c, Procedure.halts_external c, Procedure.halts_toplevel ops c,
    Procedure.halts_program ops c, Procedure.halts_recover ops c, ?_, ?_, ?_, ?_, ?_, recover_ends ops c⟩
  · intro e d h
    exact consumes_of_expr_ok h
  · intro p d h
    exact consumes_of_prototype_ok h
  · intro f d h
    exact consumes_of_toplevel_ok h
  · intro xs d h
    exact current_of_program_ok h
  · intro k hc
    exact consumes_of_left_lt (advances_step ops c) (left_step_lt hc)

/-- A call is read as an expression, as a prototype, as a bare expression and as a program. -/
theorem productions_return_call :
    let c := Cursor.start (Lexer.ofText (.ofString "f(x)"))
    (c.expr .standard).1 = .ok (.call "f" [.var "x"]) ∧ c.Consumes (c.expr .standard).2 ∧
      c.prototype.1 = .ok ⟨"f", ["x"]⟩ ∧ c.Consumes c.prototype.2 ∧
      (c.toplevel .standard).1 = .ok ⟨.anonymous, .call "f" [.var "x"]⟩ ∧
      c.Consumes (c.toplevel .standard).2 ∧
      (c.program .standard).1 = .ok [.function ⟨.anonymous, .call "f" [.var "x"]⟩] ∧
      (c.program .standard).2.current = none ∧ c.current = some (.ident "f") ∧
      c.Consumes (c.step .standard).2 := by
  intro c
  obtain ⟨_, _, _, _, _, _, _, _, hexpr, hprototype, htoplevel, hprogram, hstep, _⟩ :=
    productions_return .standard c
  have htokens : c.tokens = .ident "f" :: .symbol '(' :: ([.ident "x"] ++ [.symbol ')']) := by
    unfold c
    rw [tokens_start_ofText, lex_eq_scan]
    change scan ['f', '(', 'x', ')'] = _
    simp (disch := decide) only [scan_word, scan_symbol, scan_nil, List.takeWhile_cons_of_neg,
      List.dropWhile_cons_of_neg]
    rfl
  have hderives : Grammar.Derives .standard (.expr (.call "f" [.var "x"])) c.tokens none := by
    rw [htokens]
    exact (Grammar.Derives.call (.lastArgument
      (Grammar.Derives.name (by decide)).expr_of_primary)).expr_of_primary
  obtain ⟨d, hd, _⟩ := returns_of_derives OpTable.separating_standard hderives c []
    (List.append_nil _).symm rfl rfl
  obtain ⟨e, he, _⟩ : ∃ e, c.prototype = (.ok ⟨"f", ["x"]⟩, e) ∧ e.tokens = [] :=
    prototype_of_tokens htokens
  have hcall : (c.expr .standard).1 = .ok (.call "f" [.var "x"]) := congrArg Prod.fst hd
  have hhead : c.prototype.1 = .ok ⟨"f", ["x"]⟩ := congrArg Prod.fst he
  have hbare : (c.toplevel .standard).1 = .ok ⟨.anonymous, .call "f" [.var "x"]⟩ := by
    rw [toplevel, hd, Outcome.ok_andThen]
  have hitems : (c.program .standard).1 = .ok [.function ⟨.anonymous, .call "f" [.var "x"]⟩] := by
    rw [program_ok_iff OpTable.separating_standard, ← List.append_nil c.tokens]
    exact .toplevel hderives .nil
  have hcurrent : c.current = some (.ident "f") := (of_tokens_eq_cons htokens).1
  exact ⟨hcall, hexpr _ _ (Prod.ext hcall rfl), hhead, hprototype _ _ (Prod.ext hhead rfl), hbare,
    htoplevel _ _ (Prod.ext hbare rfl), hitems, hprogram _ _ (Prod.ext hitems rfl), hcurrent,
    hstep _ hcurrent⟩

end Cursor

end ExprLang
