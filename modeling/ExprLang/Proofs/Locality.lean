import ExprLang.Parser.Item
import ExprLang.Proofs.Chain
import ExprLang.Proofs.Scan

/-!
# What a production looks at

A production takes tokens from the front of a cursor and looks at one token behind them. `Settled` says
this of an outcome, by comparison with other cursors, which may be over other streams: where the same
tokens stand in front and the same token, or the end, stands behind them, a production gives the same
answer and stops at the same place. It says at once that a failure names the token where it stops. The
property passes through `advance` and `andThen`, and so from the productions for expressions up to whole
programs.
-/

namespace ExprLang

namespace Cursor

variable {τ τ' α β : Type} [TokenStream τ] [TokenStream τ']

/-- The outcome at a cursor stops behind some of its tokens, a failure names the token there, and `f` ends
alike wherever these tokens stand in front of the same one. -/
def Settled (c : Cursor τ) (r : Outcome τ α) (f : Cursor τ' → Outcome τ' α) : Prop :=
  ∃ ks, c.tokens = ks ++ r.2.tokens ∧ (∀ e, r.1 = .error e → e.found = r.2.current) ∧
    ∀ c' rest, c'.tokens = ks ++ rest → rest.head? = r.2.current →
      ∃ d', f c' = (r.1, d') ∧ d'.tokens = rest

/-- Success without taking a token. -/
theorem settled_done (c : Cursor τ) (a : α) :
    Settled c (.ok a, c) fun c' : Cursor τ' => (.ok a, c') := by
  refine ⟨[], rfl, by simp, ?_⟩
  intro c' rest hc' _
  exact ⟨c', rfl, hc'⟩

/-- Failure at the current token. -/
theorem settled_fail (c : Cursor τ) (expected : Expected) :
    Settled c (c.fail expected : Outcome τ α) fun c' : Cursor τ' => c'.fail expected := by
  refine ⟨[], rfl, ?_, ?_⟩
  · rintro e ⟨⟩
    rfl
  · intro c' rest hc' hhead
    have hcurrent : c'.current = c.current := by
      rw [← head?_tokens, hc', List.nil_append, hhead]
      rfl
    exact ⟨c', by simp only [fail, hcurrent], hc'⟩

namespace Settled

variable {c : Cursor τ} {r : Outcome τ α} {f g : Cursor τ' → Outcome τ' α}

/-- The two cursors stand on the same token, so decisions on it are taken alike. -/
theorem congr (h : Settled c r f) (hfg : ∀ c' : Cursor τ', c'.current = c.current → g c' = f c') :
    Settled c r g := by
  obtain ⟨ks, hks, herror, hlocal⟩ := h
  refine ⟨ks, hks, herror, ?_⟩
  intro c' rest hc' hhead
  have hcurrent : c'.current = c.current := by
    rw [current_eq_or hks, ← hhead, ← head?_tokens, hc', List.head?_append]
  rw [hfg c' hcurrent]
  exact hlocal c' rest hc' hhead

/-- The current token may be taken first. -/
theorem advance {k : Token} (hc : c.current = some k) (h : Settled c.advance r f) :
    Settled c r fun c' => f c'.advance := by
  obtain ⟨ks, hks, herror, hlocal⟩ := h
  refine ⟨k :: ks, by rw [tokens_of_current_some hc, hks, List.cons_append], herror, ?_⟩
  intro c' rest hc' hhead
  exact hlocal c'.advance rest (of_tokens_eq_cons hc').2 hhead

/-- What is in front of the cursor where an outcome stops was in front of the first cursor. -/
theorem suffix (h : Settled c r f) : r.2.tokens <:+ c.tokens := by
  obtain ⟨ks, hks, _⟩ := h
  exact ⟨ks, hks.symm⟩

/-- The current token may be left out, whatever it is, and at the end nothing is. -/
theorem skip (h : Settled c.advance r f) : Settled c r fun c' => f c'.advance := by
  cases hc : c.current with
  | some k => exact h.advance hc
  | none =>
      rw [advance_of_current_none hc] at h
      apply h.congr
      intro c' hc'
      rw [advance_of_current_none (hc'.trans hc)]

/-- Going on looks at nothing more than the two parts do. -/
theorem andThen {next : α → Cursor τ → Outcome τ β} {next' : α → Cursor τ' → Outcome τ' β}
    (h : Settled c r f) (hnext : ∀ a d, r = (.ok a, d) → Settled d (next a d) (next' a)) :
    Settled c (r.andThen next) fun c' => (f c').andThen next' := by
  obtain ⟨ks, hks, herror, hlocal⟩ := h
  obtain ⟨result, d⟩ := r
  cases result with
  | error e =>
      rw [Outcome.error_andThen]
      refine ⟨ks, hks, ?_, ?_⟩
      · rintro e' ⟨⟩
        exact herror e rfl
      · intro c' rest hc' hhead
        obtain ⟨d', hd', hrest⟩ := hlocal c' rest hc' hhead
        exact ⟨d', by simp only [hd', Outcome.error_andThen], hrest⟩
  | ok a =>
      rw [Outcome.ok_andThen]
      obtain ⟨ls, hls, herror', hlocal'⟩ := hnext a d rfl
      refine ⟨ks ++ ls, by rw [hks, hls, List.append_assoc], herror', ?_⟩
      intro c' rest hc' hhead
      rw [List.append_assoc] at hc'
      -- the first part stops in front of what the second part takes, or of `rest`
      have hmiddle : (ls ++ rest).head? = d.current := by
        rw [List.head?_append, current_eq_or hls, ← hhead]
      obtain ⟨d', hd', htokens⟩ := hlocal c' (ls ++ rest) hc' hmiddle
      obtain ⟨e', he', hrest⟩ := hlocal' d' rest htokens hhead
      exact ⟨e', by simp only [hd', Outcome.ok_andThen, he'], hrest⟩

end Settled

/-- A decision on the current token. -/
theorem settled_ite {c : Cursor τ} {k : Token} {r s : Outcome τ α} {f g : Cursor τ' → Outcome τ' α}
    (hpos : c.current = some k → Settled c r f) (hneg : c.current ≠ some k → Settled c s g) :
    Settled c (if c.current = some k then r else s) fun c' =>
      if c'.current = some k then f c' else g c' := by
  by_cases hc : c.current = some k
  · rw [if_pos hc]
    apply (hpos hc).congr
    intro c' hc'
    rw [if_pos (hc'.trans hc)]
  · rw [if_neg hc]
    apply (hneg hc).congr
    intro c' hc'
    rw [if_neg (hc' ▸ hc)]

section Productions

variable {ops : OpTable} {c : Cursor τ}

/-- A primary looks no further than the arguments and the expressions inside it. -/
theorem settled_primary
    (hexpr : ∀ d : Cursor τ, d.left < c.left → Settled d (d.expr ops) fun c' : Cursor τ' => c'.expr ops)
    (hargs : ∀ d : Cursor τ, d.left < c.left →
      Settled d (d.arguments ops) fun c' : Cursor τ' => c'.arguments ops) :
    Settled c (c.primary ops) fun c' : Cursor τ' => c'.primary ops := by
  rw [primary_eq]
  split
  next value hc =>
    apply ((settled_done c.advance (Expr.literal value)).advance hc).congr
    intro c' hc'
    rw [primary_eq, hc', hc]
  next name hc =>
    have hlt := left_advance_lt hc
    have hle := c.advance.left_advance_le
    refine Settled.congr (Settled.advance (f := fun d' : Cursor τ' =>
      if d'.current = some (.symbol '(') then
        if d'.advance.current = some (.symbol ')') then (.ok (.call name []), d'.advance.advance)
        else (d'.advance.arguments ops).andThen fun args e' => (.ok (.call name args), e')
      else (.ok (.var name), d')) hc ?_) fun c' hc' => by rw [primary_eq, hc', hc]
    apply settled_ite
    · intro hopen
      refine Settled.advance (f := fun d' : Cursor τ' =>
        if d'.current = some (.symbol ')') then (.ok (Expr.call name []), d'.advance)
        else (d'.arguments ops).andThen fun args e' => (.ok (Expr.call name args), e')) hopen ?_
      apply settled_ite
      · intro hclose
        exact (settled_done _ _).advance hclose
      · intro _
        apply (hargs c.advance.advance (by omega)).andThen
        intro args d _
        exact settled_done d _
    · intro _
      exact settled_done _ _
  next s hc =>
    split
    next hopen =>
      subst hopen
      refine Settled.congr (Settled.advance (f := fun d' : Cursor τ' =>
        (d'.expr ops).andThen fun inner e' =>
          if e'.current = some (.symbol ')') then (.ok inner, e'.advance)
          else e'.fail .closeParen) hc ?_) fun c' hc' => by rw [primary_eq, hc', hc]; rfl
      apply (hexpr c.advance (left_advance_lt hc)).andThen
      intro inner d _
      apply settled_ite
      · intro hclose
        exact (settled_done _ _).advance hclose
      · intro _
        exact settled_fail d .closeParen
    next hopen =>
      apply (settled_fail c .expression).congr
      intro c' hc'
      rw [primary_eq, hc', hc]
      exact if_neg hopen
  next hnumber hident hsymbol =>
    apply (settled_fail c .expression).congr
    intro c' hc'
    rw [primary_eq, hc']
    split
    next value hc => exact absurd hc (hnumber value)
    next name hc => exact absurd hc (hident name)
    next s hc => exact absurd hc (hsymbol s)
    next => rfl

/-- Links look no further than the primaries and the links inside them. -/
theorem settled_links
    (hprimary : ∀ d : Cursor τ, d.left < c.left →
      Settled d (d.primary ops) fun c' : Cursor τ' => c'.primary ops)
    (hlinks : ∀ d : Cursor τ, d.left < c.left →
      Settled d (d.links ops (0 ≤ ·)) fun c' : Cursor τ' => c'.links ops (0 ≤ ·)) :
    Settled c (c.links ops (0 ≤ ·)) fun c' : Cursor τ' => c'.links ops (0 ≤ ·) := by
  rw [links_eq]
  split
  next hop =>
    apply (settled_done c []).congr
    intro c' hc'
    rw [links_eq, hc', hop]
  next op precedence hop =>
    have hc := (OpTable.operator?_eq_some_iff.mp hop).1
    have hlt := left_advance_lt hc
    split
    next hp =>
      refine Settled.congr (Settled.advance (f := fun d' : Cursor τ' =>
        (d'.primary ops).andThen fun operand e' =>
          (e'.links ops (0 ≤ ·)).andThen fun ls f' => (.ok (⟨op, precedence, operand⟩ :: ls), f'))
        hc ?_) fun c' hc' => links_of_operator (hc' ▸ hop) hp
      apply (hprimary c.advance hlt).andThen
      intro operand d hoperand
      have hlt' := left_lt_of_primary_ok hoperand
      apply (hlinks d (by omega)).andThen
      intro ls e _
      exact settled_done e _
    next hp =>
      apply (settled_done c []).congr
      intro c' hc'
      rw [links_eq, hc', hop]
      exact if_neg hp

/-- Arguments look no further than the expressions inside them. -/
theorem settled_arguments (hexpr : Settled c (c.expr ops) fun c' : Cursor τ' => c'.expr ops)
    (hargs : ∀ d : Cursor τ, d.left < c.left →
      Settled d (d.arguments ops) fun c' : Cursor τ' => c'.arguments ops) :
    Settled c (c.arguments ops) fun c' : Cursor τ' => c'.arguments ops := by
  rw [arguments_eq]
  refine Settled.congr (hexpr.andThen ?_) fun c' _ => arguments_eq ops c'
  intro arg d harg
  have hlt := left_lt_of_expr_ok harg
  apply settled_ite
  · intro hclose
    exact (settled_done _ _).advance hclose
  · intro _
    apply settled_ite
    · intro hcomma
      have hlt' := left_advance_lt hcomma
      refine Settled.advance (f := fun d' : Cursor τ' =>
        (d'.arguments ops).andThen fun args e' => (.ok (arg :: args), e')) hcomma ?_
      apply (hargs d.advance (by omega)).andThen
      intro args e _
      exact settled_done e _
    · intro _
      exact settled_fail d .argumentSeparator

/-- The productions for expressions look at no token behind the one where they stop. -/
theorem settled_productions (ops : OpTable) : ∀ c : Cursor τ,
    (Settled c (c.primary ops) fun c' : Cursor τ' => c'.primary ops) ∧
      (Settled c (c.links ops (0 ≤ ·)) fun c' : Cursor τ' => c'.links ops (0 ≤ ·)) ∧
      (Settled c (c.expr ops) fun c' : Cursor τ' => c'.expr ops) ∧
      Settled c (c.arguments ops) fun c' : Cursor τ' => c'.arguments ops := by
  apply production_induction
  case primary =>
    intro c ih
    exact settled_primary (fun d hd => (ih d hd).1) fun d hd => (ih d hd).2
  case links =>
    intro c ih
    exact settled_links (fun d hd => (ih d hd).1) fun d hd => (ih d hd).2
  case expr =>
    intro c hprimary hlinks
    rw [expr_eq_links]
    refine Settled.congr (hprimary.andThen ?_) fun c' _ => expr_eq_links ops c'
    intro first d hfirst
    apply (hlinks d (Nat.le_of_lt (left_lt_of_primary_ok hfirst))).andThen
    intro ls e _
    exact settled_done e _
  case arguments =>
    intro c hexpr ih
    exact settled_arguments hexpr ih

end Productions

/-- An identifier is a parameter, and what is no identifier ends the parameters. -/
theorem parameters_eq (c : Cursor τ) :
    c.parameters =
      match c.current with
      | some (.ident name) => (name :: c.advance.parameters.1, c.advance.parameters.2)
      | _ => ([], c) := by
  rw [parameters]
  split
  next name hc => rw [hc]
  next hne =>
    split
    next name hc => exact absurd hc (hne name)
    next => rfl

/-- Parameters end where no identifier stands. -/
theorem settled_parameters (c : Cursor τ) :
    Settled c (.ok c.parameters.1, c.parameters.2) fun c' : Cursor τ' =>
      (.ok c'.parameters.1, c'.parameters.2) := by
  induction hsize : c.left using Nat.strongRecOn generalizing c with
  | ind size ih =>
      rw [parameters_eq]
      split
      next name hc =>
        have hrest := ih _ (hsize ▸ left_advance_lt hc) c.advance rfl
        have hcons := hrest.andThen fun names d _ => settled_done d (name :: names)
        apply (hcons.advance hc).congr
        intro c' hc'
        rw [parameters_eq, hc', hc]
        rfl
      next hne =>
        apply (settled_done c []).congr
        intro c' hc'
        rw [parameters_eq, hc']
        split
        next name hc => exact absurd hc (hne name)
        next => rfl

/-- A prototype is a name, and parameters between parentheses. -/
theorem prototype_eq (c : Cursor τ) :
    c.prototype =
      match c.current with
      | some (.ident name) =>
          if c.advance.current = some (.symbol '(') then
            Outcome.andThen (.ok c.advance.advance.parameters.1, c.advance.advance.parameters.2)
              fun params d =>
                if d.current = some (.symbol ')') then (.ok ⟨name, params⟩, d.advance)
                else d.fail .prototypeClose
          else c.advance.fail .prototypeOpen
      | _ => c.fail .functionName := rfl

/-- A prototype looks at no token behind the one where it stops. -/
theorem settled_prototype (c : Cursor τ) :
    Settled c c.prototype fun c' : Cursor τ' => c'.prototype := by
  rw [prototype_eq]
  split
  next name hc =>
    refine Settled.congr (Settled.advance (f := fun d' : Cursor τ' =>
      if d'.current = some (.symbol '(') then
        Outcome.andThen (.ok d'.advance.parameters.1, d'.advance.parameters.2) fun params e' =>
          if e'.current = some (.symbol ')') then (.ok ⟨name, params⟩, e'.advance)
          else e'.fail .prototypeClose
      else d'.fail .prototypeOpen) hc ?_) fun c' hc' => by rw [prototype_eq, hc', hc]
    apply settled_ite
    · intro hopen
      refine Settled.advance (f := fun d' : Cursor τ' =>
        Outcome.andThen (.ok d'.parameters.1, d'.parameters.2) fun params e' =>
          if e'.current = some (.symbol ')') then (.ok (Prototype.mk name params), e'.advance)
          else e'.fail .prototypeClose) hopen ?_
      apply (settled_parameters c.advance.advance).andThen
      intro params d _
      apply settled_ite
      · intro hclose
        exact (settled_done _ _).advance hclose
      · intro _
        exact settled_fail d .prototypeClose
    · intro _
      exact settled_fail _ .prototypeOpen
  next hne =>
    apply (settled_fail c .functionName).congr
    intro c' hc'
    rw [prototype_eq, hc']
    split
    next name hc => exact absurd hc (hne name)
    next => rfl

/-- An expression looks at no token behind the one where it stops. -/
theorem settled_expr (ops : OpTable) (c : Cursor τ) :
    Settled c (c.expr ops) fun c' : Cursor τ' => c'.expr ops :=
  (settled_productions ops c).2.2.1

/-- A definition looks at no token behind the one where it stops. -/
theorem settled_definition (ops : OpTable) (c : Cursor τ) :
    Settled c (c.definition ops) fun c' : Cursor τ' => c'.definition ops := by
  have hbody (p : Prototype) (d : Cursor τ) :
      Settled d ((d.expr ops).andThen fun body e => (.ok (Function.mk p body), e))
        fun d' : Cursor τ' => (d'.expr ops).andThen fun body e' => (.ok ⟨p, body⟩, e') :=
    (settled_expr ops d).andThen fun body e _ => settled_done e _
  exact ((settled_prototype c.advance).andThen fun p d _ => hbody p d).skip

/-- A declaration looks at no token behind the one where it stops. -/
theorem settled_external (c : Cursor τ) : Settled c c.external fun c' : Cursor τ' => c'.external :=
  (settled_prototype c.advance).skip

/-- A bare expression looks at no token behind the one where it stops. -/
theorem settled_toplevel (ops : OpTable) (c : Cursor τ) :
    Settled c (c.toplevel ops) fun c' : Cursor τ' => c'.toplevel ops :=
  (settled_expr ops c).andThen fun body d _ => settled_done d (⟨.anonymous, body⟩ : Function)

/-- An item looks at no token behind the one where it stops. -/
theorem settled_item (ops : OpTable) (c : Cursor τ) :
    Settled c (c.item ops) fun c' : Cursor τ' => c'.item ops := by
  unfold item
  split
  next hc =>
    apply ((settled_definition ops c).andThen fun f d _ => settled_done d (Item.function f)).congr
    intro c' hc'
    rw [hc', hc]
  next hc =>
    apply ((settled_external c).andThen fun p d _ => settled_done d (Item.external p)).congr
    intro c' hc'
    rw [hc', hc]
  next hdefinition hexternal =>
    apply ((settled_toplevel ops c).andThen fun f d _ => settled_done d (Item.function f)).congr
    intro c' hc'
    rw [hc']
    split
    next hc => exact absurd hc hdefinition
    next hc => exact absurd hc hexternal
    next => rfl

/-- A program looks at no token behind the one where it stops. -/
theorem settled_program (ops : OpTable) (c : Cursor τ) :
    Settled c (c.program ops) fun c' : Cursor τ' => c'.program ops := by
  induction hsize : c.left using Nat.strongRecOn generalizing c with
  | ind size ih =>
      rw [program_eq]
      split
      next hc =>
        apply (settled_done c []).congr
        intro c' hc'
        rw [program_eq, hc', hc]
      next k hc =>
        split
        next hsemicolon =>
          have hrest := ih _ (hsize ▸ left_advance_lt hc) c.advance rfl
          apply (hrest.advance hc).congr
          intro c' hc'
          rw [program_eq, hc', hc]
          exact if_pos hsemicolon
        next hsemicolon =>
          have hitem : Settled c (c.item ops) fun c' : Cursor τ' => c'.item ops := settled_item ops c
          apply (hitem.andThen fun x d hx =>
            (ih _ (hsize ▸ left_lt_of_item_ok hx) d rfl).andThen fun xs e _ =>
              settled_done e (x :: xs)).congr
          intro c' hc'
          rw [program_eq, hc', hc]
          exact if_neg hsemicolon

variable {c d : Cursor τ}

/-- Every token in front of a cursor can be spelled. -/
def Spelled (c : Cursor τ) : Prop := ∀ k ∈ c.tokens, ∃ w, Spells w k

/-- This stays so further on. -/
theorem Spelled.of_suffix (hc : c.Spelled) (hd : d.tokens <:+ c.tokens) : d.Spelled :=
  fun k hk => hc k (hd.subset hk)

/-- This stays so behind the current token. -/
theorem Spelled.advance (hc : c.Spelled) : c.advance.Spelled :=
  hc.of_suffix (c.tokens_advance ▸ c.tokens.tail_suffix)

/-- This stays so where a production stops. -/
theorem Spelled.settled {r : Outcome τ α} {f : Cursor τ → Outcome τ α} (hc : c.Spelled)
    (h : Settled c r f) : r.2.Spelled :=
  hc.of_suffix h.suffix

/-- The tokens of a lexer can be spelled. -/
theorem spelled_start {σ : Type} [Source σ Char] (l : Lexer σ) : (start l).Spelled := by
  intro k hk
  rw [tokens_start, Lexer.items_eq_scan] at hk
  exact exists_spells hk

end Cursor

end ExprLang
