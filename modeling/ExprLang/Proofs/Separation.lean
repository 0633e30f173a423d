import ExprLang.Proofs.Grammar
import ExprLang.Proofs.Simulation

/-!
# Semicolons between programs

Two texts with a line break and a semicolon between them are parsed one after the other. The break keeps
the tokens of the first text as they are. Up to the semicolon every item is read as it is read at the end
of the first text alone, because no production takes a semicolon and none asks whether it stands at the
end. So an error of the first text stays, and only names the semicolon where it named the end.
-/

namespace ExprLang

/-- The error of a text that has the token behind it. -/
def ParseError.before (e : ParseError) (k : Token) : ParseError := ⟨e.expected, e.found.or (some k)⟩

/-- What is done with the answer of a success is done with the result. -/
theorem Outcome.fst_andThen_ok {τ α β : Type} [TokenStream τ] (r : Outcome τ α) (f : α → β) :
    (r.andThen fun a c => (.ok (f a), c)).1 = r.1.map f := by
  obtain ⟨result, c⟩ := r
  cases result <;> rfl

namespace Cursor

variable {τ τ' : Type} [TokenStream τ] [TokenStream τ'] {ops : OpTable} {ls : List Token}

/-- The tokens in front of the first cursor stand before a semicolon in front of the second one. -/
def Separated (ls : List Token) (c : Cursor τ) (c' : Cursor τ') : Prop :=
  c'.tokens = c.tokens ++ .symbol ';' :: ls

/-- The token at the second cursor is that at the first one, or the semicolon at its end. -/
theorem Separated.current {c : Cursor τ} {c' : Cursor τ'} (h : Separated ls c c') :
    c'.current = c.current.or (some (.symbol ';')) := by
  rw [← head?_tokens, h, List.head?_append, head?_tokens, List.head?_cons]

/-- Productions for items do the same on both sides, if the semicolon is no operator. -/
theorem simulation_separated (hops : ops.operator? (some (.symbol ';')) = none) :
    Simulation ops (Separated ls : Cursor τ → Cursor τ' → Prop) where
  alike := by
    intro c c' h
    rw [OpTable.Alike, h.current]
    cases hc : c.current with
    | none => exact .inr ⟨rfl, rfl, hops⟩
    | some k => exact .inl rfl
  advance := by
    intro c c' k h hk
    rw [Separated, tokens_of_current_some hk, List.cons_append] at h
    exact (of_tokens_eq_cons h).2

/-- A program with a semicolon and tokens behind it goes on with these tokens, or fails where it fails
alone. -/
theorem program_separated (hops : ops.operator? (some (.symbol ';')) = none) {c : Cursor τ}
    {c' d : Cursor τ'} (h : Separated ls c c') (hd : d.tokens = ls) :
    (c'.program ops).1 =
      match (c.program ops).1, (d.program ops).1 with
      | .ok xs, .ok ys => .ok (xs ++ ys)
      | .ok _, .error e => .error e
      | .error e, _ => .error (e.before (.symbol ';')) := by
  have hsim : Simulation ops (Separated ls : Cursor τ → Cursor τ' → Prop) := simulation_separated hops
  induction hsize : c.left using Nat.strongRecOn generalizing c c' with
  | ind size ih =>
      cases hc : c.current with
      | none =>
          -- behind the semicolon stand the tokens of `d`
          have hcurrent : c'.current = some (.symbol ';') := by rw [h.current, hc]; rfl
          have htokens : c'.advance.tokens = d.tokens := by
            rw [tokens_advance, h, tokens_of_current_none hc, hd]
            rfl
          have hrest := bisimulation_tokens.program ops htokens
          have hresult := hrest.result_eq (bisimulation_tokens.current hrest.cursor)
          rw [program_eq ops c, program_eq ops c', hc, hcurrent]
          simp only [↓reduceIte, hresult]
          cases (d.program ops).1 <;> rfl
      | some k =>
          rw [program_eq ops c, program_eq ops c', hsim.current h hc, hc]
          dsimp only
          split
          next => exact ih _ (hsize ▸ left_advance_lt hc) (hsim.advance h hc) rfl
          next =>
            have hitem := hsim.item h
            generalize hr : c.item ops = r at hitem
            generalize c'.item ops = r' at hitem
            cases hitem with
            | @ok e e' x he =>
                have hrest := ih _ (hsize ▸ left_lt_of_item_ok hr) he rfl
                rw [Outcome.ok_andThen, Outcome.ok_andThen, Outcome.fst_andThen_ok,
                  Outcome.fst_andThen_ok, hrest]
                cases (e.program ops).1 <;> cases (d.program ops).1 <;> rfl
            | @fail e e' expected he => simp [fail, ParseError.before, he.current]

end Cursor

/-- The tokens of two texts with a line break and a semicolon between them. -/
theorem lex_append_semicolon (a b : String) :
    lex (a ++ "\n;" ++ b) = lex a ++ .symbol ';' :: lex b := by
  have htext : (a ++ "\n;" ++ b).toList = a.toList ++ '\n' :: ';' :: b.toList := by simp
  rw [lex_eq_scan, htext, scan_append_lineEnd rfl, scan_symbol (by decide), ← lex_eq_scan, ← lex_eq_scan]

/-- Two texts with a line break and a semicolon between them are parsed one after the other: the items of
both, or the first error. An error of the first text stays as it is, and names the semicolon if it named
the end of input. -/
theorem parse_append_semicolon (a b : String) :
    parse (a ++ "\n;" ++ b) =
      match parse a, parse b with
      | .ok xs, .ok ys => .ok (xs ++ ys)
      | .ok _, .error e => .error e
      | .error e, _ => .error (e.before (.symbol ';')) := by
  have hops := OpTable.separating_standard.operator?_eq_none (c := ';') (by simp)
  refine Cursor.program_separated hops ?_ (tokens_start_ofText b)
  rw [Cursor.Separated, tokens_start_ofText, tokens_start_ofText, lex_append_semicolon]

end ExprLang
