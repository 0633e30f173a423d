import ExprLang.Proofs.Grammar
import ExprLang.Proofs.Simulation

/-!
# Where a failed production stops

A production moves by advancing and by nothing else, so the tokens that it takes are those that it advances
over. `Advances` lists them. A production that fails does so at the token where it stops: it has advanced
over the tokens in front of that one, and not over that one itself, which the error names. This holds for
every relation that advancing keeps, so it is read off the simulation and needs no induction over the
productions, and it does not matter which symbols the table makes operators.
-/

namespace ExprLang

variable {τ τ' α : Type} [TokenStream τ] [TokenStream τ']

/-- An outcome that is like another one fails, if it does, at the token that its error names. -/
theorem Outcome.Alike.found_eq {R : Cursor τ → Cursor τ' → Prop} {r : Outcome τ α} {r' : Outcome τ' α}
    (h : Alike R r r') {e : ParseError} (he : r.1 = .error e) : e.found = r.2.current := by
  cases h with
  | ok a _ => simp at he
  | fail expected _ =>
      cases he
      rfl

namespace Cursor

open Outcome (Alike)

/-- Advancing over the listed tokens, one after another, leads from the first cursor to the second. -/
inductive Advances : Cursor τ → List Token → Cursor τ → Prop
  | done {c : Cursor τ} : Advances c [] c
  | next {c d : Cursor τ} {k : Token} {ks : List Token} (hc : c.current = some k)
      (h : Advances c.advance ks d) : Advances c (k :: ks) d

variable {c d e : Cursor τ} {ks ls : List Token}

/-- The tokens that are advanced over were in front of the first cursor. -/
theorem Advances.tokens_eq (h : c.Advances ks d) : c.tokens = ks ++ d.tokens := by
  induction h with
  | done => rfl
  | next hc _ ih => rw [tokens_of_current_some hc, ih, List.cons_append]

/-- Advancing goes on from where it has led. -/
theorem Advances.trans (h : c.Advances ks d) (h' : d.Advances ls e) : c.Advances (ks ++ ls) e := by
  induction h with
  | done => exact h'
  | next hc _ ih => exact .next hc (ih h')

/-- To advance once is to advance over the current token, and over nothing at the end. -/
theorem advances_advance (c : Cursor τ) : c.Advances c.current.toList c.advance := by
  cases hc : c.current with
  | none =>
      rw [advance_of_current_none hc]
      exact .done
  | some k => exact .next hc .done

/-- The outcome is reached by advancing, and a failure names the token where it stops. -/
def Stops (c : Cursor τ) (r : Outcome τ α) : Prop :=
  (∃ ks, c.Advances ks r.2) ∧ ∀ e, r.1 = .error e → e.found = r.2.current

/-- An outcome that is like itself for every relation that advancing keeps stops in this way. -/
theorem stops_of_alike {r : Outcome τ α}
    (h : ∀ {R : Cursor τ → Cursor τ → Prop}, Bisimulation R → R c c → Alike R r r) : c.Stops r := by
  have hreached : Bisimulation fun d d' : Cursor τ => d' = d ∧ ∃ ks, c.Advances ks d := by
    constructor
    · rintro d d' ⟨rfl, _⟩
      rfl
    · rintro d d' ⟨rfl, ks, hks⟩
      exact ⟨rfl, ks ++ d'.current.toList, hks.trans d'.advances_advance⟩
  have halike := h hreached ⟨rfl, [], .done⟩
  exact ⟨halike.cursor.2, fun _ he => halike.found_eq he⟩

/-- An expression stops where it fails. -/
theorem stops_expr (ops : OpTable) (c : Cursor τ) : c.Stops (c.expr ops) :=
  stops_of_alike fun h hc => (h.simulation ops).expr hc

/-- A prototype stops where it fails. -/
theorem stops_prototype (c : Cursor τ) : c.Stops c.prototype :=
  stops_of_alike fun h hc => (h.simulation .empty).prototype hc

/-- A definition stops where it fails. -/
theorem stops_definition (ops : OpTable) (c : Cursor τ) : c.Stops (c.definition ops) :=
  stops_of_alike fun h hc => (h.simulation ops).definition (h.advance hc)

/-- A declaration stops where it fails. -/
theorem stops_external (c : Cursor τ) : c.Stops c.external :=
  stops_of_alike fun h hc => (h.simulation .empty).prototype (h.advance hc)

/-- A bare expression stops where it fails. -/
theorem stops_toplevel (ops : OpTable) (c : Cursor τ) : c.Stops (c.toplevel ops) :=
  stops_of_alike fun h hc => (h.simulation ops).toplevel hc

/-- An item stops where it fails. -/
theorem stops_item (ops : OpTable) (c : Cursor τ) : c.Stops (c.item ops) :=
  stops_of_alike fun h hc => (h.simulation ops).item hc

/-- A program stops where it fails. -/
theorem stops_program (ops : OpTable) (c : Cursor τ) : c.Stops (c.program ops) :=
  stops_of_alike fun h hc => h.program ops hc

end Cursor

namespace Session

open Cursor

/-- A command moves its session by advancing, and if it answers with an error, that error names the token
where the session then stands. -/
def Moves (s : Session τ) (x : Answer × Session τ) : Prop :=
  (∃ ks, s.cursor.Advances ks x.2.cursor) ∧ ∀ e, x.1 = .error e → e.found = x.2.cursor.current

/-- An outcome settles at the cursor where its production stops. -/
theorem moves_settle {s : Session τ} {r : Outcome τ α} {answer : α → Answer}
    (hanswer : ∀ a e, answer a ≠ .error e) (h : s.cursor.Stops r) : s.Moves (s.settle answer r) := by
  obtain ⟨result, d⟩ := r
  obtain ⟨hadvances, herror⟩ := h
  cases result with
  | ok a => exact ⟨hadvances, fun e he => absurd he (hanswer a e)⟩
  | error e =>
      refine ⟨hadvances, ?_⟩
      rintro e' ⟨⟩
      exact herror e rfl

/-- Whatever is asked, a session moves by advancing and fails where it then stands. -/
theorem moves_run (s : Session τ) (command : Command) : s.Moves (s.run command) := by
  have hstay (ops : OpTable) {answer : Answer} (hanswer : ∀ e, answer ≠ .error e) :
      s.Moves (answer, { s with ops := ops }) :=
    ⟨⟨[], .done⟩, fun e he => absurd he (hanswer e)⟩
  cases command with
  | advance => exact ⟨⟨_, s.cursor.advances_advance⟩, nofun⟩
  | expr => exact moves_settle nofun (stops_expr s.ops s.cursor)
  | prototype => exact moves_settle nofun (stops_prototype s.cursor)
  | definition => exact moves_settle nofun (stops_definition s.ops s.cursor)
  | external => exact moves_settle nofun (stops_external s.cursor)
  | toplevel => exact moves_settle nofun (stops_toplevel s.ops s.cursor)
  | program => exact moves_settle nofun (stops_program s.ops s.cursor)
  | setOperator c precedence => exact hstay _ nofun
  | removeOperator c => exact hstay _ nofun
  | table => exact hstay _ nofun

/-- All that has been asked has moved the session by advancing. -/
theorem advances_after (s : Session τ) (commands : List Command) :
    ∃ ks, s.cursor.Advances ks (s.after commands).cursor := by
  induction commands generalizing s with
  | nil => exact ⟨[], .done⟩
  | cons command commands ih =>
      obtain ⟨ks, hks⟩ := (s.moves_run command).1
      obtain ⟨ls, hls⟩ := ih (s.run command).2
      exact ⟨ks ++ ls, hks.trans hls⟩

/-- A command that fails stops on the token that its error names, wherever its session has come to from the
start of a stream and whatever its table is. The tokens of the stream are those that had been advanced over
before, then those that the command advances over, then those that are still in front. The error names the
current one of these, or the end, and advancing once more takes that token and no other. -/
theorem run_error_found (t : τ) (ops : OpTable) (commands : List Command) (command : Command) :
    let s := (mk ops (.start t)).after commands
    let d := (s.run command).2.cursor
    ∀ e, (s.run command).1 = .error e →
      ∃ before taken, TokenStream.collect t = before ++ taken ++ d.tokens ∧
        (Cursor.start t).Advances before s.cursor ∧ s.cursor.Advances taken d ∧ d.current = e.found ∧
        d.Advances e.found.toList d.advance ∧ d.tokens = e.found.toList ++ d.advance.tokens := by
  intro s d e he
  obtain ⟨before, hbefore⟩ := advances_after (mk ops (.start t)) commands
  obtain ⟨⟨taken, htaken⟩, herror⟩ := s.moves_run command
  have hfound : e.found = d.current := herror e he
  have hnext : d.Advances e.found.toList d.advance := hfound ▸ d.advances_advance
  refine ⟨before, taken, ?_, hbefore, htaken, hfound.symm, hnext, hnext.tokens_eq⟩
  have hstart : (Cursor.start t).tokens = before ++ s.cursor.tokens := hbefore.tokens_eq
  rw [TokenStream.collect_eq_items, ← tokens_start, hstart, htaken.tokens_eq, List.append_assoc]

/-- With the parenthesis for an operator a group is not closed by it: the name behind it is an operand, and
the group fails at the end. -/
theorem run_error_found_group :
    let s := (mk (OpTable.standard.insert ')' 5) (.start (Lexer.ofText (.ofString "f;(x) y")))).after
      [.toplevel, .advance]
    let d := (s.run .expr).2.cursor
    (s.run .expr).1 = .error ⟨.closeParen, none⟩ ∧
      ∃ before taken, lex "f;(x) y" = before ++ taken ++ d.tokens ∧ s.cursor.Advances taken d ∧
        d.current = none := by
  intro s d
  have hanswer : (s.run .expr).1 = .error ⟨.closeParen, none⟩ := by
    have htokens : (Cursor.start (Lexer.ofText (.ofString "f;(x) y"))).tokens =
        [.ident "f", .symbol ';', .symbol '(', .ident "x", .symbol ')', .ident "y"] := by
      rw [tokens_start_ofText, lex_eq_scan]
      change scan ['f', ';', '(', 'x', ')', ' ', 'y'] = _
      simp (disch := decide) only [scan_word, scan_symbol, scan_blank, scan_nil,
        List.takeWhile_cons_of_neg, List.dropWhile_cons_of_neg, List.takeWhile_nil, List.dropWhile_nil]
      rfl
    have hstop : (OpTable.standard.insert ')' 5).operator? (some (.symbol ';')) = none := by decide
    have hoperator : (OpTable.standard.insert ')' 5).operator? (some (.symbol ')')) = some (')', 5) := by
      decide
    simp only [s, after, run]
    generalize Cursor.start (Lexer.ofText (.ofString "f;(x) y")) = c at htokens
    generalize OpTable.standard.insert ')' 5 = ops at hstop hoperator
    obtain ⟨hf, htokens⟩ := Cursor.of_tokens_eq_cons htokens
    obtain ⟨hsemicolon, htokens⟩ := Cursor.of_tokens_eq_cons htokens
    obtain ⟨hopen, htokens⟩ := Cursor.of_tokens_eq_cons htokens
    obtain ⟨hx, htokens⟩ := Cursor.of_tokens_eq_cons htokens
    obtain ⟨hclose, htokens⟩ := Cursor.of_tokens_eq_cons htokens
    obtain ⟨hy, htokens⟩ := Cursor.of_tokens_eq_cons htokens
    have hend : c.advance.advance.advance.advance.advance.advance.current = none := by
      rw [← Cursor.head?_tokens, htokens, List.head?_nil]
    have hfirst : c.toplevel ops = (.ok ⟨.anonymous, .var "f"⟩, c.advance) := by
      rw [Cursor.toplevel, Cursor.expr_eq, Cursor.primary_of_name hf (by simp [hsemicolon]),
        Outcome.ok_andThen, Cursor.climb_eq, hsemicolon, hstop, Outcome.ok_andThen]
    -- the parenthesis is taken for an operator, and the name behind it for the last operand
    have hinner : c.advance.advance.advance.expr ops = (.ok (.binary ')' (.var "x") (.var "y")),
        c.advance.advance.advance.advance.advance.advance) := by
      have hdone (lhs : Expr) := Cursor.climb_eq ops 0 lhs c.advance.advance.advance.advance.advance.advance
      simp only [hend, OpTable.operator?] at hdone
      rw [Cursor.expr_eq, Cursor.primary_of_name hx (by simp [hclose]), Outcome.ok_andThen, Cursor.climb_eq,
        hclose, hoperator]
      simp [Cursor.primary_of_name hy (by simp [hend]), hend, hdone, OpTable.bindsTighter, OpTable.operator?]
    have hgroup : c.advance.advance.primary ops =
        (.error ⟨.closeParen, none⟩, c.advance.advance.advance.advance.advance.advance) := by
      rw [Cursor.primary_eq, hopen]
      simp [hinner, hend, Cursor.fail]
    simp [hfirst, Cursor.expr_eq, hgroup, settle]
  obtain ⟨before, taken, hlex, _, htaken, hcurrent, _⟩ :=
    run_error_found (Lexer.ofText (.ofString "f;(x) y")) (OpTable.standard.insert ')' 5)
      [.toplevel, .advance] .expr ⟨.closeParen, none⟩ hanswer
  exact ⟨hanswer, before, taken, hlex, htaken, hcurrent⟩

end Session

end ExprLang
