import ExprLang.Proofs.Grammar
import ExprLang.Proofs.Locality
import ExprLang.Proofs.WellFormed

/-!
# Where errors stand and what they ask for

An error stands at the first token that no program has there. What was taken before it is the beginning
of some program, and so is what was taken with a token of the kind that the error asks for. The second
part is the one with work in it: every failure is followed up through the constructs that are open where
it happens, and each of them is closed by the shortest tokens that do it.
-/

namespace ExprLang

/-- The test is passed by every symbol that is asked for, and by some number or some name where one of
these is. -/
def Expected.Asks (test : Token → Prop) : Expected → Prop
  | expression => ∃ value, test (.number value)
  | closeParen => test (.symbol ')')
  | argumentSeparator => test (.symbol ')') ∧ test (.symbol ',')
  | functionName => ∃ name, test (.ident name)
  | prototypeOpen => test (.symbol '(')
  | prototypeClose => test (.symbol ')')

/-- A weaker test is passed as well. -/
theorem Expected.Asks.imp {test test' : Token → Prop} {expected : Expected}
    (h : expected.Asks test) (htest : ∀ k, test k → test' k) : expected.Asks test' := by
  cases expected with
  | expression =>
      obtain ⟨value, hvalue⟩ := h
      exact ⟨value, htest _ hvalue⟩
  | functionName =>
      obtain ⟨name, hname⟩ := h
      exact ⟨name, htest _ hname⟩
  | argumentSeparator => exact ⟨htest _ h.1, htest _ h.2⟩
  | closeParen => exact htest _ h
  | prototypeOpen => exact htest _ h
  | prototypeClose => exact htest _ h

namespace Grammar

/-- The tokens make up a phrase of a kind, whatever follows them. -/
def Closed {α : Type} (ops : OpTable) (kind : α → Phrase) (ks : List Token) : Prop :=
  ∃ a, ∀ next, Derives ops (kind a) ks next

/-- The tokens make up arguments and the parenthesis that closes them. -/
def ClosedArguments (ops : OpTable) (ks : List Token) : Prop :=
  ∃ es ls, ks = ls ++ [.symbol ')'] ∧ Derives ops (.arguments es) ls (some (.symbol ')'))

/-- Behind `ks` the token and more tokens that can be written make up something that is accepted. Where
`ks` is empty the token is no parenthesis, so a name in front of it is not made a call. -/
def Completes (accepted : List Token → Prop) (ks : List Token) (k : Token) : Prop :=
  (ks = [] → k ≠ .symbol '(') ∧ ∃ ls, (∀ j ∈ k :: ls, ∃ w, Spells w j) ∧ accepted (ks ++ k :: ls)

/-- The tokens that close what is open. -/
def closing : List Token :=
  [.number .zero, .ident "f", .symbol '(', .symbol ')', .symbol ',']

/-- The tokens that close what is open can be written. -/
theorem spells_closing {ks : List Token} (h : ∀ k ∈ ks, k ∈ closing) : ∀ k ∈ ks, ∃ w, Spells w k := by
  intro k hk
  have hclosing := h k hk
  simp only [closing, List.mem_cons, List.not_mem_nil, or_false] at hclosing
  rcases hclosing with rfl | rfl | rfl | rfl | rfl
  · have hzero : Token.ofNumeral ['0'] = .number .zero := by decide +kernel
    exact ⟨['0'], hzero ▸ .numeral (by decide) (by simp)⟩
  · exact ⟨_, IsIdentifier.spells (by decide)⟩
  · exact ⟨_, .symbol (by decide)⟩
  · exact ⟨_, .symbol (by decide)⟩
  · exact ⟨_, .symbol (by decide)⟩

end Grammar

namespace Cursor

open Grammar

variable {τ : Type} [TokenStream τ] {ops : OpTable} {accepted accepted' : List Token → Prop}

/-- An error at `d` asks for tokens that complete what was taken from `c` on. -/
def Asks (accepted : List Token → Prop) (c : Cursor τ) (e : ParseError) (d : Cursor τ) : Prop :=
  ∃ ks, c.tokens = ks ++ d.tokens ∧ e.expected.Asks (Completes accepted ks)

/-- What completes a part completes the whole, with the tokens before the part and those that close the
whole. The part then begins with the token that it began with, or with no parenthesis. -/
theorem Asks.extend {c d f : Cursor τ} {e : ParseError} (h : d.Asks accepted e f)
    (before after : List Token) (hbefore : c.tokens = before ++ d.tokens)
    (hafter : ∀ j ∈ after, ∃ w, Spells w j)
    (haccepted : ∀ ks, accepted ks →
      (∀ next, ks.head?.or next = d.current ∨ ks.head?.or next ≠ some (.symbol '(')) →
      accepted' (before ++ (ks ++ after))) : c.Asks accepted' e f := by
  obtain ⟨ks, hks, hasks⟩ := h
  refine ⟨before ++ ks, by rw [hbefore, hks, List.append_assoc], hasks.imp ?_⟩
  rintro k ⟨hfirst, ls, hspells, hls⟩
  refine ⟨fun hnil => hfirst (List.append_eq_nil_iff.mp hnil).2, ls ++ after, ?_, ?_⟩
  · intro j hj
    rw [← List.cons_append] at hj
    rcases List.mem_append.mp hj with hj | hj
    · exact hspells j hj
    · exact hafter j hj
  · have hhead (next : Option Token) : (ks ++ k :: ls).head?.or next = d.current ∨
        (ks ++ k :: ls).head?.or next ≠ some (.symbol '(') := by
      -- what was taken keeps its first token; where nothing was taken the completion begins with `k`
      cases ks with
      | nil => exact .inr fun hk => hfirst rfl (Option.some.inj hk)
      | cons j ks => exact .inl (by rw [← head?_tokens, hks]; rfl)
    have h := haccepted _ hls hhead
    simpa using h

/-- Where an expression should begin a number can stand. -/
theorem asks_expression (c : Cursor τ) : c.Asks (Closed ops .primary) ⟨.expression, c.current⟩ c :=
  ⟨[], rfl, .zero, by simp, [], spells_closing (by decide), _, fun next => .number⟩

/-- What completes the arguments completes the call. -/
theorem asks_call {c d : Cursor τ} {e : ParseError} {name : String}
    (hc : c.current = some (.ident name)) (hopen : c.advance.current = some (.symbol '('))
    (h : c.advance.advance.Asks (ClosedArguments ops) e d) : c.Asks (Closed ops .primary) e d := by
  refine h.extend [.ident name, .symbol '('] [] ?_ (by simp) ?_
  · rw [tokens_of_current_some hc, tokens_of_current_some hopen]
    rfl
  · rintro ks ⟨es, ls, rfl, hargs⟩ _
    rw [List.append_nil]
    exact ⟨_, fun next => .call hargs⟩

/-- What completes the expression in parentheses completes the group, with a parenthesis behind it. -/
theorem asks_group {c d : Cursor τ} {e : ParseError} (hc : c.current = some (.symbol '('))
    (h : c.advance.Asks (Closed ops .expr) e d) : c.Asks (Closed ops .primary) e d := by
  refine h.extend [.symbol '('] [.symbol ')'] (tokens_of_current_some hc) (spells_closing (by decide)) ?_
  rintro ks ⟨inner, hinner⟩ _
  exact ⟨inner, fun next => .group (hinner _)⟩

/-- Behind the expression in parentheses a parenthesis can stand. -/
theorem asks_closeParen {c d : Cursor τ} {inner : Expr} (hc : c.current = some (.symbol '('))
    (h : c.advance.Reads ops (.expr inner) d) :
    c.Asks (Closed ops .primary) ⟨.closeParen, d.current⟩ d := by
  obtain ⟨ks, hks, hinner⟩ := h
  refine ⟨.symbol '(' :: ks, ?_, by simp, [], spells_closing (by decide), inner, ?_⟩
  · rw [tokens_of_current_some hc, hks, List.cons_append]
  · intro next
    exact .group (hinner.replace_next (.inr (by simp)))

/-- What completes the operand behind an operator completes the links. -/
theorem asks_operand {c d : Cursor τ} {e : ParseError} {op : Char} {precedence : Int32}
    (hop : ops.operator? c.current = some (op, precedence))
    (h : c.advance.Asks (Closed ops .primary) e d) : c.Asks (Closed ops .links) e d := by
  obtain ⟨hc, hoperator⟩ := OpTable.operator?_eq_some_iff.mp hop
  refine h.extend [.symbol op] [] (tokens_of_current_some hc) (by simp) ?_
  rintro ks ⟨operand, hoperand⟩ _
  rw [List.singleton_append]
  exact ⟨_, fun next => .link hoperator (hoperand _) .noLinks⟩

/-- What completes the links behind a link completes both. -/
theorem asks_link {c d f : Cursor τ} {e : ParseError} {op : Char} {precedence : Int32}
    {operand : Expr} (hop : ops.operator? c.current = some (op, precedence))
    (hoperand : c.advance.Reads ops (.primary operand) d) (h : d.Asks (Closed ops .links) e f) :
    c.Asks (Closed ops .links) e f := by
  obtain ⟨hc, hoperator⟩ := OpTable.operator?_eq_some_iff.mp hop
  obtain ⟨ks, hks, hprimary⟩ := hoperand
  refine h.extend (.symbol op :: ks) [] ?_ (by simp) ?_
  · rw [tokens_of_current_some hc, hks, List.cons_append]
  · rintro ls ⟨links, hlinks⟩ hhead
    rw [List.append_nil]
    exact ⟨_, fun next => .link hoperator (hprimary.replace_next (hhead next)) (hlinks next)⟩

/-- What completes the first operand completes the expression. -/
theorem asks_first {c d : Cursor τ} {e : ParseError} (h : c.Asks (Closed ops .primary) e d) :
    c.Asks (Closed ops .expr) e d := by
  refine h.extend [] [] rfl (by simp) ?_
  rintro ks ⟨first, hfirst⟩ _
  rw [List.nil_append, List.append_nil]
  exact ⟨first, fun next => (hfirst next).expr_of_primary⟩

/-- What completes the links behind the first operand completes the expression. -/
theorem asks_chain {c d f : Cursor τ} {e : ParseError} {first : Expr}
    (hfirst : c.Reads ops (.primary first) d) (h : d.Asks (Closed ops .links) e f) :
    c.Asks (Closed ops .expr) e f := by
  obtain ⟨ks, hks, hprimary⟩ := hfirst
  refine h.extend ks [] hks (by simp) ?_
  rintro ls ⟨links, hlinks⟩ hhead
  rw [List.append_nil]
  exact ⟨_, fun next =>
    .chain (hprimary.replace_next (hhead next)) (hlinks next) (Link.denotes_tree first links)⟩

/-- What completes an argument completes the arguments, with a parenthesis behind it. -/
theorem asks_argument {c d : Cursor τ} {e : ParseError} (h : c.Asks (Closed ops .expr) e d) :
    c.Asks (ClosedArguments ops) e d := by
  refine h.extend [] [.symbol ')'] rfl (spells_closing (by decide)) ?_
  rintro ks ⟨arg, harg⟩ _
  exact ⟨[arg], ks, rfl, .lastArgument (harg _)⟩

/-- Behind an argument a parenthesis can stand, and so can a comma with one more argument. -/
theorem asks_argumentSeparator {c d : Cursor τ} {arg : Expr} (h : c.Reads ops (.expr arg) d) :
    c.Asks (ClosedArguments ops) ⟨.argumentSeparator, d.current⟩ d := by
  obtain ⟨ks, hks, harg⟩ := h
  have hclose := harg.replace_next (.inr (by simp) : some (.symbol ')') = d.current ∨ _)
  have hcomma := harg.replace_next (.inr (by simp) : some (.symbol ',') = d.current ∨ _)
  refine ⟨ks, hks, ⟨by simp, [], spells_closing (by decide), ?_⟩,
    ⟨by simp, [.number .zero, .symbol ')'], spells_closing (by decide), ?_⟩⟩
  · exact ⟨[arg], ks, rfl, .lastArgument hclose⟩
  · refine ⟨[arg, .literal .zero], ks ++ .symbol ',' :: [.number .zero], by simp, ?_⟩
    exact .argument hcomma (.lastArgument Derives.number.expr_of_primary)

/-- What completes the arguments behind a comma completes all arguments. -/
theorem asks_arguments {c d f : Cursor τ} {e : ParseError} {arg : Expr}
    (harg : c.Reads ops (.expr arg) d) (hcomma : d.current = some (.symbol ','))
    (h : d.advance.Asks (ClosedArguments ops) e f) : c.Asks (ClosedArguments ops) e f := by
  obtain ⟨ks, hks, hexpr⟩ := harg
  refine h.extend (ks ++ [.symbol ',']) [] ?_ (by simp) ?_
  · rw [hks, tokens_of_current_some hcomma]
    simp
  · rintro ls ⟨es, ls, rfl, hargs⟩ _
    exact ⟨arg :: es, ks ++ .symbol ',' :: ls, by simp, .argument (hcomma ▸ hexpr) hargs⟩

/-- The productions for expressions fail where they ask for what completes them. -/
theorem asks_of_error (ops : OpTable) : ∀ c : Cursor τ,
    (∀ e d, c.primary ops = (.error e, d) → c.Asks (Closed ops .primary) e d) ∧
      (∀ e d, c.links ops (0 ≤ ·) = (.error e, d) → c.Asks (Closed ops .links) e d) ∧
      (∀ e d, c.expr ops = (.error e, d) → c.Asks (Closed ops .expr) e d) ∧
      ∀ e d, c.arguments ops = (.error e, d) → c.Asks (ClosedArguments ops) e d := by
  apply production_induction
  case primary =>
    intro c ih e d h
    rw [primary_eq] at h
    split at h
    next => simp at h
    next name hc =>
      have hname := left_advance_lt hc
      split at h
      next hopen =>
        have hargs := left_advance_lt hopen
        split at h
        next => simp at h
        next =>
          rcases Outcome.andThen_eq_error_iff.mp h with h | ⟨args, f, _, h⟩
          · exact asks_call hc hopen ((ih _ (by omega)).2 e d h)
          · simp at h
      next => simp at h
    next s hc =>
      split at h
      next hopen =>
        subst hopen
        rcases Outcome.andThen_eq_error_iff.mp h with h | ⟨inner, f, hinner, h⟩
        · exact asks_group hc ((ih _ (left_advance_lt hc)).1 e d h)
        · split at h
          · simp at h
          · cases h
            exact asks_closeParen hc ((reads_of_ok ops c.advance).2.2.1 inner d hinner)
      next =>
        cases h
        exact asks_expression c
    next =>
      cases h
      exact asks_expression c
  case links =>
    intro c ih e d h
    rw [links_eq] at h
    split at h
    next => simp at h
    next op precedence hop =>
      have hlt := left_advance_lt (OpTable.operator?_eq_some_iff.mp hop).1
      split at h
      next =>
        rcases Outcome.andThen_eq_error_iff.mp h with h | ⟨operand, f, hoperand, h⟩
        · exact asks_operand hop ((ih _ hlt).1 e d h)
        · rcases Outcome.andThen_eq_error_iff.mp h with h | ⟨ls, g, _, h⟩
          · have hprimary := left_lt_of_primary_ok hoperand
            exact asks_link hop ((reads_of_ok ops c.advance).1 operand f hoperand)
              ((ih f (by omega)).2 e d h)
          · simp at h
      next => simp at h
  case expr =>
    intro c hprimary hlinks e d h
    rw [expr_eq_links] at h
    rcases Outcome.andThen_eq_error_iff.mp h with h | ⟨first, f, hfirst, h⟩
    · exact asks_first (hprimary e d h)
    · rcases Outcome.andThen_eq_error_iff.mp h with h | ⟨ls, g, _, h⟩
      · have hle := Nat.le_of_lt (left_lt_of_primary_ok hfirst)
        exact asks_chain ((reads_of_ok ops c).1 first f hfirst) (hlinks f hle e d h)
      · simp at h
  case arguments =>
    intro c hexpr ih e d h
    rw [arguments_eq] at h
    rcases Outcome.andThen_eq_error_iff.mp h with h | ⟨arg, f, harg, h⟩
    · exact asks_argument (hexpr e d h)
    · have hreads := (reads_of_ok ops c).2.2.1 arg f harg
      split at h
      next => simp at h
      next =>
        split at h
        next hcomma =>
          have hlt := left_lt_of_expr_ok harg
          have hlt' := left_advance_lt hcomma
          rcases Outcome.andThen_eq_error_iff.mp h with h | ⟨args, g, _, h⟩
          · exact asks_arguments hreads hcomma (ih _ (by omega) e d h)
          · simp at h
        next =>
          cases h
          exact asks_argumentSeparator hreads

/-- A failing prototype asks for what completes it. -/
theorem asks_of_prototype_error {c d : Cursor τ} {e : ParseError} (h : c.prototype = (.error e, d)) :
    c.Asks (fun ks => ∃ p : Prototype, ks = p.tokens) e d := by
  rw [prototype_eq] at h
  split at h
  next name hc =>
    split at h
    next hopen =>
      obtain ⟨hparams, _⟩ := c.advance.advance.tokens_parameters
      rw [Outcome.ok_andThen] at h
      split at h
      next => simp at h
      next =>
        cases h
        refine ⟨.ident name :: .symbol '(' :: c.advance.advance.parameters.1.map .ident, ?_, by simp, [],
          spells_closing (by decide), ⟨name, c.advance.advance.parameters.1⟩, rfl⟩
        rw [tokens_of_current_some hc, tokens_of_current_some hopen, hparams]
        rfl
    next =>
      cases h
      exact ⟨[.ident name], tokens_of_current_some hc, by simp, [.symbol ')'],
        spells_closing (by decide), ⟨name, []⟩, rfl⟩
  next =>
    cases h
    exact ⟨[], rfl, "f", by simp, [.symbol '(', .symbol ')'], spells_closing (by decide), ⟨"f", []⟩, rfl⟩

/-- A failing item asks for what completes it. -/
theorem asks_of_item_error {c d : Cursor τ} {e : ParseError} (h : c.item ops = (.error e, d)) :
    c.Asks (fun ks => ∃ xs, Program ops ks xs) e d := by
  unfold item at h
  split at h
  next hc =>
    rcases Outcome.andThen_eq_error_iff.mp h with h | ⟨f, g, _, h⟩
    · rcases Outcome.andThen_eq_error_iff.mp h with h | ⟨p, f, hp, h⟩
      · refine (asks_of_prototype_error h).extend [.definition] [.number .zero]
          (tokens_of_current_some hc) (spells_closing (by decide)) ?_
        rintro ks ⟨p, rfl⟩ _
        exact ⟨_, .definition Derives.number.expr_of_primary .nil⟩
      · rcases Outcome.andThen_eq_error_iff.mp h with h | ⟨body, g, _, h⟩
        · refine ((asks_of_error ops f).2.2.1 e d h).extend (.definition :: p.tokens) [] ?_ (by simp) ?_
          · rw [tokens_of_current_some hc, tokens_of_prototype_ok hp, List.cons_append]
          · rintro ks ⟨body, hbody⟩ _
            exact ⟨_, .definition (hbody _) .nil⟩
        · simp at h
    · simp at h
  next hc =>
    rcases Outcome.andThen_eq_error_iff.mp h with h | ⟨p, g, _, h⟩
    · refine (asks_of_prototype_error h).extend [.external] [] (tokens_of_current_some hc) (by simp) ?_
      rintro ks ⟨p, rfl⟩ _
      exact ⟨_, .external .nil⟩
    · simp at h
  next =>
    rcases Outcome.andThen_eq_error_iff.mp h with h | ⟨f, g, _, h⟩
    · rcases Outcome.andThen_eq_error_iff.mp h with h | ⟨body, g, _, h⟩
      · refine ((asks_of_error ops c).2.2.1 e d h).extend [] [] rfl (by simp) ?_
        rintro ks ⟨body, hbody⟩ _
        rw [List.nil_append]
        exact ⟨_, .toplevel (hbody _) .nil⟩
      · simp at h
    · simp at h

/-- A failing program asks for what completes it. -/
theorem asks_of_program_error {c d : Cursor τ} {e : ParseError} (h : c.program ops = (.error e, d)) :
    c.Asks (fun ks => ∃ xs, Program ops ks xs) e d := by
  induction hsize : c.left using Nat.strongRecOn generalizing c with
  | ind size ih =>
      rw [program_eq] at h
      split at h
      next => simp at h
      next k hc =>
        split at h
        next hsemicolon =>
          subst hsemicolon
          refine (ih _ (hsize ▸ left_advance_lt hc) h rfl).extend [.symbol ';'] []
            (tokens_of_current_some hc) (by simp) ?_
          rintro ks ⟨xs, hxs⟩ _
          rw [List.append_nil]
          exact ⟨xs, .semicolon hxs⟩
        next =>
          rcases Outcome.andThen_eq_error_iff.mp h with h | ⟨x, f, hx, h⟩
          · exact asks_of_item_error h
          · rcases Outcome.andThen_eq_error_iff.mp h with h | ⟨xs, g, _, h⟩
            · -- the item may end in a name, which what follows must leave as it is
              obtain ⟨ks, hks, hprogram⟩ := program_of_item_ok hx
              refine (ih _ (hsize ▸ left_lt_of_item_ok hx) h rfl).extend ks [] hks (by simp) ?_
              rintro ls ⟨xs, hxs⟩ hhead
              have hnext := hhead none
              rw [Option.or_none] at hnext
              rw [List.append_nil]
              exact ⟨_, hprogram ls xs hxs hnext⟩
            · simp at h

end Cursor

/-- The tokens begin the tokens of a text that is parsed. -/
def Viable (ks : List Token) : Prop := ∃ s xs, ks <+: lex s ∧ parse s = .ok xs

/-- What completes the first tokens of a text to a program is viable behind them. -/
theorem viable_of_completes {s : String} {ks rest : List Token} {k : Token} (hs : lex s = ks ++ rest)
    (h : Grammar.Completes (fun ls => ∃ xs, Grammar.Program .standard ls xs) ks k) :
    Viable (ks ++ [k]) := by
  obtain ⟨_, ls, hspells, xs, hxs⟩ := h
  have hall : ∀ j ∈ ks ++ k :: ls, ∃ w, Spells w j := by
    intro j hj
    rcases List.mem_append.mp hj with hj | hj
    · have hmem : j ∈ scan s.toList := by
        rw [← lex_eq_scan, hs]
        exact List.mem_append_left _ hj
      exact exists_spells hmem
    · exact hspells j hj
  obtain ⟨s', hs'⟩ := exists_lex_eq hall
  refine ⟨s', xs, ⟨ls, by rw [hs']; simp⟩, ?_⟩
  rw [parse, parseWith_ok_iff OpTable.separating_standard, hs']
  exact hxs

/-- A parse fails at the first token that cannot stand where it stands, and asks for what can. Let `d` be
the cursor where it stops and `ks` the tokens taken before: the error names the token at `d`, every text
that has `ks` and then that token (or `ks` and nothing more, at the end) fails alike, and the tokens that
the error asks for are viable behind `ks`. -/
theorem parse_error_viable (s : String) (e : ParseError) (h : parse s = .error e) :
    let d := ((Cursor.start (Lexer.ofText (.ofString s))).program .standard).2
    ∃ ks, lex s = ks ++ d.tokens ∧ e.found = d.current ∧
      (∀ s' rest, lex s' = ks ++ rest → rest.head? = e.found → parse s' = .error e) ∧
      e.expected.Asks fun k => Viable (ks ++ [k]) := by
  intro d
  let c := Cursor.start (Lexer.ofText (.ofString s))
  have hprogram : c.program .standard = (.error e, d) := Prod.ext h rfl
  have hsettled : Cursor.Settled c (c.program .standard) fun c' : Cursor (Lexer Text) =>
      c'.program .standard := Cursor.settled_program .standard c
  rw [hprogram] at hsettled
  obtain ⟨ls, hls, hfound, hlocal⟩ := hsettled
  obtain ⟨ks, hks, hasks⟩ := Cursor.asks_of_program_error hprogram
  have hsame : ls = ks := List.append_cancel_right (hls.symm.trans hks)
  subst hsame
  have hlex : lex s = ls ++ d.tokens := by
    rw [← tokens_start_ofText]
    exact hls
  refine ⟨ls, hlex, hfound e rfl, ?_, hasks.imp fun k hk => viable_of_completes hlex hk⟩
  intro s' rest hs' hrest
  rw [← tokens_start_ofText] at hs'
  obtain ⟨d', hd', _⟩ := hlocal _ rest hs' (hrest.trans (hfound e rfl))
  exact congrArg Prod.fst hd'

/-- A call that is not closed: a parenthesis can follow, and so can a comma. -/
theorem parse_error_viable_call :
    parse "f(1" = .error ⟨.argumentSeparator, none⟩ ∧
      (∀ s, lex s = lex "f(1" → parse s = .error ⟨.argumentSeparator, none⟩) ∧
      Viable (lex "f(1" ++ [.symbol ')']) ∧ Viable (lex "f(1" ++ [.symbol ',']) := by
  have hlex : lex "f(1" = [.ident "f", .symbol '(', .ofNumeral ['1']] := by
    have hname : Spells ['f'] (.ident "f") := .word rfl (by simp)
    have hnumber : Spells ['1'] (.ofNumeral ['1']) := .numeral (by decide) (by simp)
    rw [lex_eq_scan]
    calc scan ['f', '(', '1']
        = .ident "f" :: scan ['(', '1'] := scan_append hname (detached_cons (by decide))
      _ = .ident "f" :: .symbol '(' :: scan ['1'] := by rw [scan_symbol (by decide)]
      _ = [.ident "f", .symbol '(', .ofNumeral ['1']] := by
          rw [← List.append_nil ['1'], scan_append hnumber detached_nil, scan_nil, List.append_nil]
  have hparse : parse "f(1" = .error ⟨.argumentSeparator, none⟩ := by
    have h := tokens_start_ofText "f(1"
    rw [hlex] at h
    rw [parse, parseWith]
    generalize Cursor.start (Lexer.ofText (.ofString "f(1")) = c at h ⊢
    obtain ⟨hname, h⟩ := Cursor.of_tokens_eq_cons h
    obtain ⟨hopen, h⟩ := Cursor.of_tokens_eq_cons h
    have hfirst : c.advance.advance.current ≠ some (.symbol ')') := by
      rw [(Cursor.of_tokens_eq_cons h).1]
      simp [Token.ofNumeral]
    obtain ⟨d, hargument, hd⟩ := Cursor.returns_of_derives OpTable.separating_standard
      Grammar.Derives.number.expr_of_primary c.advance.advance [] h rfl rfl
    have hend : d.current = none := by rw [← Cursor.head?_tokens, hd, List.head?_nil]
    have hcall : c.primary .standard = (.error ⟨.argumentSeparator, none⟩, d) := by
      rw [Cursor.primary_eq, hname]
      simp only [hopen, hfirst, ↓reduceIte]
      rw [Cursor.arguments_eq, hargument]
      simp [hend, Cursor.fail]
    rw [Cursor.program_eq, hname]
    simp [Cursor.item, hname, Cursor.toplevel, Cursor.expr_eq, hcall]
  obtain ⟨ks, hks, hfound, hlocal, hasks⟩ := parse_error_viable "f(1" _ hparse
  rw [Cursor.tokens_of_current_none hfound.symm, List.append_nil] at hks
  refine ⟨hparse, ?_, hks ▸ hasks.1, hks ▸ hasks.2⟩
  intro s hs
  exact hlocal s [] (by rw [hs, hks, List.append_nil]) rfl

end ExprLang
