import ExprLang.Parser.Item
import ExprLang.Proofs.Chain
import ExprLang.Proofs.Scan

/-!
# The grammar

The language as a grammar over tokens, without the order in which a parser takes its decisions. A
derivation says which tokens make up a phrase and what the phrase means. The only context that it sees
is the token behind the phrase: a name is a variable where no parenthesis follows it. Where a chain of
operators ends, or an item ends and the next one begins, is left open.

The parser finds a derivation whenever it succeeds, for every operator table. For a table that keeps
the parentheses, the comma and the semicolon out of the operators it also succeeds wherever there is a
derivation, because a longer chain is then never another reading. So a program has one meaning.
-/

namespace ExprLang

namespace OpTable

/-- The table has no entry that is not negative for a character that divides phrases. -/
def Separating (ops : OpTable) : Prop :=
  ∀ c ∈ ['(', ')', ',', ';'], ∀ precedence, ops.get? c = some precedence → precedence < 0

/-- No operator divides phrases. -/
theorem Separating.operator?_eq_none {ops : OpTable} (hops : ops.Separating) {c : Char}
    (hc : c ∈ ['(', ')', ',', ';']) : ops.operator? (some (.symbol c)) = none := by
  rw [Option.eq_none_iff_forall_ne_some]
  intro ⟨op, precedence⟩ hop
  obtain ⟨htoken, _, hget, hle⟩ := operator?_eq_some_iff.mp hop
  cases htoken
  exact Int32.not_lt.mpr hle (hops c hc precedence hget)

/-- The standard operators keep phrases apart. -/
theorem separating_standard : standard.Separating := by
  intro c hc precedence hget
  simp only [List.mem_cons, List.not_mem_nil, or_false] at hc
  rcases hc with rfl | rfl | rfl | rfl <;>
    simp [standard, empty, insert, get?, Std.TreeMap.get?_eq_getElem?] at hget

end OpTable

/-- The tokens of a prototype. -/
def Prototype.tokens (p : Prototype) : List Token :=
  .ident p.name :: .symbol '(' :: (p.params.map .ident ++ [.symbol ')'])

namespace Grammar

/-- What a derivation is about, with its meaning. -/
inductive Phrase
  | primary (e : Expr)
  | links (ls : List Link)
  | expr (e : Expr)
  | arguments (es : List Expr)

/-- The tokens make up the phrase, in front of the token `next` or of the end of input. -/
inductive Derives (ops : OpTable) : Phrase → List Token → Option Token → Prop
  | number {value : Binary64} {next : Option Token} :
      Derives ops (.primary (.literal value)) [.number value] next
  | name {name : String} {next : Option Token} (hnext : next ≠ some (.symbol '(')) :
      Derives ops (.primary (.var name)) [.ident name] next
  | emptyCall {name : String} {next : Option Token} :
      Derives ops (.primary (.call name [])) [.ident name, .symbol '(', .symbol ')'] next
  | call {name : String} {args : List Expr} {ks : List Token} {next : Option Token}
      (hargs : Derives ops (.arguments args) ks (some (.symbol ')'))) :
      Derives ops (.primary (.call name args)) (.ident name :: .symbol '(' :: (ks ++ [.symbol ')'])) next
  | group {e : Expr} {ks : List Token} {next : Option Token}
      (hinner : Derives ops (.expr e) ks (some (.symbol ')'))) :
      Derives ops (.primary e) (.symbol '(' :: (ks ++ [.symbol ')'])) next
  | noLinks {next : Option Token} : Derives ops (.links []) [] next
  | link {op : Char} {precedence : Int32} {operand : Expr} {ls : List Link} {ks ks' : List Token}
      {next : Option Token} (hop : ops.IsOperator op precedence)
      (hoperand : Derives ops (.primary operand) ks (ks'.head?.or next))
      (hls : Derives ops (.links ls) ks' next) :
      Derives ops (.links (⟨op, precedence, operand⟩ :: ls)) (.symbol op :: (ks ++ ks')) next
  | chain {first e : Expr} {ls : List Link} {ks ks' : List Token} {next : Option Token}
      (hfirst : Derives ops (.primary first) ks (ks'.head?.or next))
      (hls : Derives ops (.links ls) ks' next) (htree : Link.Denotes first ls e) :
      Derives ops (.expr e) (ks ++ ks') next
  | lastArgument {arg : Expr} {ks : List Token} {next : Option Token}
      (harg : Derives ops (.expr arg) ks next) : Derives ops (.arguments [arg]) ks next
  | argument {arg : Expr} {args : List Expr} {ks ks' : List Token} {next : Option Token}
      (harg : Derives ops (.expr arg) ks (some (.symbol ',')))
      (hargs : Derives ops (.arguments args) ks' next) :
      Derives ops (.arguments (arg :: args)) (ks ++ .symbol ',' :: ks') next

/-- The tokens make up a program with the given items. -/
inductive Program (ops : OpTable) : List Token → List Item → Prop
  | nil : Program ops [] []
  | semicolon {ks : List Token} {xs : List Item} (h : Program ops ks xs) :
      Program ops (.symbol ';' :: ks) xs
  | definition {p : Prototype} {body : Expr} {ks ks' : List Token} {xs : List Item}
      (hbody : Derives ops (.expr body) ks ks'.head?) (h : Program ops ks' xs) :
      Program ops (.definition :: (p.tokens ++ (ks ++ ks'))) (.function ⟨p, body⟩ :: xs)
  | external {p : Prototype} {ks : List Token} {xs : List Item} (h : Program ops ks xs) :
      Program ops (.external :: (p.tokens ++ ks)) (.external p :: xs)
  | toplevel {body : Expr} {ks ks' : List Token} {xs : List Item}
      (hbody : Derives ops (.expr body) ks ks'.head?) (h : Program ops ks' xs) :
      Program ops (ks ++ ks') (.function ⟨.anonymous, body⟩ :: xs)

/-- Tokens that an expression can begin with. -/
def StartsExpr : Token → Prop
  | .number _ => True
  | .ident _ => True
  | .symbol c => c = '('
  | _ => False

/-- Every phrase but a row of links has a first token that can begin an expression. -/
theorem Derives.starts {ops : OpTable} {phrase : Phrase} {ks : List Token} {next : Option Token}
    (h : Derives ops phrase ks next) (hphrase : ∀ ls, phrase ≠ .links ls) :
    ∃ k ls, ks = k :: ls ∧ StartsExpr k := by
  induction h with
  | number => exact ⟨_, _, rfl, trivial⟩
  | name _ => exact ⟨_, _, rfl, trivial⟩
  | emptyCall => exact ⟨_, _, rfl, trivial⟩
  | call _ _ => exact ⟨_, _, rfl, trivial⟩
  | group _ _ => exact ⟨_, _, rfl, rfl⟩
  | noLinks => exact absurd rfl (hphrase _)
  | link _ _ _ _ _ => exact absurd rfl (hphrase _)
  | chain _ _ _ ihFirst _ =>
      obtain ⟨k, ls, rfl, hk⟩ := ihFirst (by simp)
      exact ⟨k, _, rfl, hk⟩
  | lastArgument _ ih => exact ih (by simp)
  | argument _ _ ihArg _ =>
      obtain ⟨k, ls, rfl, hk⟩ := ihArg (by simp)
      exact ⟨k, _, rfl, hk⟩

/-- A primary alone is an expression. -/
theorem Derives.expr_of_primary {ops : OpTable} {e : Expr} {ks : List Token} {next : Option Token}
    (h : Derives ops (.primary e) ks next) : Derives ops (.expr e) ks next := by
  rw [← List.append_nil ks]
  exact .chain h .noLinks .single

/-- What follows a phrase may be replaced by anything but a parenthesis, which would make a call of a name
that ends the phrase. -/
theorem Derives.replace_next {ops : OpTable} {phrase : Phrase} {ks : List Token}
    {next next' : Option Token} (h : Derives ops phrase ks next)
    (hnext : next' = next ∨ next' ≠ some (.symbol '(')) : Derives ops phrase ks next' := by
  induction h generalizing next' with
  | number => exact .number
  | name hname =>
      rcases hnext with rfl | hnext
      · exact .name hname
      · exact .name hnext
  | emptyCall => exact .emptyCall
  | call hargs _ => exact .call hargs
  | group hinner _ => exact .group hinner
  | noLinks => exact .noLinks
  | @link op precedence operand ls ks ks' next hop hoperand hls ihOperand ihLinks =>
      refine .link hop (ihOperand ?_) (ihLinks hnext)
      cases ks' with
      | nil => exact hnext
      | cons k ks' => exact .inl rfl
  | @chain first e ls ks ks' next hfirst hls htree ihFirst ihLinks =>
      refine .chain (ihFirst ?_) (ihLinks hnext) htree
      cases ks' with
      | nil => exact hnext
      | cons k ks' => exact .inl rfl
  | lastArgument _ ih => exact .lastArgument (ih hnext)
  | argument harg _ _ ihArgs => exact .argument harg (ihArgs hnext)

/-- Only a parenthesis both divides phrases and begins one, and it is no operator. -/
theorem operator?_eq_none_of_startsExpr {ops : OpTable} (hops : ops.Separating) {k : Token}
    (hk : StartsExpr k) : ops.operator? (some k) = none := by
  cases k with
  | symbol c =>
      cases hk
      exact hops.operator?_eq_none (by simp)
  | _ => rfl

/-- No program begins with an operator. -/
theorem Program.operator?_head? {ops : OpTable} (hops : ops.Separating) {ks : List Token}
    {xs : List Item} (h : Program ops ks xs) : ops.operator? ks.head? = none := by
  cases h with
  | nil => rfl
  | semicolon _ => exact hops.operator?_eq_none (by simp)
  | definition _ _ => rfl
  | external _ => rfl
  | toplevel hbody _ =>
      obtain ⟨k, ls, rfl, hk⟩ := hbody.starts (by simp)
      exact operator?_eq_none_of_startsExpr hops hk

end Grammar

namespace Cursor

open Grammar

variable {τ : Type} [TokenStream τ] {ops : OpTable}

/-- The tokens between two cursors make up the phrase. -/
def Reads (ops : OpTable) (c : Cursor τ) (phrase : Phrase) (d : Cursor τ) : Prop :=
  ∃ ks, c.tokens = ks ++ d.tokens ∧ Derives ops phrase ks d.current

/-- A number is a primary. -/
theorem reads_number {c : Cursor τ} {value : Binary64} (hc : c.current = some (.number value)) :
    c.Reads ops (.primary (.literal value)) c.advance :=
  ⟨_, tokens_of_current_some hc, .number⟩

/-- A name with no parenthesis behind it is a primary. -/
theorem reads_name {c : Cursor τ} {name : String} (hc : c.current = some (.ident name))
    (hnext : c.advance.current ≠ some (.symbol '(')) :
    c.Reads ops (.primary (.var name)) c.advance :=
  ⟨_, tokens_of_current_some hc, .name hnext⟩

/-- A name with parentheses that hold nothing is a primary. -/
theorem reads_emptyCall {c : Cursor τ} {name : String} (hc : c.current = some (.ident name))
    (hopen : c.advance.current = some (.symbol '('))
    (hclose : c.advance.advance.current = some (.symbol ')')) :
    c.Reads ops (.primary (.call name [])) c.advance.advance.advance := by
  refine ⟨[.ident name, .symbol '(', .symbol ')'], ?_, .emptyCall⟩
  rw [tokens_of_current_some hc, tokens_of_current_some hopen, tokens_of_current_some hclose]
  rfl

/-- A name with arguments in parentheses is a primary. -/
theorem reads_call {c d : Cursor τ} {name : String} {args : List Expr}
    (hc : c.current = some (.ident name)) (hopen : c.advance.current = some (.symbol '('))
    (hargs : c.advance.advance.Reads ops (.arguments args) d)
    (hclose : d.current = some (.symbol ')')) :
    c.Reads ops (.primary (.call name args)) d.advance := by
  obtain ⟨ks, hks, hderives⟩ := hargs
  refine ⟨.ident name :: .symbol '(' :: (ks ++ [.symbol ')']), ?_, .call (hclose ▸ hderives)⟩
  rw [tokens_of_current_some hc, tokens_of_current_some hopen, hks, tokens_of_current_some hclose]
  simp

/-- An expression in parentheses is a primary. -/
theorem reads_group {c d : Cursor τ} {e : Expr} (hc : c.current = some (.symbol '('))
    (hinner : c.advance.Reads ops (.expr e) d) (hclose : d.current = some (.symbol ')')) :
    c.Reads ops (.primary e) d.advance := by
  obtain ⟨ks, hks, hderives⟩ := hinner
  refine ⟨.symbol '(' :: (ks ++ [.symbol ')']), ?_, .group (hclose ▸ hderives)⟩
  rw [tokens_of_current_some hc, hks, tokens_of_current_some hclose]
  simp

/-- An operator, a primary and links are links. -/
theorem reads_link {c d e : Cursor τ} {op : Char} {precedence : Int32} {operand : Expr}
    {ls : List Link} (hop : ops.operator? c.current = some (op, precedence))
    (hoperand : c.advance.Reads ops (.primary operand) d) (hls : d.Reads ops (.links ls) e) :
    c.Reads ops (.links (⟨op, precedence, operand⟩ :: ls)) e := by
  obtain ⟨hc, hoperator⟩ := OpTable.operator?_eq_some_iff.mp hop
  obtain ⟨ks, hks, hprimary⟩ := hoperand
  obtain ⟨ks', hks', hlinks⟩ := hls
  rw [current_eq_or hks'] at hprimary
  refine ⟨.symbol op :: (ks ++ ks'), ?_, .link hoperator hprimary hlinks⟩
  rw [tokens_of_current_some hc, hks, hks']
  simp

/-- A primary and links are an expression. -/
theorem reads_chain {c d e : Cursor τ} {first : Expr} {ls : List Link}
    (hfirst : c.Reads ops (.primary first) d) (hls : d.Reads ops (.links ls) e) :
    c.Reads ops (.expr (Link.tree first ls)) e := by
  obtain ⟨ks, hks, hprimary⟩ := hfirst
  obtain ⟨ks', hks', hlinks⟩ := hls
  rw [current_eq_or hks'] at hprimary
  refine ⟨ks ++ ks', ?_, .chain hprimary hlinks (Link.denotes_tree first ls)⟩
  rw [hks, hks', List.append_assoc]

/-- An expression, a comma and arguments are arguments. -/
theorem reads_argument {c d e : Cursor τ} {arg : Expr} {args : List Expr}
    (harg : c.Reads ops (.expr arg) d) (hcomma : d.current = some (.symbol ','))
    (hargs : d.advance.Reads ops (.arguments args) e) : c.Reads ops (.arguments (arg :: args)) e := by
  obtain ⟨ks, hks, hexpr⟩ := harg
  obtain ⟨ks', hks', harguments⟩ := hargs
  refine ⟨ks ++ .symbol ',' :: ks', ?_, .argument (hcomma ▸ hexpr) harguments⟩
  rw [hks, tokens_of_current_some hcomma, hks']
  simp

/-- What the productions return is derived from the tokens that they take. -/
theorem reads_of_ok (ops : OpTable) : ∀ c : Cursor τ,
    (∀ e d, c.primary ops = (.ok e, d) → c.Reads ops (.primary e) d) ∧
      (∀ ls d, c.links ops (0 ≤ ·) = (.ok ls, d) → c.Reads ops (.links ls) d) ∧
      (∀ e d, c.expr ops = (.ok e, d) → c.Reads ops (.expr e) d) ∧
      ∀ es d, c.arguments ops = (.ok es, d) →
        ∃ f, c.Reads ops (.arguments es) f ∧ f.current = some (.symbol ')') ∧ d = f.advance := by
  apply production_induction
  case primary =>
    intro c ih e d h
    rw [primary_eq] at h
    split at h
    next value hc =>
      cases h
      exact reads_number hc
    next name hc =>
      have hname := left_advance_lt hc
      split at h
      next hopen =>
        have hargs := left_advance_lt hopen
        split at h
        next hclose =>
          cases h
          exact reads_emptyCall hc hopen hclose
        next =>
          obtain ⟨args, f, harguments, h⟩ := Outcome.andThen_eq_ok_iff.mp h
          obtain ⟨g, hreads, hclose, rfl⟩ := (ih _ (by omega)).2 args f harguments
          cases h
          exact reads_call hc hopen hreads hclose
      next hnext =>
        cases h
        exact reads_name hc hnext
    next s hc =>
      split at h
      next hopen =>
        subst hopen
        obtain ⟨inner, f, hexpr, h⟩ := Outcome.andThen_eq_ok_iff.mp h
        have hreads := (ih _ (left_advance_lt hc)).1 inner f hexpr
        split at h
        next hclose =>
          cases h
          exact reads_group hc hreads hclose
        next => simp [fail] at h
      next => simp [fail] at h
    next => simp [fail] at h
  case links =>
    intro c ih ls d h
    rw [links_eq] at h
    split at h
    next =>
      cases h
      exact ⟨[], rfl, .noLinks⟩
    next op precedence hop =>
      have hlt := left_advance_lt (OpTable.operator?_eq_some_iff.mp hop).1
      split at h
      next =>
        obtain ⟨operand, f, hoperand, h⟩ := Outcome.andThen_eq_ok_iff.mp h
        obtain ⟨ls', g, hls', h⟩ := Outcome.andThen_eq_ok_iff.mp h
        cases h
        have hprimary := left_lt_of_primary_ok hoperand
        exact reads_link hop ((ih _ hlt).1 operand f hoperand) ((ih f (by omega)).2 ls' d hls')
      next =>
        cases h
        exact ⟨[], rfl, .noLinks⟩
  case expr =>
    intro c hprimary hlinks e d h
    rw [expr_eq_links] at h
    obtain ⟨first, f, hfirst, h⟩ := Outcome.andThen_eq_ok_iff.mp h
    obtain ⟨ls, g, hls, h⟩ := Outcome.andThen_eq_ok_iff.mp h
    cases h
    have hle := Nat.le_of_lt (left_lt_of_primary_ok hfirst)
    exact reads_chain (hprimary first f hfirst) (hlinks f hle ls d hls)
  case arguments =>
    intro c hexpr ih es d h
    rw [arguments_eq] at h
    obtain ⟨arg, f, harg, h⟩ := Outcome.andThen_eq_ok_iff.mp h
    have hreads := hexpr arg f harg
    split at h
    next hclose =>
      cases h
      obtain ⟨ks, hks, hderives⟩ := hreads
      exact ⟨f, ⟨ks, hks, .lastArgument hderives⟩, hclose, rfl⟩
    next =>
      split at h
      next hcomma =>
        obtain ⟨args, g, hargs, h⟩ := Outcome.andThen_eq_ok_iff.mp h
        cases h
        have hlt := left_lt_of_expr_ok harg
        have hlt' := left_advance_lt hcomma
        obtain ⟨e, hrest, hclose, rfl⟩ := ih _ (by omega) args d hargs
        exact ⟨e, reads_argument hreads hcomma hrest, hclose, rfl⟩
      next => simp [fail] at h

/-- A name that no parenthesis follows is a variable. -/
theorem primary_of_name {c : Cursor τ} {name : String} (hcurrent : c.current = some (.ident name))
    (hnext : c.advance.current ≠ some (.symbol '(')) :
    c.primary ops = (.ok (.var name), c.advance) := by
  rw [primary_eq, hcurrent]
  exact if_neg hnext

/-- The productions return a phrase and stop in front of `rest`. A chain is read to its end only where
no operator follows, and arguments only with the parenthesis that closes them. -/
def Returns (ops : OpTable) (c : Cursor τ) (rest : List Token) : Phrase → Prop
  | .primary e => ∃ d, c.primary ops = (.ok e, d) ∧ d.tokens = rest
  | .links ls =>
      ops.operator? rest.head? = none → ∃ d, c.links ops (0 ≤ ·) = (.ok ls, d) ∧ d.tokens = rest
  | .expr e => ops.operator? rest.head? = none → ∃ d, c.expr ops = (.ok e, d) ∧ d.tokens = rest
  | .arguments es =>
      rest.head? = some (.symbol ')') → ∃ d, c.arguments ops = (.ok es, d) ∧ d.tokens = rest.tail

/-- What has a derivation is returned. -/
theorem returns_of_derives (hops : ops.Separating) {phrase : Phrase} {ks : List Token}
    {next : Option Token} (h : Derives ops phrase ks next) :
    ∀ (c : Cursor τ) (rest : List Token), c.tokens = ks ++ rest → rest.head? = next →
      c.Returns ops rest phrase := by
  induction h with
  | number =>
      intro c rest hc _
      obtain ⟨hcurrent, hrest⟩ := of_tokens_eq_cons hc
      exact ⟨c.advance, by rw [primary_eq, hcurrent], hrest⟩
  | name hnext =>
      intro c rest hc hhead
      rw [List.singleton_append] at hc
      obtain ⟨hcurrent, hrest⟩ := of_tokens_eq_cons hc
      have hopen : c.advance.current ≠ some (.symbol '(') := by
        rwa [← head?_tokens, hrest, hhead]
      exact ⟨c.advance, primary_of_name hcurrent hopen, hrest⟩
  | emptyCall =>
      intro c rest hc _
      obtain ⟨hcurrent, hc⟩ := of_tokens_eq_cons hc
      obtain ⟨hopen, hc⟩ := of_tokens_eq_cons hc
      obtain ⟨hclose, hrest⟩ := of_tokens_eq_cons hc
      exact ⟨c.advance.advance.advance, by rw [primary_eq, hcurrent]; simp [hopen, hclose], hrest⟩
  | @call name args ks next hargs ih =>
      intro c rest hc _
      simp only [List.cons_append, List.append_assoc, List.nil_append] at hc
      obtain ⟨hcurrent, hc⟩ := of_tokens_eq_cons hc
      obtain ⟨hopen, hc⟩ := of_tokens_eq_cons hc
      have hfirst : c.advance.advance.current ≠ some (.symbol ')') := by
        obtain ⟨k, ls, rfl, hk⟩ := hargs.starts (by simp)
        rw [(of_tokens_eq_cons hc).1]
        rintro ⟨⟩
        simp [StartsExpr] at hk
      obtain ⟨d, hd, hrest⟩ := ih c.advance.advance _ hc rfl rfl
      refine ⟨d, ?_, hrest⟩
      rw [primary_eq, hcurrent]
      simp [hopen, hfirst, hd]
  | @group e ks next hinner ih =>
      intro c rest hc _
      simp only [List.cons_append, List.append_assoc, List.nil_append] at hc
      obtain ⟨hcurrent, hc⟩ := of_tokens_eq_cons hc
      obtain ⟨d, hd, hrest⟩ := ih c.advance _ hc rfl (hops.operator?_eq_none (by simp))
      obtain ⟨hclose, hrest⟩ := of_tokens_eq_cons hrest
      refine ⟨d.advance, ?_, hrest⟩
      rw [primary_eq, hcurrent]
      simp [hd, hclose]
  | noLinks =>
      intro c rest hc _ hstop
      refine ⟨c, links_of_stop ?_, hc⟩
      intro op precedence hop
      rw [← head?_tokens, hc, List.nil_append, hstop] at hop
      simp at hop
  | @link op precedence operand ls ks ks' next hop hoperand hls ihOperand ihLinks =>
      intro c rest hc hhead hstop
      rw [List.cons_append, List.append_assoc] at hc
      obtain ⟨hcurrent, hc⟩ := of_tokens_eq_cons hc
      obtain ⟨d, hd, hd'⟩ := ihOperand c.advance _ hc (by rw [List.head?_append, hhead])
      obtain ⟨e, he, hrest⟩ := ihLinks d rest hd' hhead hstop
      refine ⟨e, ?_, hrest⟩
      rw [links_of_operator (hcurrent ▸ OpTable.operator?_symbol_iff.mpr hop) (decide_eq_true hop.2.2)]
      simp [hd, he]
  | @chain first e ls ks ks' next hfirst hls htree ihFirst ihLinks =>
      intro c rest hc hhead hstop
      rw [List.append_assoc] at hc
      obtain ⟨d, hd, hd'⟩ := ihFirst c _ hc (by rw [List.head?_append, hhead])
      obtain ⟨f, hf, hrest⟩ := ihLinks d rest hd' hhead hstop
      refine ⟨f, ?_, hrest⟩
      rw [expr_eq_links, htree.eq_tree]
      simp [hd, hf]
  | @lastArgument arg ks next harg ih =>
      intro c rest hc hhead hclose
      obtain ⟨d, hd, hrest⟩ := ih c rest hc hhead (hclose ▸ hops.operator?_eq_none (by simp))
      have hcurrent : d.current = some (.symbol ')') := by rw [← head?_tokens, hrest, hclose]
      refine ⟨d.advance, ?_, by rw [tokens_advance, hrest]⟩
      rw [arguments_eq]
      simp [hd, hcurrent]
  | @argument arg args ks ks' next harg hargs ihArg ihArgs =>
      intro c rest hc hhead hclose
      rw [List.append_assoc, List.cons_append] at hc
      obtain ⟨d, hd, hd'⟩ := ihArg c _ hc rfl (hops.operator?_eq_none (by simp))
      obtain ⟨hcomma, hd'⟩ := of_tokens_eq_cons hd'
      obtain ⟨e, he, hrest⟩ := ihArgs d.advance rest hd' hhead hclose
      refine ⟨e, ?_, hrest⟩
      rw [arguments_eq]
      simp [hd, hcomma, he]

/-- Parameters are the identifiers in front of a cursor, up to a token that is none. -/
theorem tokens_parameters (c : Cursor τ) :
    c.tokens = c.parameters.1.map .ident ++ c.parameters.2.tokens ∧
      ∀ name, c.parameters.2.current ≠ some (.ident name) := by
  fun_induction parameters c with
  | case1 c name hc names d hrec ih =>
      rw [hrec] at ih
      rw [tokens_of_current_some hc, ih.1]
      exact ⟨rfl, ih.2⟩
  | case2 c hne => exact ⟨rfl, fun name hname => hne name hname⟩

/-- Identifiers in front of a token that is none are read as parameters. -/
theorem parameters_of_tokens {names : List String} {rest : List Token}
    (hrest : ∀ name, rest.head? ≠ some (.ident name)) :
    ∀ c : Cursor τ, c.tokens = names.map .ident ++ rest →
      ∃ d, c.parameters = (names, d) ∧ d.tokens = rest := by
  induction names with
  | nil =>
      intro c hc
      refine ⟨c, ?_, hc⟩
      rw [parameters]
      split
      next name hname =>
        rw [← head?_tokens, hc] at hname
        exact absurd hname (hrest name)
      next => rfl
  | cons name names ih =>
      intro c hc
      obtain ⟨hcurrent, hc⟩ := of_tokens_eq_cons hc
      obtain ⟨d, hd, hd'⟩ := ih c.advance hc
      refine ⟨d, ?_, hd'⟩
      rw [parameters]
      split
      next name' hname' =>
        rw [hcurrent] at hname'
        cases hname'
        rw [hd]
      next hne => exact absurd hcurrent (hne name)

/-- A prototype is read from its tokens. -/
theorem tokens_of_prototype_ok {c d : Cursor τ} {p : Prototype} (h : c.prototype = (.ok p, d)) :
    c.tokens = p.tokens ++ d.tokens := by
  unfold prototype at h
  split at h
  next name hc =>
    dsimp only at h
    split at h
    next hopen =>
      obtain ⟨hparams, _⟩ := c.advance.advance.tokens_parameters
      split at h
      next hclose =>
        cases h
        rw [tokens_of_current_some hc, tokens_of_current_some hopen, hparams,
          tokens_of_current_some hclose]
        simp [Prototype.tokens]
      next => simp [fail] at h
    next => simp [fail] at h
  next => simp [fail] at h

/-- The tokens of a prototype are read as that prototype. -/
theorem prototype_of_tokens {c : Cursor τ} {p : Prototype} {rest : List Token}
    (h : c.tokens = p.tokens ++ rest) : ∃ d, c.prototype = (.ok p, d) ∧ d.tokens = rest := by
  simp only [Prototype.tokens, List.cons_append, List.append_assoc, List.nil_append] at h
  obtain ⟨hname, h⟩ := of_tokens_eq_cons h
  obtain ⟨hopen, h⟩ := of_tokens_eq_cons h
  obtain ⟨d, hd, hrest⟩ := parameters_of_tokens (by simp) c.advance.advance h
  obtain ⟨hclose, hrest⟩ := of_tokens_eq_cons hrest
  refine ⟨d.advance, ?_, hrest⟩
  unfold prototype
  simp [hname, hopen, hd, hclose]

/-- An item that was read can stand before every program that begins with the same token, or with
anything but a parenthesis. -/
theorem program_of_item_ok {c d : Cursor τ} {x : Item} (h : c.item ops = (.ok x, d)) :
    ∃ ks, c.tokens = ks ++ d.tokens ∧ ∀ ls xs, Program ops ls xs →
      (ls.head? = d.current ∨ ls.head? ≠ some (.symbol '(')) → Program ops (ks ++ ls) (x :: xs) := by
  unfold item at h
  split at h
  next hc =>
    obtain ⟨f, d', hf, h⟩ := Outcome.andThen_eq_ok_iff.mp h
    obtain ⟨p, e, hp, hf⟩ := Outcome.andThen_eq_ok_iff.mp hf
    obtain ⟨body, e', hbody, hf⟩ := Outcome.andThen_eq_ok_iff.mp hf
    cases hf
    cases h
    obtain ⟨ks, hks, hderives⟩ := (reads_of_ok ops e).2.2.1 body d hbody
    refine ⟨.definition :: (p.tokens ++ ks), ?_, ?_⟩
    · rw [tokens_of_current_some hc, tokens_of_prototype_ok hp, hks]
      simp
    · intro ls xs hxs hnext
      rw [List.cons_append, List.append_assoc]
      exact .definition (hderives.replace_next hnext) hxs
  next hc =>
    obtain ⟨p, d', hp, h⟩ := Outcome.andThen_eq_ok_iff.mp h
    cases h
    refine ⟨.external :: p.tokens, ?_, fun ls xs hxs _ => .external hxs⟩
    rw [tokens_of_current_some hc, tokens_of_prototype_ok hp, List.cons_append]
  next =>
    obtain ⟨f, d', hf, h⟩ := Outcome.andThen_eq_ok_iff.mp h
    obtain ⟨body, e, hbody, hf⟩ := Outcome.andThen_eq_ok_iff.mp hf
    cases hf
    cases h
    obtain ⟨ks, hks, hderives⟩ := (reads_of_ok ops c).2.2.1 body d hbody
    exact ⟨ks, hks, fun ls xs hxs hnext => .toplevel (hderives.replace_next hnext) hxs⟩

/-- A program that was read is derived from all tokens in front of the cursor. -/
theorem program_of_ok {c d : Cursor τ} {xs : List Item} (h : c.program ops = (.ok xs, d)) :
    Program ops c.tokens xs := by
  induction hsize : c.left using Nat.strongRecOn generalizing c xs with
  | ind size ih =>
      rw [program_eq] at h
      split at h
      next hc =>
        cases h
        rw [tokens_of_current_none hc]
        exact .nil
      next k hc =>
        split at h
        next hsemicolon =>
          subst hsemicolon
          rw [tokens_of_current_some hc]
          exact .semicolon (ih _ (hsize ▸ left_advance_lt hc) h rfl)
        next =>
          obtain ⟨x, e, hx, h⟩ := Outcome.andThen_eq_ok_iff.mp h
          obtain ⟨xs', e', hxs', h⟩ := Outcome.andThen_eq_ok_iff.mp h
          cases h
          obtain ⟨ks, hks, hprogram⟩ := program_of_item_ok hx
          rw [hks]
          exact hprogram _ _ (ih _ (hsize ▸ left_lt_of_item_ok hx) hxs' rfl) (.inl e.head?_tokens)

/-- An item in front of a program is read with that program, if no semicolon begins it. -/
theorem program_ok_of_item {c d : Cursor τ} {x : Item} {xs : List Item}
    (hitem : c.item ops = (.ok x, d)) (hc : c.current ≠ some (.symbol ';'))
    (hxs : ∃ e, d.program ops = (.ok xs, e)) : ∃ e, c.program ops = (.ok (x :: xs), e) := by
  obtain ⟨e, he⟩ := hxs
  refine ⟨e, ?_⟩
  rw [program_eq]
  split
  next hnone =>
    have hlt := left_lt_of_item_ok hitem
    rw [left, left, tokens_of_current_none hnone] at hlt
    simp at hlt
  next k hk =>
    have hne : k ≠ .symbol ';' := fun hsemicolon => hc (hsemicolon ▸ hk)
    simp [hne, hitem, he]

/-- A program that has a derivation is read. -/
theorem program_ok_of_derives (hops : ops.Separating) {ks : List Token} {xs : List Item}
    (h : Program ops ks xs) : ∀ c : Cursor τ, c.tokens = ks → ∃ d, c.program ops = (.ok xs, d) := by
  induction h with
  | nil =>
      intro c hc
      have hnone : c.current = none := by rw [← head?_tokens, hc, List.head?_nil]
      exact ⟨c, by rw [program_eq, hnone]⟩
  | semicolon _ ih =>
      intro c hc
      obtain ⟨hcurrent, hc⟩ := of_tokens_eq_cons hc
      obtain ⟨d, hd⟩ := ih c.advance hc
      exact ⟨d, by rw [program_eq, hcurrent]; simp [hd]⟩
  | @definition p body ks ks' xs hbody hrest ih =>
      intro c hc
      obtain ⟨hcurrent, hc⟩ := of_tokens_eq_cons hc
      obtain ⟨d, hd, hd'⟩ := prototype_of_tokens hc
      obtain ⟨e, he, he'⟩ :=
        returns_of_derives hops hbody d ks' hd' rfl (hrest.operator?_head? hops)
      have hitem : c.item ops = (.ok (.function ⟨p, body⟩), e) := by
        rw [item, hcurrent]
        simp [definition, hd, he]
      exact program_ok_of_item hitem (by simp [hcurrent]) (ih e he')
  | @external p ks xs hrest ih =>
      intro c hc
      obtain ⟨hcurrent, hc⟩ := of_tokens_eq_cons hc
      obtain ⟨d, hd, hd'⟩ := prototype_of_tokens hc
      have hitem : c.item ops = (.ok (.external p), d) := by
        rw [item, hcurrent]
        simp [external, hd]
      exact program_ok_of_item hitem (by simp [hcurrent]) (ih d hd')
  | @toplevel body ks ks' xs hbody hrest ih =>
      intro c hc
      obtain ⟨k, ls, hks, hk⟩ := hbody.starts (by simp)
      have hcurrent : c.current = some k := by
        rw [hks, List.cons_append] at hc
        exact (of_tokens_eq_cons hc).1
      obtain ⟨d, hd, hd'⟩ := returns_of_derives hops hbody c ks' hc rfl (hrest.operator?_head? hops)
      have hitem : c.item ops = (.ok (.function ⟨.anonymous, body⟩), d) := by
        rw [item, hcurrent]
        cases k <;> simp_all [StartsExpr, toplevel]
      have hne : c.current ≠ some (.symbol ';') := by
        rw [hcurrent]
        rintro ⟨⟩
        simp [StartsExpr] at hk
      exact program_ok_of_item hitem hne (ih d hd')

/-- For a table that keeps phrases apart, reading a program is deriving it. -/
theorem program_ok_iff (hops : ops.Separating) (c : Cursor τ) (xs : List Item) :
    (c.program ops).1 = .ok xs ↔ Program ops c.tokens xs := by
  constructor
  · intro h
    exact program_of_ok (Prod.ext h rfl)
  · intro h
    obtain ⟨d, hd⟩ := program_ok_of_derives hops h c rfl
    rw [hd]

end Cursor

/-- The tokens in front of the first cursor of a text are the tokens of the text. -/
theorem tokens_start_ofText (s : String) :
    (Cursor.start (Lexer.ofText (.ofString s))).tokens = lex s := by
  rw [Cursor.tokens_start, lex, TokenStream.collect_eq_items]

/-- A text is parsed to what the grammar derives from its tokens. -/
theorem parseWith_ok_iff {ops : OpTable} (hops : ops.Separating) {s : String} {xs : List Item} :
    parseWith ops s = .ok xs ↔ Grammar.Program ops (lex s) xs := by
  rw [parseWith, Cursor.program_ok_iff hops, tokens_start_ofText]

/-- The parser accepts the programs of the grammar and returns what they mean, for every table that
keeps the parentheses, the comma and the semicolon out of the operators; no tokens have two meanings,
and the standard table is of this kind. -/
theorem parseWith_eq_ok_iff (ops : OpTable) (hops : ops.Separating) :
    (∀ s xs, parseWith ops s = .ok xs ↔ Grammar.Program ops (lex s) xs) ∧
      (∀ ks xs ys, Grammar.Program ops ks xs → Grammar.Program ops ks ys → xs = ys) ∧
      ∀ s xs, parse s = .ok xs ↔ Grammar.Program .standard (lex s) xs := by
  refine ⟨?_, ?_, ?_⟩
  · intro s xs
    exact parseWith_ok_iff hops
  · intro ks xs ys hxs hys
    have htokens : (Cursor.start ks).tokens = ks := by
      rw [Cursor.tokens_start, Source.items_eq (yields_list ks)]
    rw [← htokens, ← Cursor.program_ok_iff hops] at hxs hys
    exact Except.ok.inj (hxs.symm.trans hys)
  · intro s xs
    exact parseWith_ok_iff OpTable.separating_standard

/-- The standard table, and a text with two operators of one precedence: the right one is the root. -/
theorem parseWith_difference_eq_ok :
    OpTable.standard.Separating ∧
      parseWith .standard "a-b-c" =
        .ok [.function ⟨⟨"__anon_expr", []⟩,
          .binary '-' (.binary '-' (.var "a") (.var "b")) (.var "c")⟩] := by
  have hminus : OpTable.standard.IsOperator '-' 20 := by decide
  have hlex : lex "a-b-c" =
      [.ident "a", .symbol '-', .ident "b", .symbol '-', .ident "c"] := by
    have hstep {c : Char} {k : Token} (cs : List Char) (hk : Spells [c] k) :
        scan (c :: '-' :: cs) = k :: .symbol '-' :: scan cs := by
      rw [← List.singleton_append, scan_append hk (detached_cons (by decide)), scan_symbol (by decide)]
    have ha : Spells ['a'] (.ident "a") := .word rfl (by simp)
    have hb : Spells ['b'] (.ident "b") := .word rfl (by simp)
    have hc : Spells ['c'] (.ident "c") := .word rfl (by simp)
    rw [lex_eq_scan]
    calc scan ['a', '-', 'b', '-', 'c']
        = .ident "a" :: .symbol '-' :: .ident "b" :: .symbol '-' :: scan (['c'] ++ []) := by
          rw [hstep _ ha, hstep _ hb, List.append_nil]
      _ = [.ident "a", .symbol '-', .ident "b", .symbol '-', .ident "c"] := by
          rw [scan_append hc detached_nil, scan_nil]
  refine ⟨OpTable.separating_standard, ?_⟩
  rw [(parseWith_eq_ok_iff .standard OpTable.separating_standard).1, hlex]
  have hlast : Grammar.Derives .standard (.links [⟨'-', 20, .var "c"⟩]) [.symbol '-', .ident "c"] none :=
    .link hminus (.name (by simp)) .noLinks
  have hlinks : Grammar.Derives .standard (.links [⟨'-', 20, .var "b"⟩, ⟨'-', 20, .var "c"⟩])
      [.symbol '-', .ident "b", .symbol '-', .ident "c"] none := .link hminus (.name (by simp)) hlast
  have hleft : Link.Denotes (.var "a") ([] ++ [⟨'-', 20, .var "b"⟩]) (.binary '-' (.var "a") (.var "b")) :=
    .root (by simp) (by simp) .single .single
  have htree : Link.Denotes (.var "a") ([⟨'-', 20, .var "b"⟩] ++ [⟨'-', 20, .var "c"⟩])
      (.binary '-' (.binary '-' (.var "a") (.var "b")) (.var "c")) :=
    .root (by simp) (by simp) hleft .single
  exact .toplevel (.chain (.name (by simp)) hlinks htree) .nil

end ExprLang
