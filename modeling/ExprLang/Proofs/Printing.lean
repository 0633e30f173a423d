import ExprLang.Proofs.ValueEquality

/-!
# Printed programs

The text of a well-formed program scans to the tokens that its trees are written with, because no word
or numeral in it can go on into what follows. These tokens have a derivation in which every operator
stands in parentheses of its own, so the order of precedences is of no account, and no variable has a
parenthesis behind it. Hence parsing undoes printing.
-/

namespace ExprLang

/-- Well-formed items: names are identifiers, operators can be written, numbers are finite with sign bit
clear, and only a bare expression has the reserved name. -/
def Item.WellFormed (ops : OpTable) (x : Item) : Prop :=
  x.All IsIdentifier ops.Writable Binary64.IsFinite

mutual

/-- The tokens that an expression is written with. -/
def Expr.tokens : Expr → List Token
  | .literal value => [.number value]
  | .var name => [.ident name]
  | .binary op lhs rhs => .symbol '(' :: (lhs.tokens ++ .symbol op :: (rhs.tokens ++ [.symbol ')']))
  | .call callee args => .ident callee :: .symbol '(' :: (Expr.argsTokens args ++ [.symbol ')'])

/-- The tokens of arguments, divided by commas. -/
def Expr.argsTokens : List Expr → List Token
  | [] => []
  | [arg] => arg.tokens
  | arg :: next :: args => arg.tokens ++ .symbol ',' :: Expr.argsTokens (next :: args)

end

/-- The tokens that an item is written with. -/
def Item.tokens : Item → List Token
  | .external p => .external :: p.tokens
  | .function f =>
      if f.prototype.isAnonymous then f.body.tokens
      else .definition :: (f.prototype.tokens ++ f.body.tokens)

/-- The tokens of a program, divided by semicolons. -/
def Item.listTokens : List Item → List Token
  | [] => []
  | [x] => x.tokens
  | x :: y :: xs => x.tokens ++ .symbol ';' :: Item.listTokens (y :: xs)

/-- An open parenthesis is a token by itself. -/
theorem scan_open (cs : List Char) : scan ('(' :: cs) = .symbol '(' :: scan cs :=
  scan_symbol (by decide)

/-- A closing parenthesis is a token by itself. -/
theorem scan_close (cs : List Char) : scan (')' :: cs) = .symbol ')' :: scan cs :=
  scan_symbol (by decide)

mutual

/-- The text of a well-formed expression scans to its tokens. -/
theorem scan_text {ops : OpTable} : (e : Expr) → e.All IsIdentifier ops.Writable Binary64.IsFinite →
    ∀ rest, Detached rest → scan (e.text.toList ++ rest) = e.tokens ++ scan rest
  | .literal value, he, rest, hrest => scan_append (Binary64.spells_text he) hrest
  | .var name, he, rest, hrest => scan_append (IsIdentifier.spells he) hrest
  | .binary op lhs rhs, ⟨hop, hlhs, hrhs⟩, rest, hrest => by
      have htext : (Expr.binary op lhs rhs).text.toList ++ rest =
          '(' :: (lhs.text.toList ++ ' ' :: op :: ' ' :: (rhs.text.toList ++ ')' :: rest)) := by
        simp [Expr.text]
      rw [htext, scan_open, scan_text lhs hlhs _ (detached_cons (by decide)), scan_blank rfl,
        scan_symbol hop.2, scan_blank rfl, scan_text rhs hrhs _ (detached_cons (by decide)), scan_close]
      simp [Expr.tokens]
  | .call callee args, ⟨hcallee, hargs⟩, rest, hrest => by
      have htext : (Expr.call callee args).text.toList ++ rest =
          callee.toList ++ '(' :: ((Expr.argsText args).toList ++ ')' :: rest) := by
        simp [Expr.text]
      rw [htext, scan_append (IsIdentifier.spells hcallee) (detached_cons (by decide)), scan_open,
        scan_argsText args hargs _ (detached_cons (by decide)), scan_close]
      simp [Expr.tokens]

/-- The texts of well-formed arguments scan to their tokens. -/
theorem scan_argsText {ops : OpTable} :
    (es : List Expr) → Expr.argsAll IsIdentifier ops.Writable Binary64.IsFinite es →
    ∀ rest, Detached rest → scan ((Expr.argsText es).toList ++ rest) = Expr.argsTokens es ++ scan rest
  | [], _, rest, _ => rfl
  | [arg], ⟨harg, _⟩, rest, hrest => scan_text arg harg rest hrest
  | arg :: next :: args, ⟨harg, hargs⟩, rest, hrest => by
      have htext : (Expr.argsText (arg :: next :: args)).toList ++ rest =
          arg.text.toList ++ ',' :: ' ' :: ((Expr.argsText (next :: args)).toList ++ rest) := by
        simp [Expr.argsText]
      have hcomma : IsSymbol ',' := by decide
      rw [htext, scan_text arg harg _ (detached_cons (by decide)), scan_symbol hcomma, scan_blank rfl,
        scan_argsText (next :: args) hargs rest hrest]
      simp [Expr.argsTokens]

end

/-- Identifiers with spaces between them scan to themselves. -/
theorem scan_params : (params : List String) → (∀ n ∈ params, IsIdentifier n) →
    ∀ rest, Detached rest →
      scan ([' '].intercalate (params.map String.toList) ++ rest) = params.map .ident ++ scan rest
  | [], _, rest, _ => rfl
  | [n], hparams, rest, hrest => by
      simpa using scan_append (hparams n List.mem_cons_self).spells hrest
  | n :: n' :: params, hparams, rest, hrest => by
      have htext : [' '].intercalate ((n :: n' :: params).map String.toList) ++ rest =
          n.toList ++ ' ' :: ([' '].intercalate ((n' :: params).map String.toList) ++ rest) := by
        simp
      rw [htext, scan_append (hparams n List.mem_cons_self).spells (detached_cons (by decide)),
        scan_blank rfl,
        scan_params (n' :: params) (fun m hm => hparams m (List.mem_cons_of_mem _ hm)) rest hrest]
      simp

/-- The text of a prototype of identifiers scans to its tokens. -/
theorem scan_prototype_text {p : Prototype} (hp : p.All IsIdentifier) (rest : List Char) :
    scan (p.text.toList ++ rest) = p.tokens ++ scan rest := by
  obtain ⟨hname, hparams⟩ := hp
  have htext : p.text.toList ++ rest =
      p.name.toList ++ '(' :: ([' '].intercalate (p.params.map String.toList) ++ ')' :: rest) := by
    simp [Prototype.text]
  rw [htext, scan_append hname.spells (detached_cons (by decide)), scan_open,
    scan_params p.params hparams _ (detached_cons (by decide)), scan_close]
  simp [Prototype.tokens]

/-- The reserved name is no identifier. -/
theorem not_isAnonymous {p : Prototype} (hp : p.All IsIdentifier) : p.isAnonymous = false := by
  rw [Bool.eq_false_iff]
  intro hanonymous
  obtain ⟨c, cs, hname, hc, _⟩ := hp.1.toList_eq
  rw [beq_iff_eq.mp hanonymous] at hname
  have hfirst : c = '_' := by
    have hchars : Prototype.anonymousName.toList = '_' :: "_anon_expr".toList := by decide
    rw [hchars] at hname
    exact (List.cons.inj hname).1.symm
  rw [hfirst] at hc
  simp at hc

/-- The text of a well-formed item scans to its tokens. -/
theorem scan_item_text {ops : OpTable} {x : Item} (hx : x.WellFormed ops) {rest : List Char}
    (hrest : Detached rest) : scan (x.text.toList ++ rest) = x.tokens ++ scan rest := by
  have hspace (cs : List Char) : Detached (' ' :: cs) := detached_cons (by decide)
  cases x with
  | external p =>
      have hkeyword : Spells "extern".toList .external := .word rfl (List.all_eq_true.mp rfl)
      have htext : (Item.external p).text.toList ++ rest =
          "extern".toList ++ ' ' :: (p.text.toList ++ rest) := by
        simp [Item.text]
      rw [htext, scan_append hkeyword (hspace _), scan_blank rfl, scan_prototype_text hx]
      rfl
  | function f =>
      obtain ⟨hprototype, hbody⟩ := hx
      rcases hprototype with hanonymous | hprototype
      · have hname : f.prototype.isAnonymous = true := by rw [hanonymous]; rfl
        simp only [Item.text, Function.text, Item.tokens, hname, ↓reduceIte]
        exact scan_text f.body hbody rest hrest
      · have hname := not_isAnonymous hprototype
        have hkeyword : Spells "def".toList .definition := .word rfl (List.all_eq_true.mp rfl)
        have htext : (Item.function f).text.toList ++ rest =
            "def".toList ++ ' ' :: (f.prototype.text.toList ++ ' ' :: (f.body.text.toList ++ rest)) := by
          simp [Item.text, Function.text, hname]
        rw [htext, scan_append hkeyword (hspace _), scan_blank rfl, scan_prototype_text hprototype,
          scan_blank rfl, scan_text f.body hbody rest hrest]
        simp [Item.tokens, hname]

/-- The text of a well-formed program scans to its tokens. -/
theorem scan_listText {ops : OpTable} : (xs : List Item) → (∀ x ∈ xs, x.WellFormed ops) →
    scan (Item.listText xs).toList = Item.listTokens xs
  | [], _ => by simp [Item.listText, Item.listTokens]
  | [x], hxs => by
      have h := scan_item_text (hxs x List.mem_cons_self) detached_nil
      simpa [Item.listText, Item.listTokens] using h
  | x :: y :: xs, hxs => by
      have htext : (Item.listText (x :: y :: xs)).toList =
          x.text.toList ++ ';' :: '\n' :: (Item.listText (y :: xs)).toList := by
        simp [Item.listText]
      have hsemicolon : IsSymbol ';' := by decide
      rw [htext, scan_item_text (hxs x List.mem_cons_self) (detached_cons (by decide)),
        scan_symbol hsemicolon, scan_blank rfl,
        scan_listText (y :: xs) fun z hz => hxs z (List.mem_cons_of_mem _ hz)]
      rfl

section Derivations

open Grammar

variable {ops : OpTable}

/-- Two operands in parentheses are a primary, whatever the precedence of the operator. -/
theorem Grammar.Derives.binary {op : Char} {lhs rhs : Expr} {ks ks' : List Token} {next : Option Token}
    (hop : ∃ precedence, ops.IsOperator op precedence)
    (hlhs : Derives ops (.primary lhs) ks (some (.symbol op)))
    (hrhs : Derives ops (.primary rhs) ks' (some (.symbol ')'))) :
    Derives ops (.primary (.binary op lhs rhs))
      (.symbol '(' :: (ks ++ .symbol op :: (ks' ++ [.symbol ')']))) next := by
  obtain ⟨precedence, hprecedence⟩ := hop
  have hlink : Derives ops (.links [⟨op, precedence, rhs⟩]) (.symbol op :: (ks' ++ []))
      (some (.symbol ')')) := .link hprecedence hrhs .noLinks
  have htree : Link.Denotes lhs ([] ++ [⟨op, precedence, rhs⟩]) (.binary op lhs rhs) :=
    .root (by simp) (by simp) .single .single
  have hgroup : Derives ops (.primary (.binary op lhs rhs))
      (.symbol '(' :: ((ks ++ .symbol op :: (ks' ++ [])) ++ [.symbol ')'])) next :=
    .group (.chain hlhs hlink htree)
  simpa using hgroup

mutual

/-- The tokens of a well-formed expression are a primary that means it. -/
theorem derives_tokens (hops : ops.Separating) :
    (e : Expr) → e.All IsIdentifier ops.Writable Binary64.IsFinite →
    ∀ next, next ≠ some (.symbol '(') → Derives ops (.primary e) e.tokens next
  | .literal _, _, _, _ => .number
  | .var _, _, _, hnext => .name hnext
  | .binary op lhs rhs, ⟨hop, hlhs, hrhs⟩, next, _ => by
      have hopen : some (Token.symbol op) ≠ some (.symbol '(') := by
        rintro ⟨⟩
        obtain ⟨⟨precedence, _, hget, hle⟩, _⟩ := hop
        exact Int32.not_lt.mpr hle (hops '(' (by simp) precedence hget)
      exact .binary hop.1 (derives_tokens hops lhs hlhs _ hopen)
        (derives_tokens hops rhs hrhs _ (by simp))
  | .call _ [], _, _, _ => .emptyCall
  | .call _ (arg :: args), ⟨_, hargs⟩, _, _ =>
      .call (derives_argsTokens hops (arg :: args) (by simp) hargs _ (by simp))

/-- The tokens of well-formed arguments mean these. -/
theorem derives_argsTokens (hops : ops.Separating) :
    (es : List Expr) → es ≠ [] → Expr.argsAll IsIdentifier ops.Writable Binary64.IsFinite es →
    ∀ next, next ≠ some (.symbol '(') → Derives ops (.arguments es) (Expr.argsTokens es) next
  | [], hne, _, _, _ => absurd rfl hne
  | [e], _, ⟨he, _⟩, next, hnext =>
      .lastArgument (derives_tokens hops e he next hnext).expr_of_primary
  | e :: e' :: es, _, ⟨he, hes⟩, next, hnext =>
      .argument (derives_tokens hops e he _ (by simp)).expr_of_primary
        (derives_argsTokens hops (e' :: es) (by simp) hes next hnext)

end

/-- The tokens of a well-formed item stand for it in front of a program, if that does not begin with a
parenthesis. -/
theorem program_tokens_append (hops : ops.Separating) {x : Item} (hx : x.WellFormed ops)
    {ks : List Token} {xs : List Item} (hks : ks.head? ≠ some (.symbol '(')) (h : Program ops ks xs) :
    Program ops (x.tokens ++ ks) (x :: xs) := by
  cases x with
  | external p => exact .external h
  | function f =>
      obtain ⟨prototype, body⟩ := f
      obtain ⟨hprototype, hbody⟩ := hx
      have hderives := (derives_tokens hops body hbody ks.head? hks).expr_of_primary
      rcases hprototype with hanonymous | hprototype
      · cases hanonymous
        exact .toplevel hderives h
      · have hname := not_isAnonymous hprototype
        simp only [Item.tokens, hname, Bool.false_eq_true, ↓reduceIte, List.cons_append,
          List.append_assoc]
        exact .definition hderives h

/-- The tokens of a well-formed program mean that program. -/
theorem program_listTokens (hops : ops.Separating) :
    (xs : List Item) → (∀ x ∈ xs, x.WellFormed ops) → Program ops (Item.listTokens xs) xs
  | [], _ => .nil
  | [x], hxs => by
      have h := program_tokens_append hops (hxs x List.mem_cons_self) (by simp) .nil
      rwa [List.append_nil] at h
  | x :: y :: xs, hxs =>
      program_tokens_append hops (hxs x List.mem_cons_self) (by simp)
        (.semicolon (program_listTokens hops (y :: xs) fun z hz => hxs z (List.mem_cons_of_mem _ hz)))

/-- The text of a well-formed program is parsed to that program. -/
theorem parseWith_listText_eq (hops : ops.Separating) {xs : List Item}
    (hxs : ∀ x ∈ xs, x.WellFormed ops) : parseWith ops (Item.listText xs) = .ok xs := by
  rw [parseWith_ok_iff hops, lex_eq_scan, scan_listText xs hxs]
  exact program_listTokens hops xs hxs

end Derivations

/-- Parsing undoes printing, for every well-formed program and whatever the precedences: the items that
are read back are the ones that were written, bit for bit, and equal by value. -/
theorem parseWith_listText (ops : OpTable) (hops : ops.Separating) (xs : List Item)
    (hxs : ∀ x ∈ xs, x.WellFormed ops) :
    parseWith ops (Item.listText xs) = .ok xs ∧ Item.listNumEq xs xs = true := by
  refine ⟨parseWith_listText_eq hops hxs, (Item.listNumEq_self_iff xs).mpr ?_⟩
  intro x hx
  refine (hxs x hx).numbers ?_
  intro value hvalue
  exact decide_eq_false (Nat.not_lt.mpr (Nat.le_of_lt hvalue.2))

/-- A definition whose body is a product of a sum and a call, and a bare expression behind it. -/
theorem parseWith_listText_product :
    let xs : List Item :=
      [.function ⟨⟨"f", ["a", "b"]⟩, .binary '*' (.binary '+' (.var "a") (.literal ⟨0x3FF8000000000000⟩))
        (.call "g" [.var "a", .var "b"])⟩, .function ⟨.anonymous, .call "f" []⟩]
    (∀ x ∈ xs, x.WellFormed .standard) ∧ parseWith .standard (Item.listText xs) = .ok xs := by
  intro xs
  have hplus : OpTable.standard.Writable '+' := ⟨⟨20, by decide⟩, by decide⟩
  have htimes : OpTable.standard.Writable '*' := ⟨⟨40, by decide⟩, by decide⟩
  have ha : IsIdentifier "a" := by decide
  have hb : IsIdentifier "b" := by decide
  have hf : IsIdentifier "f" := by decide
  have hg : IsIdentifier "g" := by decide
  have hnumber : Binary64.IsFinite ⟨0x3FF8000000000000⟩ := by decide
  have hxs : ∀ x ∈ xs, x.WellFormed .standard := by
    intro x hx
    simp only [xs, List.mem_cons, List.not_mem_nil, or_false] at hx
    rcases hx with rfl | rfl
    · exact ⟨.inr ⟨hf, by simp [ha, hb]⟩, htimes, ⟨hplus, ha, hnumber⟩, hg, ha, hb, trivial⟩
    · exact ⟨.inl rfl, hf, trivial⟩
  exact ⟨hxs, (parseWith_listText .standard OpTable.separating_standard xs hxs).1⟩

end ExprLang
