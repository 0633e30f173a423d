import ExprLang.Parser.Session
import ExprLang.Proofs.Locality
import ExprLang.Proofs.WellFormed

/-!
# The order of precedences

A parser compares precedences and does nothing else with them. So two tables that have the same operators
among the symbols, in the same order, lead to the same answers at the same cursors. A chain that is read
with one table is the chain that is read with the other, with each link relabelled by the other table, and
relabelling does not move the root of a chain. Which numbers stand in a table does not matter, nor what it
says of characters that are never symbols.
-/

namespace ExprLang

namespace OpTable

/-- Among the symbols both tables have the same operators, in the same order of precedence. -/
structure SameOrder (ops ops' : OpTable) : Prop where
  operator_iff {c : Char} (hc : IsSymbol c) :
    (∃ p, ops'.IsOperator c p) ↔ ∃ p, ops.IsOperator c p
  lt_iff {c d : Char} {p q p' q' : Int32} (hc : IsSymbol c) (hd : IsSymbol d)
    (hp : ops.IsOperator c p) (hq : ops.IsOperator d q) (hp' : ops'.IsOperator c p')
    (hq' : ops'.IsOperator d q') : p' < q' ↔ p < q

/-- Having the same order goes both ways. -/
theorem SameOrder.symm {ops ops' : OpTable} (h : ops.SameOrder ops') : ops'.SameOrder ops where
  operator_iff hc := (h.operator_iff hc).symm
  lt_iff hc hd hp hq hp' hq' := (h.lt_iff hc hd hp' hq' hp hq).symm

/-- A character has one precedence. -/
theorem IsOperator.unique {ops : OpTable} {c : Char} {p q : Int32} (hp : ops.IsOperator c p)
    (hq : ops.IsOperator c q) : p = q :=
  Option.some.inj (hp.2.1.symm.trans hq.2.1)

/-- The entry of a character after one entry was set. -/
theorem get?_insert (ops : OpTable) (c d : Char) (p : Int32) :
    (ops.insert c p).get? d = if c = d then some p else ops.get? d := by
  simp [insert, get?, Std.TreeMap.get?_eq_getElem?, Std.TreeMap.getElem?_insert]

/-- A character whose entry was set is an operator if it is ASCII and the entry is not negative. -/
theorem isOperator_insert_self_iff {ops : OpTable} {c : Char} {p q : Int32} :
    (ops.insert c p).IsOperator c q ↔ c.toNat < 128 ∧ p = q ∧ 0 ≤ q := by
  simp [IsOperator, get?_insert]

/-- Other characters are operators as before. -/
theorem isOperator_insert_of_ne {ops : OpTable} {c d : Char} {p q : Int32} (h : c ≠ d) :
    (ops.insert c p).IsOperator d q ↔ ops.IsOperator d q := by
  simp [IsOperator, get?_insert, h]

/-- Entries that no token can make use of: those of characters that are not ASCII or no symbols, and
negative ones where there is no operator. -/
def Inert (ops : OpTable) (c : Char) (p : Int32) : Prop :=
  128 ≤ c.toNat ∨ ¬IsSymbol c ∨ p < 0 ∧ ∀ q, ¬ops.IsOperator c q

/-- Setting such an entry keeps the operators among the symbols. -/
theorem isOperator_insert_of_inert {ops : OpTable} {c d : Char} {p q : Int32} (h : ops.Inert c p)
    (hd : IsSymbol d) : (ops.insert c p).IsOperator d q ↔ ops.IsOperator d q := by
  by_cases hcd : c = d
  · subst hcd
    rw [isOperator_insert_self_iff]
    rcases h with hascii | hsymbol | ⟨hneg, hnone⟩
    · simp [IsOperator, Nat.not_lt.mpr hascii]
    · exact absurd hd hsymbol
    · refine ⟨?_, fun hq => absurd hq (hnone q)⟩
      rintro ⟨_, hpq, hle⟩
      exact absurd (hpq ▸ hle) (Int32.not_le.mpr hneg)
  · exact isOperator_insert_of_ne hcd

/-- Setting such an entry keeps the order of the operators. -/
theorem sameOrder_insert_of_inert {ops : OpTable} {c : Char} {p : Int32} (h : ops.Inert c p) :
    ops.SameOrder (ops.insert c p) := by
  constructor
  · intro d hd
    exact exists_congr fun q => isOperator_insert_of_inert h hd
  · intro d e q r q' r' hd he hq hr hq' hr'
    rw [isOperator_insert_of_inert h hd] at hq'
    rw [isOperator_insert_of_inert h he] at hr'
    rw [hq'.unique hq, hr'.unique hr]

/-- An operator above all others may as well have the greatest precedence that there is. -/
theorem sameOrder_insert_maxValue {ops : OpTable} {c : Char} {p : Int32} (hc : ops.IsOperator c p)
    (habove : ∀ d q, d ≠ c → IsSymbol d → ops.IsOperator d q → q < p) :
    ops.SameOrder (ops.insert c Int32.maxValue) := by
  have hmax (q : Int32) (hq : q < p) : q < Int32.maxValue :=
    Int32.lt_of_lt_of_le hq (Int32.le_maxValue p)
  constructor
  · intro d hd
    by_cases hcd : c = d
    · subst hcd
      exact ⟨fun _ => ⟨p, hc⟩, fun _ => ⟨_, isOperator_insert_self_iff.mpr ⟨hc.1, rfl, by decide⟩⟩⟩
    · simp only [isOperator_insert_of_ne hcd]
  · intro d e q r q' r' hd he hq hr hq' hr'
    by_cases hcd : c = d
    · subst hcd
      obtain ⟨_, rfl, _⟩ := isOperator_insert_self_iff.mp hq'
      obtain rfl := hc.unique hq
      by_cases hce : c = e
      · subst hce
        obtain ⟨_, rfl, _⟩ := isOperator_insert_self_iff.mp hr'
        obtain rfl := hc.unique hr
        simp [Int32.lt_irrefl]
      · rw [isOperator_insert_of_ne hce] at hr'
        obtain rfl := hr.unique hr'
        have hlt := habove e r (Ne.symm hce) he hr
        simp [Int32.lt_asymm hlt, Int32.lt_asymm (hmax r hlt)]
    · rw [isOperator_insert_of_ne hcd] at hq'
      obtain rfl := hq.unique hq'
      have hlt := habove d q (Ne.symm hcd) hd hq
      by_cases hce : c = e
      · subst hce
        obtain ⟨_, rfl, _⟩ := isOperator_insert_self_iff.mp hr'
        obtain rfl := hc.unique hr
        simp [hlt, hmax q hlt]
      · rw [isOperator_insert_of_ne hce] at hr'
        rw [hr.unique hr']

end OpTable

namespace Link

/-- The link with the precedence that a table gives its operator. -/
def relabel (ops : OpTable) (k : Link) : Link :=
  { k with precedence := (ops.get? k.op).getD k.precedence }

/-- The operator of the link is a symbol, and the link has its precedence from the table. -/
def From (ops : OpTable) (k : Link) : Prop := IsSymbol k.op ∧ ops.IsOperator k.op k.precedence

variable {ops ops' : OpTable}

/-- Relabelling by a table gives links from this table. -/
theorem From.relabel (h : ops.SameOrder ops') {k : Link} (hk : k.From ops) : (k.relabel ops').From ops' := by
  obtain ⟨p, hp⟩ := (h.operator_iff hk.1).mpr ⟨k.precedence, hk.2⟩
  have hprecedence : (k.relabel ops').precedence = p := by simp [Link.relabel, hp.2.1]
  exact ⟨hk.1, hprecedence ▸ hp⟩

/-- Relabelling keeps the order of links. -/
theorem relabel_lt_iff (h : ops.SameOrder ops') {j k : Link} (hj : j.From ops) (hk : k.From ops) :
    (j.relabel ops').precedence < (k.relabel ops').precedence ↔ j.precedence < k.precedence :=
  h.lt_iff hj.1 hk.1 hj.2 hk.2 (hj.relabel h).2 (hk.relabel h).2

/-- A chain denotes the same tree when it is relabelled. -/
theorem Denotes.relabel (h : ops.SameOrder ops') {first e : Expr} {ls : List Link}
    (hdenotes : Denotes first ls e) (hls : ∀ k ∈ ls, k.From ops) :
    Denotes first (ls.map (Link.relabel ops')) e := by
  induction hdenotes with
  | single => exact .single
  | @root first lhs rhs before after link hbefore hafter _ _ ihLhs ihRhs =>
      have hfrom : (∀ k ∈ before, k.From ops) ∧ link.From ops ∧ ∀ k ∈ after, k.From ops :=
        ⟨fun k hk => hls k (by simp [hk]), hls link (by simp), fun k hk => hls k (by simp [hk])⟩
      rw [List.map_append, List.map_cons]
      have hbefore' : ∀ k ∈ before.map (Link.relabel ops'),
          (link.relabel ops').precedence ≤ k.precedence := by
        intro k hk
        obtain ⟨j, hj, rfl⟩ := List.mem_map.mp hk
        rw [← Int32.not_lt, relabel_lt_iff h (hfrom.1 j hj) hfrom.2.1, Int32.not_lt]
        exact hbefore j hj
      have hafter' : ∀ k ∈ after.map (Link.relabel ops'),
          (link.relabel ops').precedence < k.precedence := by
        intro k hk
        obtain ⟨j, hj, rfl⟩ := List.mem_map.mp hk
        rw [relabel_lt_iff h hfrom.2.1 (hfrom.2.2 j hj)]
        exact hafter j hj
      exact .root hbefore' hafter' (ihLhs hfrom.1) (ihRhs hfrom.2.2)

/-- Relabelling does not change the tree. -/
theorem tree_map_relabel (h : ops.SameOrder ops') (first : Expr) {ls : List Link}
    (hls : ∀ k ∈ ls, k.From ops) : tree first (ls.map (Link.relabel ops')) = tree first ls :=
  ((denotes_tree first ls).relabel h hls).eq_tree.symm

end Link

namespace Cursor

variable {τ α : Type} [TokenStream τ] {ops ops' : OpTable} {c d : Cursor τ}

/-- The tokens behind a primary can be spelled as those in front of it can. -/
theorem Spelled.primary (hc : c.Spelled) {e : Expr} (h : c.primary ops = (.ok e, d)) :
    d.Spelled := by
  have hd := hc.settled (settled_productions ops c).1
  rwa [h] at hd

/-- A symbol at a cursor is a token by itself. -/
theorem Spelled.isSymbol (hc : c.Spelled) {s : Char} (hs : c.current = some (.symbol s)) :
    IsSymbol s := by
  have hmem : Token.symbol s ∈ c.tokens := by
    rw [tokens_of_current_some hs]
    exact List.mem_cons_self
  obtain ⟨w, hw⟩ := hc _ hmem
  exact isSymbol_of_spells hw

/-- An operator of one table that stands at a cursor is an operator of the other table. -/
theorem Spelled.operator?_eq_some (hc : c.Spelled) (h : ops.SameOrder ops') {op : Char} {p : Int32}
    (hop : ops.operator? c.current = some (op, p)) : ∃ p', ops'.operator? c.current = some (op, p') := by
  obtain ⟨hcurrent, hp⟩ := OpTable.operator?_eq_some_iff.mp hop
  obtain ⟨p', hp'⟩ := (h.operator_iff (hc.isSymbol hcurrent)).mpr ⟨p, hp⟩
  exact ⟨p', hcurrent ▸ OpTable.operator?_symbol_iff.mpr hp'⟩

/-- Where no operator of one table stands at a cursor, none of the other table does. -/
theorem Spelled.operator?_eq_none (hc : c.Spelled) (h : ops.SameOrder ops')
    (hop : ops.operator? c.current = none) : ops'.operator? c.current = none := by
  rw [Option.eq_none_iff_forall_ne_some]
  intro ⟨op, p'⟩ hop'
  obtain ⟨p, hp⟩ := hc.operator?_eq_some h.symm hop'
  simp [hop] at hp

/-- The links that are read have their operators from the table. -/
theorem Spelled.from_of_links_ok {p : Int32 → Bool} {ls : List Link} (hc : c.Spelled)
    (h : c.links ops p = (.ok ls, d)) : ∀ k ∈ ls, k.From ops := by
  induction hsize : c.left using Nat.strongRecOn generalizing c ls with
  | ind size ih =>
      rw [links_eq] at h
      split at h
      next hop =>
        cases h
        simp
      next op precedence hop =>
        split at h
        next hp =>
          obtain ⟨operand, e, hoperand, h⟩ := Outcome.andThen_eq_ok_iff.mp h
          obtain ⟨ls', f, hls', h⟩ := Outcome.andThen_eq_ok_iff.mp h
          cases h
          obtain ⟨hcurrent, hisop⟩ := OpTable.operator?_eq_some_iff.mp hop
          have hadvance := left_advance_lt hcurrent
          have hlt := left_lt_of_primary_ok hoperand
          have hrest := ih e.left (by omega) (hc.advance.primary hoperand) hls' rfl
          intro k hk
          rcases List.mem_cons.mp hk with rfl | hk
          · exact ⟨hc.isSymbol hcurrent, hisop⟩
          · exact hrest k hk
        next =>
          cases h
          simp

/-- Primaries are the same if the expressions and the arguments inside them are. -/
theorem primary_sameOrder (hc : c.Spelled)
    (ih : ∀ d : Cursor τ, d.left < c.left →
      (d.Spelled → d.expr ops' = d.expr ops) ∧ (d.Spelled → d.arguments ops' = d.arguments ops)) :
    c.primary ops' = c.primary ops := by
  rw [primary_eq ops', primary_eq ops]
  split
  next value hk => rfl
  next name hk =>
    have hname := left_advance_lt hk
    have hopen := c.advance.left_advance_le
    rw [(ih c.advance.advance (by omega)).2 hc.advance.advance]
  next s hk => rw [(ih c.advance (left_advance_lt hk)).1 hc.advance]
  next => rfl

/-- Links are the same up to their labels if the primaries and the links inside them are. -/
theorem links_sameOrder (h : ops.SameOrder ops') (hc : c.Spelled)
    (ih : ∀ d : Cursor τ, d.left < c.left →
      (d.Spelled → d.primary ops' = d.primary ops) ∧
        (d.Spelled → d.links ops' (0 ≤ ·) =
          (d.links ops (0 ≤ ·)).andThen fun ls e => (.ok (ls.map (Link.relabel ops')), e))) :
    c.links ops' (0 ≤ ·) =
      (c.links ops (0 ≤ ·)).andThen fun ls d => (.ok (ls.map (Link.relabel ops')), d) := by
  cases hop : ops.operator? c.current with
  | none =>
      rw [links_eq, links_eq, hop, hc.operator?_eq_none h hop]
      rfl
  | some x =>
      obtain ⟨op, p⟩ := x
      obtain ⟨p', hop'⟩ := hc.operator?_eq_some h hop
      obtain ⟨hcurrent, _, _, hp⟩ := OpTable.operator?_eq_some_iff.mp hop
      obtain ⟨_, _, hget', hp'⟩ := OpTable.operator?_eq_some_iff.mp hop'
      have hlt := left_advance_lt hcurrent
      rw [links_of_operator hop (decide_eq_true hp), links_of_operator hop' (decide_eq_true hp'),
        (ih c.advance hlt).1 hc.advance, Outcome.andThen_assoc]
      apply Outcome.andThen_congr
      intro operand d hoperand
      have hlt' := left_lt_of_primary_ok hoperand
      have hlabel : Link.relabel ops' ⟨op, p, operand⟩ = ⟨op, p', operand⟩ := by
        simp [Link.relabel, hget']
      rw [(ih d (by omega)).2 (hc.advance.primary hoperand), Outcome.andThen_assoc, Outcome.andThen_assoc]
      simp only [Outcome.ok_andThen, List.map_cons, hlabel]

/-- The productions for expressions do the same with both tables. -/
theorem productions_sameOrder (h : ops.SameOrder ops') : ∀ c : Cursor τ,
    (c.Spelled → c.primary ops' = c.primary ops) ∧
      (c.Spelled → c.links ops' (0 ≤ ·) =
        (c.links ops (0 ≤ ·)).andThen fun ls d => (.ok (ls.map (Link.relabel ops')), d)) ∧
      (c.Spelled → c.expr ops' = c.expr ops) ∧
      (c.Spelled → c.arguments ops' = c.arguments ops) := by
  apply production_induction
  case primary =>
    intro c ih hc
    exact primary_sameOrder hc ih
  case links =>
    intro c ih hc
    exact links_sameOrder h hc ih
  case expr =>
    intro c hprimary hlinks hc
    rw [expr_eq_links, expr_eq_links, hprimary hc]
    apply Outcome.andThen_congr
    intro first d hfirst
    have hd := hc.primary hfirst
    rw [hlinks d (Nat.le_of_lt (left_lt_of_primary_ok hfirst)) hd, Outcome.andThen_assoc]
    apply Outcome.andThen_congr
    intro ls e hls
    rw [Outcome.ok_andThen, Link.tree_map_relabel h first (hd.from_of_links_ok hls)]
  case arguments =>
    intro c hexpr ih hc
    rw [arguments_eq, arguments_eq, hexpr hc]
    apply Outcome.andThen_congr
    intro arg d harg
    have hlt := left_lt_of_expr_ok harg
    have hle := d.left_advance_le
    have hd := hc.settled (settled_expr ops c)
    rw [harg] at hd
    rw [ih d.advance (by omega) hd.advance]

/-- Expressions are the same with both tables. -/
theorem expr_sameOrder (h : ops.SameOrder ops') (hc : c.Spelled) : c.expr ops' = c.expr ops :=
  (productions_sameOrder h c).2.2.1 hc

/-- Bare expressions are the same with both tables. -/
theorem toplevel_sameOrder (h : ops.SameOrder ops') (hc : c.Spelled) :
    c.toplevel ops' = c.toplevel ops := by
  rw [toplevel, toplevel, expr_sameOrder h hc]

/-- Definitions are the same with both tables. -/
theorem definition_sameOrder (h : ops.SameOrder ops') (hc : c.Spelled) :
    c.definition ops' = c.definition ops := by
  apply Outcome.andThen_congr
  intro p d hp
  have hd := hc.advance.settled (settled_prototype c.advance)
  rw [hp] at hd
  rw [expr_sameOrder h hd]

/-- Items are the same with both tables. -/
theorem item_sameOrder (h : ops.SameOrder ops') (hc : c.Spelled) : c.item ops' = c.item ops := by
  rw [item, item, definition_sameOrder h hc, toplevel_sameOrder h hc]

/-- Programs are the same with both tables. -/
theorem program_sameOrder (h : ops.SameOrder ops') (hc : c.Spelled) :
    c.program ops' = c.program ops := by
  induction hsize : c.left using Nat.strongRecOn generalizing c with
  | ind size ih =>
      rw [program_eq ops', program_eq ops, item_sameOrder h hc]
      split
      next => rfl
      next k hk =>
        rw [ih _ (hsize ▸ left_advance_lt hk) hc.advance rfl]
        congr 1
        apply Outcome.andThen_congr
        intro x d hx
        have hd := hc.settled (settled_item ops c)
        rw [hx] at hd
        rw [ih _ (hsize ▸ left_lt_of_item_ok hx) hd rfl]

end Cursor

/-- Commands that neither edit nor list the operator table. -/
def Command.parses : Command → Bool
  | .setOperator _ _ => false
  | .removeOperator _ => false
  | .table => false
  | _ => true

namespace Session

variable {τ α : Type} [TokenStream τ] {ops ops' : OpTable} {c : Cursor τ}

/-- The answers to commands, each with the cursor after it. -/
def outcomes (s : Session τ) (commands : List Command) : List (Answer × Cursor τ) :=
  (s.trace commands).map fun x => (x.1, x.2.cursor)

/-- Both sessions give one answer and go to one cursor, and what is in front of it can be spelled. -/
def RunsAlike (ops ops' : OpTable) (r r' : Answer × Session τ) : Prop :=
  ∃ answer d, r = (answer, ⟨ops, d⟩) ∧ r' = (answer, ⟨ops', d⟩) ∧ d.Spelled

/-- One outcome of a production settles alike with both tables. -/
theorem settle_runsAlike (hc : c.Spelled) (answer : α → Answer) {r : Outcome τ α}
    {f : Cursor τ → Outcome τ α} (hr : Cursor.Settled c r f) :
    RunsAlike ops ops' ((mk ops c).settle answer r) ((mk ops' c).settle answer r) := by
  have hd := hc.settled hr
  obtain ⟨result, d⟩ := r
  cases result with
  | ok a => exact ⟨answer a, d, rfl, rfl, hd⟩
  | error e => exact ⟨.error e, d, rfl, rfl, hd⟩

/-- A command that parses runs alike with both tables. -/
theorem run_runsAlike (h : ops.SameOrder ops') (hc : c.Spelled) {command : Command}
    (hcommand : command.parses = true) :
    RunsAlike ops ops' ((mk ops c).run command) ((mk ops' c).run command) := by
  cases command with
  | advance => exact ⟨.moved, c.advance, rfl, rfl, hc.advance⟩
  | expr =>
      simp only [run, Cursor.expr_sameOrder h hc]
      exact settle_runsAlike hc _ (Cursor.settled_expr ops c)
  | prototype => exact settle_runsAlike hc _ (Cursor.settled_prototype c)
  | definition =>
      simp only [run, Cursor.definition_sameOrder h hc]
      exact settle_runsAlike hc _ (Cursor.settled_definition ops c)
  | external => exact settle_runsAlike hc _ (Cursor.settled_external c)
  | toplevel =>
      simp only [run, Cursor.toplevel_sameOrder h hc]
      exact settle_runsAlike hc _ (Cursor.settled_toplevel ops c)
  | program =>
      simp only [run, Cursor.program_sameOrder h hc]
      exact settle_runsAlike hc _ (Cursor.settled_program ops c)
  | setOperator _ _ => simp [Command.parses] at hcommand
  | removeOperator _ => simp [Command.parses] at hcommand
  | table => simp [Command.parses] at hcommand

/-- Commands that parse have the same outcomes with both tables. -/
theorem outcomes_sameOrder (h : ops.SameOrder ops') (hc : c.Spelled) {commands : List Command}
    (hcommands : ∀ k ∈ commands, k.parses = true) :
    (mk ops' c).outcomes commands = (mk ops c).outcomes commands := by
  induction commands generalizing c with
  | nil => rfl
  | cons command commands ih =>
      obtain ⟨answer, d, hr, hr', hd⟩ := run_runsAlike h hc (hcommands command List.mem_cons_self)
      have hrest := ih hd fun k hk => hcommands k (List.mem_cons_of_mem _ hk)
      simp only [outcomes, trace, hr, hr', List.map_cons] at hrest ⊢
      rw [hrest]

end Session

/-- Only the order of precedences matters. Whatever is asked of a parser, wherever its lexer stands in its
source, a table with the same operators in the same order gives the same answers and leads to the same
cursors, and so to the same tokens and to the same place in the source. In particular nothing depends on an
entry that no token can make use of, and an operator above all others may have the greatest precedence. -/
theorem Session.outcomes_eq_of_sameOrder {σ : Type} [Source σ Char] (l : Lexer σ) (ops : OpTable)
    {commands : List Command} (hcommands : ∀ k ∈ commands, k.parses = true) :
    (∀ ops', ops.SameOrder ops' →
      (mk ops' (.start l)).outcomes commands = (mk ops (.start l)).outcomes commands) ∧
    (∀ c p, ops.Inert c p →
      (mk (ops.insert c p) (.start l)).outcomes commands = (mk ops (.start l)).outcomes commands) ∧
    ∀ c p, ops.IsOperator c p → (∀ d q, d ≠ c → IsSymbol d → ops.IsOperator d q → q < p) →
      (mk (ops.insert c Int32.maxValue) (.start l)).outcomes commands =
        (mk ops (.start l)).outcomes commands := by
  have horder (ops' : OpTable) (h : ops.SameOrder ops') :
      (mk ops' (.start l)).outcomes commands = (mk ops (.start l)).outcomes commands :=
    outcomes_sameOrder h (Cursor.spelled_start l) hcommands
  refine ⟨horder, ?_, ?_⟩
  · intro c p h
    exact horder _ (OpTable.sameOrder_insert_of_inert h)
  · intro c p hc habove
    exact horder _ (OpTable.sameOrder_insert_maxValue hc habove)

/-- Two tables with a product above a sum, one of them with the greatest precedence for it and with an entry
of a letter. -/
theorem Session.outcomes_eq_of_sameOrder_product :
    let ops := OpTable.empty.insert '+' 20 |>.insert '*' 40
    let ops' := OpTable.empty.insert '+' 0 |>.insert '*' Int32.maxValue |>.insert 'x' 5
    let l := Lexer.ofText (.ofString "a+b*c")
    (∀ k ∈ [Command.expr, .advance], k.parses = true) ∧ ops.SameOrder ops' ∧
      (mk ops' (.start l)).outcomes [.expr, .advance] = (mk ops (.start l)).outcomes [.expr, .advance] := by
  intro ops ops' l
  have hcommands : ∀ k ∈ [Command.expr, .advance], k.parses = true := by simp [Command.parses]
  have hoperator {sum product : Int32} (hsum : 0 ≤ sum) (hproduct : 0 ≤ product) (c : Char) (p : Int32) :
      (OpTable.empty.insert '+' sum |>.insert '*' product).IsOperator c p ↔
        c = '*' ∧ p = product ∨ c = '+' ∧ p = sum := by
    have hempty : OpTable.empty.get? c = none := by simp [OpTable.empty, OpTable.get?]
    by_cases hstar : '*' = c
    · subst hstar
      rw [OpTable.isOperator_insert_self_iff]
      grind
    · rw [OpTable.isOperator_insert_of_ne hstar]
      by_cases hplus : '+' = c
      · subst hplus
        rw [OpTable.isOperator_insert_self_iff]
        grind
      · rw [OpTable.isOperator_insert_of_ne hplus]
        simp [OpTable.IsOperator, hempty, Ne.symm hstar, Ne.symm hplus]
  have hops (c : Char) (p : Int32) : ops.IsOperator c p ↔ c = '*' ∧ p = 40 ∨ c = '+' ∧ p = 20 :=
    hoperator (by decide) (by decide) c p
  have hops' (c : Char) (p : Int32) (hc : IsSymbol c) :
      ops'.IsOperator c p ↔ c = '*' ∧ p = Int32.maxValue ∨ c = '+' ∧ p = 0 := by
    have hletter : OpTable.Inert (OpTable.empty.insert '+' 0 |>.insert '*' Int32.maxValue) 'x' 5 :=
      .inr (.inl (by decide))
    rw [OpTable.isOperator_insert_of_inert hletter hc]
    exact hoperator (by decide) (by decide) c p
  have horder : ops.SameOrder ops' := by
    constructor
    · intro c hc
      simp only [hops, hops' c _ hc, exists_or, exists_and_left, exists_eq, and_true]
    · intro c d p q p' q' hc hd hp hq hp' hq'
      rw [hops] at hp hq
      rw [hops' _ _ hc] at hp'
      rw [hops' _ _ hd] at hq'
      rcases hp with ⟨rfl, rfl⟩ | ⟨rfl, rfl⟩ <;> rcases hq with ⟨rfl, rfl⟩ | ⟨rfl, rfl⟩ <;>
        simp at hp' hq' <;> subst hp' hq' <;> decide
  exact ⟨hcommands, horder, (outcomes_eq_of_sameOrder l ops hcommands).1 ops' horder⟩

end ExprLang
