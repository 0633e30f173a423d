import Mathlib.Data.List.Forall2
import ExprLang.Parser.Session
import ExprLang.Proofs.Locality

/-!
# Productions at related cursors

Two cursors, maybe over different streams, are related in a way that advancing keeps. Then a production
does the same at both: it succeeds with one answer, or fails with one expectation, and stops at related
cursors. This is proved once for every such relation. What it says of a single cursor is that whatever
advancing keeps every production keeps; what it says of two is that the tokens in front are all that
counts.

The current tokens need not be equal: up to whole items the end of input may stand on one side where a
semicolon stands on the other. Only a program tells these apart.
-/

namespace ExprLang

variable {τ τ' α β : Type} [TokenStream τ] [TokenStream τ']

/-- One token, or the end and a semicolon that is no operator. -/
def OpTable.Alike (ops : OpTable) (k k' : Option Token) : Prop :=
  k' = k ∨ k = none ∧ k' = some (.symbol ';') ∧ ops.operator? k' = none

/-- Both outcomes are one answer or fail with one expectation, at related cursors. -/
inductive Outcome.Alike (R : Cursor τ → Cursor τ' → Prop) : Outcome τ α → Outcome τ' α → Prop
  | ok {c : Cursor τ} {c' : Cursor τ'} (a : α) (h : R c c') : Alike R (.ok a, c) (.ok a, c')
  | fail {c : Cursor τ} {c' : Cursor τ'} (expected : Expected) (h : R c c') :
      Alike R (c.fail expected) (c'.fail expected)

namespace Outcome.Alike

variable {R : Cursor τ → Cursor τ' → Prop} {r : Outcome τ α} {r' : Outcome τ' α}

/-- Outcomes that are alike stop at related cursors. -/
theorem cursor (h : Alike R r r') : R r.2 r'.2 := by
  cases h with
  | ok _ h => exact h
  | fail _ h => exact h

/-- Going on alike keeps outcomes alike. -/
theorem andThen {f : α → Cursor τ → Outcome τ β} {f' : α → Cursor τ' → Outcome τ' β}
    (h : Alike R r r') (hf : ∀ a c c', r = (.ok a, c) → R c c' → Alike R (f a c) (f' a c')) :
    Alike R (r.andThen f) (r'.andThen f') := by
  cases h with
  | ok a h => exact hf a _ _ rfl h
  | fail expected h => exact .fail expected h

/-- Where related cursors stand on one token the results are equal. -/
theorem result_eq (h : Alike R r r') (hcurrent : r'.2.current = r.2.current) : r'.1 = r.1 := by
  cases h with
  | ok a _ => rfl
  | @fail c c' expected _ =>
      have hfound : c'.current = c.current := hcurrent
      simp only [Cursor.fail, hfound]

end Outcome.Alike

namespace Cursor

open Outcome (Alike)

/-- A relation that advancing keeps, between cursors that no production for items tells apart. -/
structure Simulation (ops : OpTable) (R : Cursor τ → Cursor τ' → Prop) : Prop where
  alike : ∀ {c c'}, R c c' → ops.Alike c.current c'.current
  advance : ∀ {c c' k}, R c c' → c.current = some k → R c.advance c'.advance

namespace Simulation

variable {ops : OpTable} {R : Cursor τ → Cursor τ' → Prop} {c : Cursor τ} {c' : Cursor τ'}

/-- A token stands on both sides. -/
theorem current {k : Token} (h : Simulation ops R) (hc : R c c') (hk : c.current = some k) :
    c'.current = some k := by
  rcases h.alike hc with heq | ⟨hend, _⟩
  · rw [heq, hk]
  · simp [hend] at hk

/-- A token that is no semicolon stands on both sides or on none. -/
theorem current_iff {k : Token} (h : Simulation ops R) (hc : R c c') (hk : k ≠ .symbol ';') :
    c'.current = some k ↔ c.current = some k := by
  rcases h.alike hc with heq | ⟨hend, hsemicolon, _⟩
  · rw [heq]
  · rw [hend, hsemicolon]
    simp [hk.symm]

/-- An operator stands on both sides or on none. -/
theorem operator? (h : Simulation ops R) (hc : R c c') :
    ops.operator? c'.current = ops.operator? c.current := by
  rcases h.alike hc with heq | ⟨hend, _, hnone⟩
  · rw [heq]
  · rw [hnone, hend]
    rfl

/-- A decision on the current token. -/
theorem ite {k : Token} {r s : Outcome τ α} {r' s' : Outcome τ' α} (h : Simulation ops R)
    (hc : R c c') (hk : k ≠ .symbol ';') (hpos : c.current = some k → Alike R r r')
    (hneg : Alike R s s') :
    Alike R (if c.current = some k then r else s) (if c'.current = some k then r' else s') := by
  simp only [h.current_iff hc hk]
  split
  next hcurrent => exact hpos hcurrent
  next => exact hneg

/-- Primaries end alike if the arguments and the expressions inside them do. -/
theorem primary_of (h : Simulation ops R) (hc : R c c')
    (ih : ∀ d : Cursor τ, d.left < c.left →
      (∀ d', R d d' → Alike R (d.expr ops) (d'.expr ops)) ∧
        ∀ d', R d d' → Alike R (d.arguments ops) (d'.arguments ops)) :
    Alike R (c.primary ops) (c'.primary ops) := by
  rw [primary_eq ops c]
  split
  next value hk =>
    rw [primary_eq, h.current hc hk]
    exact .ok _ (h.advance hc hk)
  next name hk =>
    have hd := h.advance hc hk
    have hlt := left_advance_lt hk
    rw [primary_eq, h.current hc hk]
    refine h.ite hd (by simp) ?_ (.ok _ hd)
    intro hopen
    have he := h.advance hd hopen
    have hlt' := left_advance_lt hopen
    refine h.ite he (by simp) ?_ ?_
    · intro hclose
      exact .ok _ (h.advance he hclose)
    · apply ((ih c.advance.advance (by omega)).2 _ he).andThen
      intro args d d' _ hd
      exact .ok _ hd
  next s hk =>
    rw [primary_eq, h.current hc hk]
    dsimp only
    split
    next =>
      apply ((ih c.advance (left_advance_lt hk)).1 _ (h.advance hc hk)).andThen
      intro inner d d' _ hd
      refine h.ite hd (by simp) ?_ (.fail _ hd)
      intro hclose
      exact .ok _ (h.advance hd hclose)
    next => exact .fail _ hc
  next hnumber hident hsymbol =>
    have hfail : c'.primary ops = c'.fail .expression := by
      rw [primary_eq]
      rcases h.alike hc with heq | ⟨_, hsemicolon, _⟩
      · rw [heq]
        split
        next value hk => exact absurd hk (hnumber value)
        next name hk => exact absurd hk (hident name)
        next s hk => exact absurd hk (hsymbol s)
        next => rfl
      · rw [hsemicolon]
        rfl
    rw [hfail]
    exact .fail _ hc

/-- Links end alike if the primaries and the links inside them do. -/
theorem links_of (h : Simulation ops R) (hc : R c c')
    (ih : ∀ d : Cursor τ, d.left < c.left →
      (∀ d', R d d' → Alike R (d.primary ops) (d'.primary ops)) ∧
        ∀ d', R d d' → Alike R (d.links ops (0 ≤ ·)) (d'.links ops (0 ≤ ·))) :
    Alike R (c.links ops (0 ≤ ·)) (c'.links ops (0 ≤ ·)) := by
  rw [links_eq ops _ c, links_eq ops _ c', h.operator? hc]
  split
  next => exact .ok _ hc
  next op precedence hop =>
    have hk := (OpTable.operator?_eq_some_iff.mp hop).1
    have hlt := left_advance_lt hk
    split
    next =>
      apply ((ih c.advance hlt).1 _ (h.advance hc hk)).andThen
      intro operand d d' hoperand hd
      have hlt' := left_lt_of_primary_ok hoperand
      apply ((ih d (by omega)).2 _ hd).andThen
      intro ls e e' _ he
      exact .ok _ he
    next => exact .ok _ hc

/-- Arguments end alike if the expressions inside them do. -/
theorem arguments_of (h : Simulation ops R)
    (hexpr : Alike R (c.expr ops) (c'.expr ops))
    (ih : ∀ d : Cursor τ, d.left < c.left →
      ∀ d', R d d' → Alike R (d.arguments ops) (d'.arguments ops)) :
    Alike R (c.arguments ops) (c'.arguments ops) := by
  rw [arguments_eq ops c, arguments_eq ops c']
  apply hexpr.andThen
  intro arg d d' harg hd
  have hlt := left_lt_of_expr_ok harg
  refine h.ite hd (by simp) ?_ (h.ite hd (by simp) ?_ (.fail _ hd))
  · intro hclose
    exact .ok _ (h.advance hd hclose)
  · intro hcomma
    have hlt' := left_advance_lt hcomma
    apply (ih d.advance (by omega) _ (h.advance hd hcomma)).andThen
    intro args e e' _ he
    exact .ok _ he

/-- The productions for expressions end alike at related cursors. -/
theorem productions (h : Simulation ops R) : ∀ c : Cursor τ,
    (∀ c', R c c' → Alike R (c.primary ops) (c'.primary ops)) ∧
      (∀ c', R c c' → Alike R (c.links ops (0 ≤ ·)) (c'.links ops (0 ≤ ·))) ∧
      (∀ c', R c c' → Alike R (c.expr ops) (c'.expr ops)) ∧
      ∀ c', R c c' → Alike R (c.arguments ops) (c'.arguments ops) := by
  apply production_induction
  case primary =>
    intro c ih c' hc
    exact h.primary_of hc ih
  case links =>
    intro c ih c' hc
    exact h.links_of hc ih
  case expr =>
    intro c hprimary hlinks c' hc
    rw [expr_eq_links ops c, expr_eq_links ops c']
    apply (hprimary c' hc).andThen
    intro first d d' hfirst hd
    apply (hlinks d (Nat.le_of_lt (left_lt_of_primary_ok hfirst)) d' hd).andThen
    intro ls e e' _ he
    exact .ok _ he
  case arguments =>
    intro c hexpr ih c' hc
    exact h.arguments_of (hexpr c' hc) ih

/-- Expressions end alike at related cursors. -/
theorem expr (h : Simulation ops R) (hc : R c c') : Alike R (c.expr ops) (c'.expr ops) :=
  (h.productions c).2.2.1 c' hc

/-- Parameters end alike at related cursors. -/
theorem parameters (h : Simulation ops R) (hc : R c c') :
    c'.parameters.1 = c.parameters.1 ∧ R c.parameters.2 c'.parameters.2 := by
  induction hsize : c.left using Nat.strongRecOn generalizing c c' with
  | ind size ih =>
      rw [parameters_eq c]
      split
      next name hk =>
        obtain ⟨hnames, hcursor⟩ := ih _ (hsize ▸ left_advance_lt hk) (h.advance hc hk) rfl
        rw [parameters_eq, h.current hc hk]
        exact ⟨congrArg (name :: ·) hnames, hcursor⟩
      next hne =>
        have hstop : c'.parameters = ([], c') := by
          rw [parameters_eq]
          rcases h.alike hc with heq | ⟨_, hsemicolon, _⟩
          · rw [heq]
            split
            next name hk => exact absurd hk (hne name)
            next => rfl
          · rw [hsemicolon]
        rw [hstop]
        exact ⟨rfl, hc⟩

/-- Prototypes end alike at related cursors. -/
theorem prototype (h : Simulation ops R) (hc : R c c') : Alike R c.prototype c'.prototype := by
  rw [prototype_eq c]
  split
  next name hk =>
    have hd := h.advance hc hk
    rw [prototype_eq, h.current hc hk]
    refine h.ite hd (by simp) ?_ (.fail _ hd)
    intro hopen
    obtain ⟨hparams, he⟩ := h.parameters (h.advance hd hopen)
    rw [Outcome.ok_andThen, Outcome.ok_andThen, hparams]
    refine h.ite he (by simp) ?_ (.fail _ he)
    intro hclose
    exact .ok _ (h.advance he hclose)
  next hne =>
    have hfail : c'.prototype = c'.fail .functionName := by
      rw [prototype_eq]
      rcases h.alike hc with heq | ⟨_, hsemicolon, _⟩
      · rw [heq]
        split
        next name hk => exact absurd hk (hne name)
        next => rfl
      · rw [hsemicolon]
    rw [hfail]
    exact .fail _ hc

/-- Bare expressions end alike at related cursors. -/
theorem toplevel (h : Simulation ops R) (hc : R c c') : Alike R (c.toplevel ops) (c'.toplevel ops) := by
  apply (h.expr hc).andThen
  intro body d d' _ hd
  exact .ok _ hd

/-- Definitions end alike if the cursors behind the tokens that they leave out are related. -/
theorem definition (h : Simulation ops R) (hc : R c.advance c'.advance) :
    Alike R (c.definition ops) (c'.definition ops) := by
  apply (h.prototype hc).andThen
  intro p d d' _ hd
  apply (h.expr hd).andThen
  intro body e e' _ he
  exact .ok _ he

/-- Items end alike at related cursors. -/
theorem item (h : Simulation ops R) (hc : R c c') : Alike R (c.item ops) (c'.item ops) := by
  unfold Cursor.item
  split
  next hk =>
    rw [h.current hc hk]
    apply (h.definition (h.advance hc hk)).andThen
    intro f d d' _ hd
    exact .ok _ hd
  next hk =>
    rw [h.current hc hk]
    apply (h.prototype (h.advance hc hk)).andThen
    intro p d d' _ hd
    exact .ok _ hd
  next hdefinition hexternal =>
    have hdefinition' : c'.current ≠ some .definition := fun hk =>
      hdefinition ((h.current_iff hc (by simp)).mp hk)
    have hexternal' : c'.current ≠ some .external := fun hk =>
      hexternal ((h.current_iff hc (by simp)).mp hk)
    split
    next hk => exact absurd hk hdefinition'
    next hk => exact absurd hk hexternal'
    next =>
      apply (h.toplevel hc).andThen
      intro f d d' _ hd
      exact .ok _ hd

end Simulation

/-- A relation that advancing keeps, between cursors that stand on the same token. -/
structure Bisimulation (R : Cursor τ → Cursor τ' → Prop) : Prop where
  current : ∀ {c c'}, R c c' → c'.current = c.current
  advance : ∀ {c c'}, R c c' → R c.advance c'.advance

namespace Bisimulation

variable {R : Cursor τ → Cursor τ' → Prop} {c : Cursor τ} {c' : Cursor τ'}

/-- Such a relation does for every operator table. -/
theorem simulation (h : Bisimulation R) (ops : OpTable) : Simulation ops R where
  alike hc := .inl (h.current hc)
  advance hc _ := h.advance hc

/-- Programs end alike at related cursors. -/
theorem program (h : Bisimulation R) (ops : OpTable) (hc : R c c') :
    Alike R (c.program ops) (c'.program ops) := by
  induction hsize : c.left using Nat.strongRecOn generalizing c c' with
  | ind size ih =>
      rw [program_eq ops c, program_eq ops c', h.current hc]
      split
      next => exact .ok _ hc
      next k hk =>
        split
        next => exact ih _ (hsize ▸ left_advance_lt hk) (h.advance hc) rfl
        next =>
          apply ((h.simulation ops).item hc).andThen
          intro x d d' hx hd
          apply (ih _ (hsize ▸ left_lt_of_item_ok hx) hd rfl).andThen
          intro xs e e' _ he
          exact .ok _ he

end Bisimulation

/-- Cursors with the same tokens in front of them are related in such a way, whatever their streams. -/
theorem bisimulation_tokens :
    Bisimulation fun (c : Cursor τ) (c' : Cursor τ') => c'.tokens = c.tokens where
  current h := by rw [← head?_tokens, h, head?_tokens]
  advance h := by rw [tokens_advance, h, tokens_advance]

end Cursor

namespace Session

open Cursor

/-- Sessions with one operator table and related cursors. -/
def Related (R : Cursor τ → Cursor τ' → Prop) (s : Session τ) (s' : Session τ') : Prop :=
  s'.ops = s.ops ∧ R s.cursor s'.cursor

variable {R : Cursor τ → Cursor τ' → Prop} {s : Session τ} {s' : Session τ'}

/-- Outcomes that are alike settle to one answer and related sessions. -/
theorem settle_related (h : Bisimulation R) (hops : s'.ops = s.ops) {answer : α → Answer}
    {r : Outcome τ α} {r' : Outcome τ' α} (hr : Outcome.Alike R r r') :
    (s'.settle answer r').1 = (s.settle answer r).1 ∧
      Related R (s.settle answer r).2 (s'.settle answer r').2 := by
  have hresult := hr.result_eq (h.current hr.cursor)
  have hcursor := hr.cursor
  obtain ⟨result, c⟩ := r
  obtain ⟨result', c'⟩ := r'
  cases hresult
  cases result with
  | ok a => exact ⟨rfl, hops, hcursor⟩
  | error e => exact ⟨rfl, hops, hcursor⟩

/-- A command has one answer in related sessions and leaves related sessions. -/
theorem run_related (h : Bisimulation R) (hs : Related R s s') (command : Command) :
    (s'.run command).1 = (s.run command).1 ∧ Related R (s.run command).2 (s'.run command).2 := by
  obtain ⟨hops, hcursor⟩ := hs
  have hsim := h.simulation s.ops
  cases command with
  | advance => exact ⟨rfl, hops, h.advance hcursor⟩
  | expr =>
      simp only [run, hops]
      exact settle_related h hops (hsim.expr hcursor)
  | prototype => exact settle_related h hops (hsim.prototype hcursor)
  | definition =>
      simp only [run, hops]
      exact settle_related h hops (hsim.definition (h.advance hcursor))
  | external => exact settle_related h hops (hsim.prototype (h.advance hcursor))
  | toplevel =>
      simp only [run, hops]
      exact settle_related h hops (hsim.toplevel hcursor)
  | program =>
      simp only [run, hops]
      exact settle_related h hops (h.program s.ops hcursor)
  | setOperator k precedence =>
      simp only [run, hops]
      exact ⟨trivial, rfl, hcursor⟩
  | removeOperator k =>
      simp only [run, hops]
      exact ⟨trivial, rfl, hcursor⟩
  | table =>
      simp only [run, hops]
      exact ⟨trivial, hops, hcursor⟩

/-- Commands have the same answers in related sessions, and these stay related. -/
theorem trace_related (h : Bisimulation R) (commands : List Command) (hs : Related R s s') :
    List.Forall₂ (fun x x' => x'.1 = x.1 ∧ Related R x.2 x'.2) (s.trace commands)
      (s'.trace commands) := by
  induction commands generalizing s s' with
  | nil => exact .nil
  | cons command commands ih =>
      have hrun := run_related h hs command
      exact .cons hrun (ih hrun.2)

/-- The sessions that commands go through, the first one included. -/
def visited (s : Session τ) (commands : List Command) : List (Session τ) :=
  s :: (s.trace commands).map Prod.snd

/-- The session that commands lead to. -/
def after (s : Session τ) : List Command → Session τ
  | [] => s
  | command :: commands => (s.run command).2.after commands

/-- It is the last one that commands go through. -/
theorem after_mem_visited (s : Session τ) (commands : List Command) :
    s.after commands ∈ s.visited commands := by
  induction commands generalizing s with
  | nil => exact List.mem_cons_self
  | cons command commands ih => exact List.mem_cons_of_mem _ (ih (s.run command).2)

/-- What advancing keeps holds of every cursor that commands go through. -/
theorem visited_invariant {P : Cursor τ → Prop} (hP : ∀ c, P c → P c.advance) (hs : P s.cursor)
    (commands : List Command) : ∀ x ∈ s.visited commands, P x.cursor := by
  have hR : Bisimulation fun c c' : Cursor τ => c' = c ∧ P c := by
    constructor
    · rintro c c' ⟨rfl, _⟩
      rfl
    · rintro c c' ⟨rfl, hc⟩
      exact ⟨rfl, hP _ hc⟩
  have htrace := List.forall₂_same.mp (trace_related hR commands ⟨rfl, rfl, hs⟩)
  intro x hx
  rcases List.mem_cons.mp hx with rfl | hx
  · exact hs
  · obtain ⟨y, hy, rfl⟩ := List.mem_map.mp hx
    exact (htrace y hy).2.2.2

end Session

end ExprLang
