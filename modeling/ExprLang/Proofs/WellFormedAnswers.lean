import ExprLang.Proofs.Printing
import ExprLang.Proofs.Simulation

/-!
# Well-formed answers

Whatever is asked of a session over a lexer, and however its table is edited in between, the trees that it
answers with are well formed. The tokens of a lexer can all be spelled, and a production builds its tree
from tokens that were in front of it, so names are identifiers, operators are symbols of the table as it is
at that time, and numbers have their sign bit clear and are numbers. The reserved name is no identifier;
only the production of bare expressions gives it.
-/

namespace ExprLang

/-- Expressions whose names are identifiers, whose operators are symbols of the table, and whose numbers have
their sign bit clear and are numbers. -/
def Expr.Formed (ops : OpTable) (e : Expr) : Prop :=
  e.All IsIdentifier ops.Writable fun value => value.isNegative = false ∧ value.isNaN = false

/-- Prototypes whose names are all identifiers, so that their own name is not the reserved one. -/
def Prototype.Formed (p : Prototype) : Prop := p.All IsIdentifier ∧ p.isAnonymous = false

/-- Functions with a well-formed body that have the reserved name and no parameters if they are made from a
bare expression, and a well-formed prototype if they are not. -/
def Function.Formed (ops : OpTable) (bare : Prop) (f : Function) : Prop :=
  f.body.Formed ops ∧ (f.prototype.isAnonymous = true ↔ bare) ∧ (bare → f.prototype.params = []) ∧
    (¬bare → f.prototype.Formed)

/-- Well-formed items with the token that they begin with. -/
def Item.Formed (ops : OpTable) (first : Option Token) : Item → Prop
  | .external p => first = some .external ∧ p.Formed
  | .function f => first ≠ some .external ∧ f.Formed ops (first ≠ some .definition)

namespace Cursor

variable {τ : Type} [TokenStream τ] {ops : OpTable} {c d : Cursor τ}

/-- An expression that is read from what can be spelled is well formed. -/
theorem Spelled.expr_formed (hc : c.Spelled) {e : Expr} (h : c.expr ops = (.ok e, d)) : e.Formed ops := by
  obtain ⟨ks, hks, hderives⟩ := (reads_of_ok ops c).2.2.1 e d h
  have hpasses : ∀ k ∈ ks, k.Passes IsIdentifier ops.Writable Binary64.IsNumeral ops := by
    intro k hk
    obtain ⟨w, hw⟩ := hc k (hks ▸ List.mem_append_left _ hk)
    exact passes_of_spells ops hw
  have hall : e.All IsIdentifier ops.Writable Binary64.IsNumeral := hderives.all hpasses
  exact Expr.All.imp (fun _ hn => hn) (fun _ hop => hop) (fun _ hv => ⟨hv.1, hv.isNaN_eq_false⟩) e hall

/-- A prototype that is read from what can be spelled is well formed. -/
theorem Spelled.prototype_formed (hc : c.Spelled) {p : Prototype} (h : c.prototype = (.ok p, d)) :
    p.Formed := by
  have hpasses : ∀ k ∈ p.tokens, k.Passes IsIdentifier OpTable.empty.Writable Binary64.IsNumeral .empty := by
    intro k hk
    obtain ⟨w, hw⟩ := hc k (tokens_of_prototype_ok h ▸ List.mem_append_left _ hk)
    exact passes_of_spells .empty hw
  have hall := Prototype.all_of_tokens hpasses
  exact ⟨hall, not_isAnonymous hall⟩

/-- A definition is well formed and is not bare. -/
theorem Spelled.definition_formed (hc : c.Spelled) {f : Function} (h : c.definition ops = (.ok f, d)) :
    f.Formed ops False := by
  obtain ⟨p, e, hp, h⟩ := Outcome.andThen_eq_ok_iff.mp h
  obtain ⟨body, _, hbody, h⟩ := Outcome.andThen_eq_ok_iff.mp h
  cases h
  have hprototype := hc.advance.prototype_formed hp
  have he := hc.advance.settled (settled_prototype c.advance)
  rw [hp] at he
  exact ⟨he.expr_formed hbody, by simp [hprototype.2], False.elim, fun _ => hprototype⟩

/-- A bare expression is well formed and is bare. -/
theorem Spelled.toplevel_formed (hc : c.Spelled) {f : Function} (h : c.toplevel ops = (.ok f, d)) :
    f.Formed ops True := by
  obtain ⟨body, _, hbody, h⟩ := Outcome.andThen_eq_ok_iff.mp h
  cases h
  exact ⟨hc.expr_formed hbody, iff_of_true rfl trivial, fun _ => rfl, fun hbare => absurd trivial hbare⟩

/-- An item is well formed, and bare if it begins with no keyword. -/
theorem Spelled.item_formed (hc : c.Spelled) {x : Item} (h : c.item ops = (.ok x, d)) :
    x.Formed ops c.current := by
  unfold item at h
  split at h
  next hcurrent =>
    obtain ⟨f, _, hf, h⟩ := Outcome.andThen_eq_ok_iff.mp h
    cases h
    simpa [Item.Formed, hcurrent] using hc.definition_formed hf
  next hcurrent =>
    obtain ⟨p, _, hp, h⟩ := Outcome.andThen_eq_ok_iff.mp h
    cases h
    exact ⟨hcurrent, hc.advance.prototype_formed hp⟩
  next hdefinition hexternal =>
    obtain ⟨f, _, hf, h⟩ := Outcome.andThen_eq_ok_iff.mp h
    cases h
    have hbare : (c.current ≠ some .definition) = True := eq_true hdefinition
    rw [Item.Formed, hbare]
    exact ⟨hexternal, hc.toplevel_formed hf⟩

/-- The items that are read from a cursor to the end of input, each with the token that it begins with.
Semicolons between them are left out. -/
inductive Lists (ops : OpTable) : Cursor τ → List (Option Token × Item) → Prop
  | nil {c : Cursor τ} (hc : c.current = none) : Lists ops c []
  | semicolon {c : Cursor τ} {ys : List (Option Token × Item)} (hc : c.current = some (.symbol ';'))
      (h : Lists ops c.advance ys) : Lists ops c ys
  | item {c d : Cursor τ} {x : Item} {ys : List (Option Token × Item)}
      (hc : c.current ≠ some (.symbol ';')) (hx : c.item ops = (.ok x, d)) (h : Lists ops d ys) :
      Lists ops c ((c.current, x) :: ys)

/-- The items of a program are those that are read one after another. -/
theorem lists_of_program_ok {xs : List Item} (h : c.program ops = (.ok xs, d)) :
    ∃ ys, c.Lists ops ys ∧ ys.map Prod.snd = xs := by
  induction hsize : c.left using Nat.strongRecOn generalizing c xs with
  | ind size ih =>
      rw [program_eq] at h
      split at h
      next hc =>
        cases h
        exact ⟨[], .nil hc, rfl⟩
      next k hc =>
        split at h
        next hsemicolon =>
          obtain ⟨ys, hys, hmap⟩ := ih _ (hsize ▸ left_advance_lt hc) h rfl
          exact ⟨ys, .semicolon (hsemicolon ▸ hc) hys, hmap⟩
        next hsemicolon =>
          obtain ⟨x, e, hx, h⟩ := Outcome.andThen_eq_ok_iff.mp h
          obtain ⟨xs', e', hxs', h⟩ := Outcome.andThen_eq_ok_iff.mp h
          cases h
          obtain ⟨ys, hys, hmap⟩ := ih _ (hsize ▸ left_lt_of_item_ok hx) hxs' rfl
          have hne : c.current ≠ some (.symbol ';') := by simpa [hc] using hsemicolon
          exact ⟨(c.current, x) :: ys, .item hne hx hys, by rw [List.map_cons, hmap]⟩

/-- All items that are read from what can be spelled are well formed. -/
theorem Lists.formed {ys : List (Option Token × Item)} (h : c.Lists ops ys) (hc : c.Spelled) :
    ∀ y ∈ ys, y.2.Formed ops y.1 := by
  induction h with
  | nil => simp
  | semicolon _ _ ih => exact ih hc.advance
  | @item c d x ys _ hx _ ih =>
      have hd := hc.settled (settled_item ops c)
      rw [hx] at hd
      intro y hy
      rcases List.mem_cons.mp hy with rfl | hy
      · exact hc.item_formed hx
      · exact ih hd y hy

end Cursor

namespace Session

variable {τ α : Type} [TokenStream τ]

/-- An answer that is no error tells that the production succeeded. -/
theorem exists_of_settle_eq {s : Session τ} {answer : α → Answer} {r : Outcome τ α} {a : α}
    (hanswer : Function.Injective answer) (herror : ∀ e, Answer.error e ≠ answer a)
    (h : (s.settle answer r).1 = answer a) : ∃ d, r = (.ok a, d) := by
  obtain ⟨result, d⟩ := r
  cases result with
  | ok b =>
      cases hanswer h
      exact ⟨d, rfl⟩
  | error e => exact absurd h (herror e)

/-- Whatever has been asked of a session over a lexer, its tokens can be spelled. -/
theorem spelled_after {σ : Type} [Source σ Char] (l : Lexer σ) (ops : OpTable) (commands : List Command) :
    ((mk ops (.start l)).after commands).cursor.Spelled :=
  visited_invariant (fun _ hc => hc.advance) (Cursor.spelled_start l) commands _ (after_mem_visited _ _)

/-- Whatever has been asked of a session over a lexer, each tree that it answers with is well formed with
the table that it has at that time. A function has the reserved name exactly if it is made from a bare
expression, and then it has no parameters. Of the items of a program, these are the functions that do not
begin with the keyword of definitions. -/
theorem run_formed {σ : Type} [Source σ Char] (l : Lexer σ) (ops : OpTable) (commands : List Command) :
    let s := (mk ops (.start l)).after commands
    (∀ e, (s.run .expr).1 = .expr e → e.Formed s.ops) ∧
      (∀ p, (s.run .prototype).1 = .prototype p → p.Formed) ∧
      (∀ p, (s.run .external).1 = .prototype p → p.Formed) ∧
      (∀ f, (s.run .definition).1 = .function f → f.Formed s.ops False) ∧
      (∀ f, (s.run .toplevel).1 = .function f → f.Formed s.ops True) ∧
      ∀ xs, (s.run .program).1 = .items xs →
        ∃ ys, s.cursor.Lists s.ops ys ∧ ys.map Prod.snd = xs ∧ ∀ y ∈ ys, y.2.Formed s.ops y.1 := by
  intro s
  have hs : s.cursor.Spelled := spelled_after l ops commands
  have hprototype : Function.Injective Answer.prototype := fun _ _ h => Answer.prototype.inj h
  have hfunction : Function.Injective Answer.function := fun _ _ h => Answer.function.inj h
  refine ⟨?_, ?_, ?_, ?_, ?_, ?_⟩
  · intro e h
    obtain ⟨_, he⟩ := exists_of_settle_eq (fun _ _ h => Answer.expr.inj h) nofun h
    exact hs.expr_formed he
  · intro p h
    obtain ⟨_, hp⟩ := exists_of_settle_eq hprototype nofun h
    exact hs.prototype_formed hp
  · intro p h
    obtain ⟨_, hp⟩ := exists_of_settle_eq hprototype nofun h
    exact hs.advance.prototype_formed hp
  · intro f h
    obtain ⟨_, hf⟩ := exists_of_settle_eq hfunction nofun h
    exact hs.definition_formed hf
  · intro f h
    obtain ⟨_, hf⟩ := exists_of_settle_eq hfunction nofun h
    exact hs.toplevel_formed hf
  · intro xs h
    obtain ⟨_, hxs⟩ := exists_of_settle_eq (fun _ _ h => Answer.items.inj h) nofun h
    obtain ⟨ys, hys, hmap⟩ := Cursor.lists_of_program_ok hxs
    exact ⟨ys, hys, hmap, hys.formed hs⟩

/-- Behind a definition and a semicolon, a call that stands alone is made a function with the reserved
name. -/
theorem run_formed_call :
    let s := (start (Lexer.ofText (.ofString "def f(x) x;f(y)"))).after [.definition, .advance]
    ∃ f, (s.run .toplevel).1 = .function f ∧ f.Formed s.ops True := by
  intro s
  have hlex : lex "def f(x) x;f(y)" =
      .definition :: (Prototype.tokens ⟨"f", ["x"]⟩ ++ ([.ident "x"] ++
        .symbol ';' :: (.ident "f" :: .symbol '(' :: ([.ident "y"] ++ [.symbol ')'])))) := by
    have hkeyword : Takes "def f(x) x;f(y)".toList .definition " f(x) x;f(y)".toList := .word rfl
    rw [lex_eq_scan, hkeyword.scan]
    change _ :: scan [' ', 'f', '(', 'x', ')', ' ', 'x', ';', 'f', '(', 'y', ')'] = _
    simp (disch := decide) only [scan_blank, scan_word, scan_symbol, scan_nil, List.takeWhile_cons_of_neg,
      List.dropWhile_cons_of_neg]
    rfl
  have hbody : Grammar.Derives .standard (.expr (.var "x")) [.ident "x"] (some (.symbol ';')) :=
    (Grammar.Derives.name (by decide)).expr_of_primary
  have hcall : Grammar.Derives .standard (.expr (.call "f" [.var "y"]))
      (.ident "f" :: .symbol '(' :: ([.ident "y"] ++ [.symbol ')'])) none :=
    (Grammar.Derives.call (.lastArgument (Grammar.Derives.name (by decide)).expr_of_primary)).expr_of_primary
  have hanswer : (s.run .toplevel).1 = .function ⟨.anonymous, .call "f" [.var "y"]⟩ := by
    have htokens := tokens_start_ofText "def f(x) x;f(y)"
    rw [hlex] at htokens
    obtain ⟨_, htokens⟩ := Cursor.of_tokens_eq_cons htokens
    obtain ⟨c, hprototype, hc⟩ := Cursor.prototype_of_tokens htokens
    obtain ⟨d, hexpr, hd⟩ := Cursor.returns_of_derives OpTable.separating_standard hbody c _ hc rfl
      (OpTable.separating_standard.operator?_eq_none (by decide))
    obtain ⟨_, hd⟩ := Cursor.of_tokens_eq_cons hd
    obtain ⟨e, hbare, _⟩ := Cursor.returns_of_derives OpTable.separating_standard hcall d.advance []
      (by rw [hd, List.append_nil]) rfl rfl
    have hs : s = ⟨.standard, d.advance⟩ := by
      simp only [s, after, run, start, Cursor.definition, hprototype, Outcome.ok_andThen, hexpr, settle]
    rw [hs]
    simp only [run, Cursor.toplevel, hbare, Outcome.ok_andThen, settle]
  exact ⟨_, hanswer, (run_formed (Lexer.ofText (.ofString "def f(x) x;f(y)")) .standard
    [.definition, .advance]).2.2.2.2.1 _ hanswer⟩

end Session

end ExprLang
