import ExprLang.Proofs.Grammar
import ExprLang.Proofs.Numeral

/-!
# Well-formed trees

`All` says that the names, operators and numbers of a tree pass tests. What a parse builds it builds
from its tokens, so tests that the tokens pass are passed by the trees. For the tokens of a text this
gives names that are identifiers and no keywords, operators that are symbols of the table, and numbers
that are not negative and at most infinity.
-/

namespace ExprLang

/-- Words that begin with a letter and are no keyword. -/
def IsIdentifier (name : String) : Prop :=
  name.toList.head?.any Char.isAlpha = true ∧ name.toList.all Char.isAlphanum = true ∧
    name ≠ "def" ∧ name ≠ "extern"

instance (name : String) : Decidable (IsIdentifier name) :=
  inferInstanceAs (Decidable (_ ∧ _ ∧ _ ∧ _))

/-- An identifier is a letter and letters and digits behind it. -/
theorem IsIdentifier.toList_eq {name : String} (h : IsIdentifier name) :
    ∃ c cs, name.toList = c :: cs ∧ c.isAlpha = true ∧ ∀ d ∈ cs, d.isAlphanum = true := by
  obtain ⟨hfirst, hall, _⟩ := h
  cases hname : name.toList with
  | nil => simp [hname] at hfirst
  | cons c cs =>
      rw [hname] at hfirst hall
      refine ⟨c, cs, rfl, by simpa using hfirst, ?_⟩
      intro d hd
      exact List.all_eq_true.mp hall d (List.mem_cons_of_mem _ hd)

/-- An identifier spells itself. -/
theorem IsIdentifier.spells {name : String} (h : IsIdentifier name) :
    Spells name.toList (.ident name) := by
  obtain ⟨c, cs, hname, hc, hcs⟩ := h.toList_eq
  have hword : Token.ofWord (String.ofList (c :: cs)) = .ident name := by
    rw [← hname, String.ofList_toList]
    simp [Token.ofWord, h.2.2.1, h.2.2.2]
  rw [hname, ← hword]
  exact .word hc hcs

/-- Only identifiers are spelled as such. -/
theorem isIdentifier_of_spells {w : List Char} {name : String} (h : Spells w (.ident name)) :
    IsIdentifier name := by
  generalize hk : Token.ident name = k at h
  cases h with
  | @word c cs hc hcs =>
      simp only [Token.ofWord] at hk
      split at hk
      · simp at hk
      next hdef =>
        split at hk
        · simp at hk
        next hextern =>
          cases hk
          have hall : ∀ d ∈ c :: cs, d.isAlphanum = true := by
            intro d hd
            rcases List.mem_cons.mp hd with rfl | hd
            · simp [Char.isAlphanum, hc]
            · exact hcs d hd
          refine ⟨?_, ?_, hdef, hextern⟩
          · simp [hc]
          · rw [String.toList_ofList]
            exact List.all_eq_true.mpr hall
  | numeral _ _ => simp [Token.ofNumeral] at hk
  | symbol _ => simp at hk

/-- Only characters that are tokens by themselves are spelled as symbols. -/
theorem isSymbol_of_spells {w : List Char} {c : Char} (h : Spells w (.symbol c)) : IsSymbol c := by
  generalize hk : Token.symbol c = k at h
  cases h with
  | word _ _ =>
      simp only [Token.ofWord] at hk
      split at hk
      · simp at hk
      · split at hk <;> simp at hk
  | numeral _ _ => simp [Token.ofNumeral] at hk
  | symbol hc =>
      cases hk
      exact hc

namespace Binary64

/-- Numbers that a numeral can stand for: the sign bit is clear, and none is above infinity. -/
def IsNumeral (x : Binary64) : Prop := x.isNegative = false ∧ x.magnitude ≤ infinityMagnitude

/-- They are numbers. -/
theorem IsNumeral.isNaN_eq_false {x : Binary64} (h : x.IsNumeral) : x.isNaN = false :=
  decide_eq_false (Nat.not_lt.mpr h.2)

/-- Only such numbers are spelled. -/
theorem isNumeral_of_spells {w : List Char} {x : Binary64} (h : Spells w (.number x)) :
    x.IsNumeral := by
  generalize hk : Token.number x = k at h
  cases h with
  | word _ _ =>
      simp only [Token.ofWord] at hk
      split at hk
      · simp at hk
      · split at hk <;> simp at hk
  | numeral _ _ =>
      cases hk
      exact Decimal.nearest_le _
  | symbol _ => simp at hk

end Binary64

/-- Operators of a table that can be written between operands. -/
def OpTable.Writable (ops : OpTable) (op : Char) : Prop :=
  (∃ precedence, ops.IsOperator op precedence) ∧ IsSymbol op

section Tests

variable (name : String → Prop) (op : Char → Prop) (number : Binary64 → Prop)

mutual

/-- All names, operators and numbers of an expression pass the tests. -/
def Expr.All : Expr → Prop
  | .literal value => number value
  | .var n => name n
  | .binary c lhs rhs => op c ∧ lhs.All ∧ rhs.All
  | .call callee args => name callee ∧ Expr.argsAll args

/-- The same of arguments. -/
def Expr.argsAll : List Expr → Prop
  | [] => True
  | arg :: args => arg.All ∧ Expr.argsAll args

end

/-- All names of a prototype pass the test. -/
def Prototype.All (p : Prototype) : Prop := name p.name ∧ ∀ n ∈ p.params, name n

/-- All names, operators and numbers of an item pass the tests, except the name of a bare expression. -/
def Item.All : Item → Prop
  | .external p => p.All name
  | .function f => (f.prototype = .anonymous ∨ f.prototype.All name) ∧ f.body.All name op number

/-- All names, operators and numbers of a phrase pass the tests. -/
def Grammar.Phrase.All : Grammar.Phrase → Prop
  | .primary e => e.All name op number
  | .links ls => ∀ k ∈ ls, op k.op ∧ k.operand.All name op number
  | .expr e => e.All name op number
  | .arguments es => Expr.argsAll name op number es

/-- A token passes the test for its kind; a symbol is tested if it is an operator of the table. -/
def Token.Passes (ops : OpTable) : Token → Prop
  | .ident n => name n
  | .number value => number value
  | .symbol c => ∀ precedence, ops.IsOperator c precedence → op c
  | _ => True

/-- All numbers of an item pass the test. -/
def Item.Numbers (x : Item) : Prop := x.All (fun _ => True) (fun _ => True) number

end Tests

section Tests

variable {name : String → Prop} {op : Char → Prop} {number : Binary64 → Prop} {ops : OpTable}

mutual

/-- What passes tests passes weaker ones. -/
theorem Expr.All.imp {name' : String → Prop} {op' : Char → Prop} {number' : Binary64 → Prop}
    (hname : ∀ n, name n → name' n) (hop : ∀ c, op c → op' c) (hnumber : ∀ v, number v → number' v) :
    (e : Expr) → e.All name op number → e.All name' op' number'
  | .literal value, h => hnumber value h
  | .var n, h => hname n h
  | .binary c lhs rhs, ⟨hc, hlhs, hrhs⟩ =>
      ⟨hop c hc, All.imp hname hop hnumber lhs hlhs, All.imp hname hop hnumber rhs hrhs⟩
  | .call callee args, ⟨hcallee, hargs⟩ =>
      ⟨hname callee hcallee, argsAll_imp hname hop hnumber args hargs⟩

/-- The same of arguments. -/
theorem Expr.argsAll_imp {name' : String → Prop} {op' : Char → Prop} {number' : Binary64 → Prop}
    (hname : ∀ n, name n → name' n) (hop : ∀ c, op c → op' c) (hnumber : ∀ v, number v → number' v) :
    (es : List Expr) → Expr.argsAll name op number es → Expr.argsAll name' op' number' es
  | [], _ => trivial
  | arg :: args, ⟨harg, hargs⟩ =>
      ⟨All.imp hname hop hnumber arg harg, argsAll_imp hname hop hnumber args hargs⟩

end

/-- An item that passes all tests passes a weaker one of its numbers. -/
theorem Item.All.numbers {number' : Binary64 → Prop} (hnumber : ∀ v, number v → number' v) {x : Item}
    (h : x.All name op number) : x.Numbers number' := by
  cases x with
  | external p => exact ⟨trivial, fun _ _ => trivial⟩
  | function f =>
      refine ⟨.inr ⟨trivial, fun _ _ => trivial⟩, ?_⟩
      exact Expr.All.imp (fun _ _ => trivial) (fun _ _ => trivial) hnumber f.body h.2

/-- The tree of a chain passes the tests that its parts pass. -/
theorem Link.Denotes.all {first e : Expr} {ls : List Link} (h : Link.Denotes first ls e)
    (hfirst : first.All name op number)
    (hls : ∀ k ∈ ls, op k.op ∧ k.operand.All name op number) : e.All name op number := by
  induction h with
  | single => exact hfirst
  | @root first lhs rhs before after link _ _ _ _ ihLhs ihRhs =>
      have hlink := hls link (by simp)
      refine ⟨hlink.1, ?_, ?_⟩
      · exact ihLhs hfirst fun k hk => hls k (by simp [hk])
      · exact ihRhs hlink.2 fun k hk => hls k (by simp [hk])

/-- A phrase passes the tests that its tokens pass. -/
theorem Grammar.Derives.all {phrase : Grammar.Phrase} {ks : List Token} {next : Option Token}
    (h : Grammar.Derives ops phrase ks next) (hks : ∀ k ∈ ks, k.Passes name op number ops) :
    phrase.All name op number := by
  induction h with
  | @number value _ => exact hks (.number value) (by simp)
  | @name n _ _ => exact hks (.ident n) (by simp)
  | @emptyCall n _ => exact ⟨hks (.ident n) (by simp), trivial⟩
  | @call n _ _ _ _ ih => exact ⟨hks (.ident n) (by simp), ih fun k hk => hks k (by simp [hk])⟩
  | group _ ih => exact ih fun k hk => hks k (by simp [hk])
  | noLinks => simp [Phrase.All]
  | @link c precedence operand ls ks ks' _ hop _ _ ihOperand ihLinks =>
      intro k hk
      rcases List.mem_cons.mp hk with rfl | hk
      · exact ⟨hks (.symbol c) (by simp) precedence hop, ihOperand fun k hk => hks k (by simp [hk])⟩
      · exact ihLinks (fun k hk => hks k (by simp [hk])) k hk
  | chain _ _ htree ihFirst ihLinks =>
      apply htree.all
      · exact ihFirst fun k hk => hks k (by simp [hk])
      · exact ihLinks fun k hk => hks k (by simp [hk])
  | lastArgument _ ih => exact ⟨ih hks, trivial⟩
  | argument _ _ ihArg ihArgs =>
      constructor
      · exact ihArg fun k hk => hks k (by simp [hk])
      · exact ihArgs fun k hk => hks k (by simp [hk])

/-- A prototype passes the tests that its tokens pass. -/
theorem Prototype.all_of_tokens {p : Prototype} (h : ∀ k ∈ p.tokens, k.Passes name op number ops) :
    p.All name := by
  constructor
  · exact h (.ident p.name) (by simp [tokens])
  · intro n hn
    exact h (.ident n) (by simp [tokens, hn])

/-- The items of a program pass the tests that its tokens pass. -/
theorem Grammar.Program.all {ks : List Token} {xs : List Item} (h : Grammar.Program ops ks xs)
    (hks : ∀ k ∈ ks, k.Passes name op number ops) : ∀ x ∈ xs, x.All name op number := by
  induction h with
  | nil => simp
  | semicolon _ ih => exact ih fun k hk => hks k (by simp [hk])
  | @definition p _ _ _ _ hbody _ ih =>
      intro x hx
      rcases List.mem_cons.mp hx with rfl | hx
      · constructor
        · exact .inr (Prototype.all_of_tokens fun k hk => hks k (by simp [hk]))
        · exact hbody.all fun k hk => hks k (by simp [hk])
      · exact ih (fun k hk => hks k (by simp [hk])) x hx
  | @external p _ _ _ ih =>
      intro x hx
      rcases List.mem_cons.mp hx with rfl | hx
      · exact Prototype.all_of_tokens fun k hk => hks k (by simp [hk])
      · exact ih (fun k hk => hks k (by simp [hk])) x hx
  | toplevel hbody _ ih =>
      intro x hx
      rcases List.mem_cons.mp hx with rfl | hx
      · exact ⟨.inl rfl, hbody.all fun k hk => hks k (by simp [hk])⟩
      · exact ih (fun k hk => hks k (by simp [hk])) x hx

end Tests

/-- What can be spelled is an identifier, a symbol or a number that a numeral can stand for. -/
theorem passes_of_spells (ops : OpTable) {w : List Char} {k : Token} (h : Spells w k) :
    k.Passes IsIdentifier ops.Writable Binary64.IsNumeral ops := by
  cases k with
  | ident n => exact isIdentifier_of_spells h
  | number value => exact Binary64.isNumeral_of_spells h
  | symbol c => exact fun precedence hop => ⟨⟨precedence, hop⟩, isSymbol_of_spells h⟩
  | _ => trivial

/-- The tokens of a text are made of identifiers, symbols and numbers that a numeral can stand for. -/
theorem passes_of_mem_lex (ops : OpTable) {s : String} {k : Token} (h : k ∈ lex s) :
    k.Passes IsIdentifier ops.Writable Binary64.IsNumeral ops := by
  rw [lex_eq_scan] at h
  obtain ⟨w, hw⟩ := exists_spells h
  exact passes_of_spells ops hw

/-- What is parsed is built from identifiers, operators of the table, and numbers that a numeral can stand
for. -/
theorem all_of_parseWith_ok {ops : OpTable} {s : String} {xs : List Item}
    (h : parseWith ops s = .ok xs) :
    ∀ x ∈ xs, x.All IsIdentifier ops.Writable Binary64.IsNumeral := by
  have hprogram := Cursor.program_of_ok (Prod.ext h rfl)
  rw [tokens_start_ofText] at hprogram
  exact hprogram.all fun k hk => passes_of_mem_lex ops hk

end ExprLang
