import ExprLang.Proofs.Printing

/-!
# Parsing a printed program again

A program that was parsed is well formed, except that a numeral may have been too large for a finite
number. Infinity is written as a word, so it is read back as a variable of that name: `reread` says what
becomes of a tree. The text of a parsed program is always parsed again, and the items are equal to those
it was printed from exactly when all their numbers are finite.
-/

namespace ExprLang

mutual

/-- What is read back for an expression: infinity becomes a variable. -/
def Expr.reread : Expr → Expr
  | .literal value => if value.magnitude < Binary64.infinityMagnitude then .literal value else .var "inf"
  | .var name => .var name
  | .binary op lhs rhs => .binary op lhs.reread rhs.reread
  | .call callee args => .call callee (Expr.argsReread args)

/-- What is read back for arguments. -/
def Expr.argsReread : List Expr → List Expr
  | [] => []
  | arg :: args => arg.reread :: Expr.argsReread args

end

/-- What is read back for an item. -/
def Item.reread : Item → Item
  | .external p => .external p
  | .function f => .function ⟨f.prototype, f.body.reread⟩

/-- An item without its body: a declaration or a definition with its prototype, or a bare expression. -/
inductive Header
  | external (prototype : Prototype)
  | definition (prototype : Prototype)
  | bare
deriving DecidableEq

/-- What an item is, apart from its body. -/
def Item.header : Item → Header
  | .external p => .external p
  | .function f => if f.prototype.isAnonymous then .bare else .definition f.prototype

/-- Reading an item back changes nothing but numbers in its body. -/
theorem Item.header_reread (x : Item) : x.reread.header = x.header := by
  cases x <;> rfl

/-- Infinity is written as a word. -/
theorem Binary64.text_of_not_finite {x : Binary64} (hx : x.IsNumeral)
    (h : ¬x.magnitude < infinityMagnitude) : x.text = "inf" := by
  simp [text, hx.isNaN_eq_false, hx.1, magnitudeText, h]

section Tests

variable {name : String → Prop} {op : Char → Prop}

mutual

/-- An expression is written as what is read back for it. -/
theorem Expr.text_reread : (e : Expr) → e.All name op Binary64.IsNumeral → e.reread.text = e.text
  | .literal value, h => by
      by_cases hvalue : value.magnitude < Binary64.infinityMagnitude
      · simp [reread, hvalue]
      · simp [reread, hvalue, text, Binary64.text_of_not_finite h hvalue]
  | .var _, _ => by simp [reread]
  | .binary _ lhs rhs, ⟨_, hlhs, hrhs⟩ => by
      simp [reread, text, text_reread lhs hlhs, text_reread rhs hrhs]
  | .call _ args, ⟨_, hargs⟩ => by simp [reread, text, argsText_argsReread args hargs]

/-- Arguments are written as what is read back for them. -/
theorem Expr.argsText_argsReread : (es : List Expr) → Expr.argsAll name op Binary64.IsNumeral es →
    Expr.argsText (Expr.argsReread es) = Expr.argsText es
  | [], _ => rfl
  | [arg], ⟨harg, _⟩ => by simp [argsReread, argsText, text_reread arg harg]
  | arg :: next :: args, ⟨harg, hargs⟩ => by
      have hrest := argsText_argsReread (next :: args) hargs
      simp only [argsReread, argsText] at hrest ⊢
      rw [text_reread arg harg, hrest]

end

mutual

/-- What is read back for an expression has finite numbers. -/
theorem Expr.all_reread : (e : Expr) → e.All IsIdentifier op Binary64.IsNumeral →
    e.reread.All IsIdentifier op Binary64.IsFinite
  | .literal value, h => by
      by_cases hvalue : value.magnitude < Binary64.infinityMagnitude
      · simp only [reread, hvalue, ↓reduceIte]
        exact ⟨h.1, hvalue⟩
      · simp only [reread, hvalue, ↓reduceIte]
        exact (by decide : IsIdentifier "inf")
  | .var _, h => h
  | .binary _ lhs rhs, ⟨hop, hlhs, hrhs⟩ => ⟨hop, all_reread lhs hlhs, all_reread rhs hrhs⟩
  | .call _ args, ⟨hcallee, hargs⟩ => ⟨hcallee, argsAll_argsReread args hargs⟩

/-- What is read back for arguments has finite numbers. -/
theorem Expr.argsAll_argsReread : (es : List Expr) → Expr.argsAll IsIdentifier op Binary64.IsNumeral es →
    Expr.argsAll IsIdentifier op Binary64.IsFinite (Expr.argsReread es)
  | [], _ => trivial
  | arg :: args, ⟨harg, hargs⟩ => ⟨all_reread arg harg, argsAll_argsReread args hargs⟩

end

mutual

/-- What is read back equals an expression by value if the numbers of that are finite, and only then. -/
theorem Expr.numEq_reread_iff : (e : Expr) → e.All name op Binary64.IsNumeral →
    (e.reread.numEq e = true ↔
      e.All (fun _ => True) (fun _ => True) (·.magnitude < Binary64.infinityMagnitude))
  | .literal value, h => by
      by_cases hvalue : value.magnitude < Binary64.infinityMagnitude
      · have hnan : value.isNaN = false := decide_eq_false (Nat.not_lt.mpr (Nat.le_of_lt hvalue))
        simp [reread, hvalue, numEq, All, (Binary64.numEq_self_iff value).mpr hnan]
      · simp [reread, hvalue, numEq, All]
  | .var _, _ => by simp [reread, numEq, All]
  | .binary _ lhs rhs, ⟨_, hlhs, hrhs⟩ => by
      simp [reread, numEq, All, numEq_reread_iff lhs hlhs, numEq_reread_iff rhs hrhs]
  | .call _ args, ⟨_, hargs⟩ => by simp [reread, numEq, All, argsNumEq_argsReread_iff args hargs]

/-- The same of arguments. -/
theorem Expr.argsNumEq_argsReread_iff : (es : List Expr) → Expr.argsAll name op Binary64.IsNumeral es →
    (Expr.argsNumEq (Expr.argsReread es) es = true ↔
      Expr.argsAll (fun _ => True) (fun _ => True) (·.magnitude < Binary64.infinityMagnitude) es)
  | [], _ => by simp [argsReread, argsNumEq, argsAll]
  | arg :: args, ⟨harg, hargs⟩ => by
      simp [argsReread, argsNumEq, argsAll, numEq_reread_iff arg harg, argsNumEq_argsReread_iff args hargs]

end

/-- An item is written as what is read back for it. -/
theorem Item.text_reread {x : Item} (h : x.All name op Binary64.IsNumeral) : x.reread.text = x.text := by
  cases x with
  | external p => rfl
  | function f => simp [reread, text, Function.text, Expr.text_reread f.body h.2]

/-- What is read back for an item is well formed. -/
theorem Item.wellFormed_reread {ops : OpTable} {x : Item}
    (h : x.All IsIdentifier ops.Writable Binary64.IsNumeral) : x.reread.WellFormed ops := by
  cases x with
  | external p => exact h
  | function f => exact ⟨h.1, Expr.all_reread f.body h.2⟩

/-- What is read back equals an item by value if the numbers of that are finite, and only then. -/
theorem Item.numEq_reread_iff {x : Item} (h : x.All name op Binary64.IsNumeral) :
    x.reread.numEq x = true ↔ x.Numbers (·.magnitude < Binary64.infinityMagnitude) := by
  cases x with
  | external p => simp [reread, numEq, Numbers, All, Prototype.All]
  | function f =>
      simp [reread, numEq, Function.numEq, Numbers, All, Prototype.All,
        Expr.numEq_reread_iff f.body h.2]

/-- The same of programs, item by item. -/
theorem Item.listNumEq_reread_iff {xs : List Item} (h : ∀ x ∈ xs, x.All name op Binary64.IsNumeral) :
    Item.listNumEq (xs.map Item.reread) xs = true ↔
      ∀ x ∈ xs, x.Numbers (·.magnitude < Binary64.infinityMagnitude) := by
  induction xs with
  | nil => simp [listNumEq]
  | cons x xs ih =>
      have hx := numEq_reread_iff (h x List.mem_cons_self)
      have hxs := ih fun y hy => h y (List.mem_cons_of_mem _ hy)
      simp [listNumEq, hx, hxs]

end Tests

/-- A program is written as what is read back for it. -/
theorem listText_map_reread {name : String → Prop} {op : Char → Prop} {xs : List Item}
    (h : ∀ x ∈ xs, x.All name op Binary64.IsNumeral) :
    Item.listText (xs.map Item.reread) = Item.listText xs := by
  rw [Item.listText, Item.listText, List.map_map]
  congr 1
  apply List.map_congr_left
  intro x hx
  exact Item.text_reread (h x hx)

/-- The text of a parsed program is parsed to what is read back for it. -/
theorem parse_listText_eq {s : String} {xs : List Item} (h : parse s = .ok xs) :
    parse (Item.listText xs) = .ok (xs.map Item.reread) := by
  have hall := all_of_parseWith_ok h
  rw [← listText_map_reread hall, parse]
  apply parseWith_listText_eq OpTable.separating_standard
  intro y hy
  obtain ⟨x, hx, rfl⟩ := List.mem_map.mp hy
  exact Item.wellFormed_reread (hall x hx)

/-- A numeral alone is a program: a bare literal of the nearest number. -/
theorem parse_numeral {c : Char} {cs : List Char} (hc : isNumeric c = true)
    (hcs : ∀ d ∈ cs, isNumeric d = true) :
    parse (String.ofList (c :: cs)) =
      .ok [.function ⟨.anonymous, .literal (Decimal.ofNumeral (c :: cs)).nearest⟩] := by
  rw [parse, parseWith_ok_iff OpTable.separating_standard, lex_of_spells (.numeral hc hcs), Token.ofNumeral]
  exact .toplevel Grammar.Derives.number.expr_of_primary .nil

/-- A parsed program, printed and parsed again, gives items, and these equal the ones before by value
exactly when no number among them is infinite. -/
theorem reparse_numEq_iff (s : String) (xs : List Item) (h : parse s = .ok xs) :
    ∃ ys, parse (Item.listText xs) = .ok ys ∧
      (Item.listNumEq ys xs = true ↔
        ∀ x ∈ xs, x.Numbers (·.magnitude < Binary64.infinityMagnitude)) :=
  ⟨xs.map Item.reread, parse_listText_eq h, Item.listNumEq_reread_iff (all_of_parseWith_ok h)⟩

/-- A number that is not an integer comes back. -/
theorem reparse_numEq_three_halves :
    let xs : List Item := [.function ⟨.anonymous, .literal ⟨0x3FF8000000000000⟩⟩]
    parse "1.5" = .ok xs ∧ ∃ ys, parse (Item.listText xs) = .ok ys ∧ Item.listNumEq ys xs = true := by
  intro xs
  have hvalue : (Decimal.ofNumeral ['1', '.', '5']).nearest = ⟨0x3FF8000000000000⟩ := by decide +kernel
  have hparse : parse "1.5" = .ok xs := by
    simp only [xs, ← hvalue]
    exact parse_numeral (by decide) (List.all_eq_true.mp rfl)
  obtain ⟨ys, hys, hiff⟩ := reparse_numEq_iff "1.5" xs hparse
  refine ⟨hparse, ys, hys, hiff.mpr ?_⟩
  intro x hx
  rw [List.mem_singleton.mp hx]
  have hfinite : (⟨0x3FF8000000000000⟩ : Binary64).magnitude < Binary64.infinityMagnitude := by decide
  exact ⟨.inl rfl, hfinite⟩

/-- A one with 309 zeros behind it is read as infinity, and infinity comes back as a variable. -/
theorem reparse_overflow :
    let xs : List Item := [.function ⟨.anonymous, .literal (.ofMagnitude Binary64.infinityMagnitude)⟩]
    let ys : List Item := [.function ⟨.anonymous, .var "inf"⟩]
    parse (String.ofList ('1' :: List.replicate 309 '0')) = .ok xs ∧
      parse (Item.listText xs) = .ok ys ∧ Item.listNumEq ys xs = false := by
  intro xs ys
  have hvalue : (Decimal.ofNumeral ('1' :: List.replicate 309 '0')).nearest =
      .ofMagnitude Binary64.infinityMagnitude := by decide +kernel
  have hzeros : ∀ d ∈ List.replicate 309 '0', isNumeric d = true := by
    intro d hd
    rw [List.eq_of_mem_replicate hd]
    decide
  have hparse : parse (String.ofList ('1' :: List.replicate 309 '0')) = .ok xs := by
    rw [parse_numeral (by decide) hzeros, hvalue]
  exact ⟨hparse, parse_listText_eq hparse, rfl⟩

/-- The text of a parsed program is a normal form, whatever its numbers: it is parsed to as many items, of
the same kinds and prototypes in the same order, and these are written as that text again. -/
theorem listText_reparse (s : String) (xs : List Item) (h : parse s = .ok xs) :
    ∃ ys, parse (Item.listText xs) = .ok ys ∧ ys.length = xs.length ∧
      ys.map Item.header = xs.map Item.header ∧ Item.listText ys = Item.listText xs := by
  refine ⟨xs.map Item.reread, parse_listText_eq h, List.length_map .., ?_, ?_⟩
  · rw [List.map_map]
    apply List.map_congr_left
    intro x _
    exact x.header_reread
  · exact listText_map_reread (all_of_parseWith_ok h)

/-- Infinity in front of a group: its text is a word, and yet not one that is called. -/
theorem listText_reparse_overflow :
    let infinity := Binary64.ofMagnitude Binary64.infinityMagnitude
    let xs : List Item := [.function ⟨.anonymous, .literal infinity⟩, .function ⟨.anonymous, .var "x"⟩]
    parse (String.ofList ('1' :: List.replicate 309 '0' ++ ['(', 'x', ')'])) = .ok xs ∧
      ∃ ys, parse (Item.listText xs) = .ok ys ∧ ys.length = 2 ∧
        ys.map Item.header = [.bare, .bare] ∧ Item.listText ys = "inf;\nx" := by
  intro infinity xs
  have hnumeral : Spells ('1' :: List.replicate 309 '0') (.number infinity) := by
    have hvalue : Token.ofNumeral ('1' :: List.replicate 309 '0') = .number infinity := by decide +kernel
    rw [← hvalue]
    refine .numeral (by decide) fun d hd => ?_
    rw [List.eq_of_mem_replicate hd]
    decide
  have hname : Spells ['x'] (.ident "x") := .word rfl (by simp)
  have hlex : lex (String.ofList ('1' :: List.replicate 309 '0' ++ ['(', 'x', ')'])) =
      [.number infinity] ++ ([.symbol '(', .ident "x", .symbol ')'] ++ []) := by
    have hgroup : scan ['x', ')'] = [.ident "x", .symbol ')'] := by
      have hclose : Detached [')'] := detached_cons (by decide)
      have hscan := scan_append hname hclose
      rwa [scan_close, scan_nil] at hscan
    rw [lex_eq_scan, String.toList_ofList, scan_append hnumeral (detached_cons (by decide)), scan_open,
      hgroup]
    rfl
  have hparse : parse (String.ofList ('1' :: List.replicate 309 '0' ++ ['(', 'x', ')'])) = .ok xs := by
    rw [parse, parseWith_ok_iff OpTable.separating_standard, hlex]
    have hgroup : Grammar.Derives .standard (.primary (.var "x"))
        [.symbol '(', .ident "x", .symbol ')'] none := .group (Grammar.Derives.name (by simp)).expr_of_primary
    exact .toplevel Grammar.Derives.number.expr_of_primary (.toplevel hgroup.expr_of_primary .nil)
  have htext : Item.listText xs = "inf;\nx" := by
    have hbare (e : Expr) : (Item.function ⟨.anonymous, e⟩).text = e.text := rfl
    have hinfinity : infinity.text = "inf" := by decide +kernel
    simp only [xs, Item.listText, List.map_cons, List.map_nil, hbare, Expr.text, hinfinity]
    rfl
  obtain ⟨ys, hys, hlength, hheaders, hlist⟩ := listText_reparse _ xs hparse
  exact ⟨hparse, ys, hys, hlength, hheaders, hlist.trans htext⟩

end ExprLang
