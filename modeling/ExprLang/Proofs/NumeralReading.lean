import ExprLang.Proofs.Lexemes
import ExprLang.Proofs.Rounding
import ExprLang.Proofs.WellFormed

/-!
# Numerals with more than one point

A numeral is any run of digits and points. It is readable if it has a digit and no second point, and then
each digit counts by its place. A numeral that is not readable is read as far as it can be: the number is the
one to which the longest readable text at its beginning is rounded. This is the text before the second point,
unless that is a point alone; then no text at the beginning is readable, and the number is zero.
-/

namespace ExprLang

/-- The text before the point that has `n` points in front of it, or all of the text. -/
def beforePoint : Nat → List Char → List Char
  | _, [] => []
  | 0, c :: cs => if c = '.' then [] else c :: beforePoint 0 cs
  | n + 1, c :: cs => c :: beforePoint (if c = '.' then n else n + 1) cs

/-- At least one digit, and at most one point. -/
def IsReadable (p : List Char) : Prop := (∃ c ∈ p, c.isDigit = true) ∧ p.count '.' ≤ 1

/-- What a digit counts in the first place. -/
def digitValue (c : Char) : Nat := c.toNat - '0'.toNat

/-- The value of digits behind the point. -/
def fractionValue : List Char → ℚ
  | [] => 0
  | c :: cs => (digitValue c + fractionValue cs) / 10

/-- The value of a readable text: in front of the point a digit counts ten times as much as the next one. -/
def numeralValue : List Char → ℚ
  | [] => 0
  | c :: cs =>
      if c = '.' then fractionValue cs
      else digitValue c * 10 ^ (cs.takeWhile (· ≠ '.')).length + numeralValue cs

/-- What is before a point is at the beginning of the text. -/
theorem beforePoint_isPrefix (n : Nat) (x : List Char) : beforePoint n x <+: x := by
  fun_induction beforePoint n x with
  | case1 => exact List.prefix_rfl
  | case2 cs => exact List.nil_prefix
  | case3 c cs hc ih => exact (List.prefix_cons_inj c).mpr ih
  | case4 n c cs ih => exact (List.prefix_cons_inj c).mpr ih

/-- It has no more points than are in front of that one. -/
theorem count_beforePoint_le (n : Nat) (x : List Char) : (beforePoint n x).count '.' ≤ n := by
  fun_induction beforePoint n x with
  | case1 n => exact Nat.zero_le n
  | case2 cs => exact Nat.le_refl 0
  | case3 c cs hc ih => rwa [List.count_cons_of_ne hc]
  | case4 n c cs ih =>
      rw [List.count_cons]
      by_cases hc : c = '.' <;> simp_all

/-- Everything at the beginning with so few points goes no further. -/
theorem prefix_beforePoint {n : Nat} {x p : List Char} (hp : p <+: x) (hcount : p.count '.' ≤ n) :
    p <+: beforePoint n x := by
  fun_induction beforePoint n x generalizing p with
  | case1 n => exact hp
  | case2 cs =>
      cases p with
      | nil => exact List.nil_prefix
      | cons d p =>
          obtain ⟨rfl, _⟩ := List.cons_prefix_cons.mp hp
          simp at hcount
  | case3 c cs hc ih =>
      cases p with
      | nil => exact List.nil_prefix
      | cons d p =>
          obtain ⟨rfl, htail⟩ := List.cons_prefix_cons.mp hp
          rw [List.count_cons_of_ne hc] at hcount
          exact (List.prefix_cons_inj d).mpr (ih htail hcount)
  | case4 n c cs ih =>
      cases p with
      | nil => exact List.nil_prefix
      | cons d p =>
          obtain ⟨rfl, htail⟩ := List.cons_prefix_cons.mp hp
          refine (List.prefix_cons_inj d).mpr (ih htail ?_)
          rw [List.count_cons] at hcount
          by_cases hd : d = '.' <;> simp_all

/-- What is in a numeral and no point is a digit. -/
theorem isDigit_of_isNumeric {c : Char} (h : isNumeric c = true) (hc : c ≠ '.') : c.isDigit = true := by
  simpa [isNumeric, hc] using h

/-- A numeral with at most one point has a digit, or is a point alone. -/
theorem exists_digit_or_eq_point {p : List Char} (hp : IsNumeralText p) (hcount : p.count '.' ≤ 1) :
    (∃ c ∈ p, c.isDigit = true) ∨ p = ['.'] := by
  obtain ⟨hne, hnumeric⟩ := hp
  obtain ⟨c, cs, rfl⟩ := List.exists_cons_of_ne_nil hne
  by_cases hc : c = '.'
  · subst hc
    cases cs with
    | nil => exact .inr rfl
    | cons d ds =>
        have hd : d ≠ '.' := by
          rintro rfl
          simp at hcount
        exact .inl ⟨d, by simp, isDigit_of_isNumeric (hnumeric d (by simp)) hd⟩
  · exact .inl ⟨c, by simp, isDigit_of_isNumeric (hnumeric c (by simp)) hc⟩

/-- The first of some digits counts as much as its place says. -/
theorem ofDigitChars_cons_zero (c : Char) (cs : List Char) :
    Nat.ofDigitChars 10 (c :: cs) 0 = digitValue c * 10 ^ cs.length + Nat.ofDigitChars 10 cs 0 := by
  rw [Nat.ofDigitChars_cons, Nat.ofDigitChars_eq_ofDigitChars_zero, Nat.mul_zero, Nat.zero_add, Nat.mul_comm,
    digitValue]

/-- Digits behind the point count as a whole number of the last place. -/
theorem fractionValue_eq (fs : List Char) :
    fractionValue fs = Nat.ofDigitChars 10 fs 0 / 10 ^ fs.length := by
  induction fs with
  | nil => simp [fractionValue]
  | cons c fs ih =>
      rw [fractionValue, ih, ofDigitChars_cons_zero, List.length_cons]
      push_cast
      field_simp
      ring

/-- Digits in front of a point, or of the end, count as a whole number. -/
theorem numeralValue_append {ws rest : List Char} (hws : ∀ c ∈ ws, c.isDigit = true)
    (hrest : ∀ c ∈ rest.head?, c = '.') :
    numeralValue (ws ++ rest) = Nat.ofDigitChars 10 ws 0 + numeralValue rest := by
  induction ws with
  | nil => simp
  | cons c ws ih =>
      obtain ⟨hc, hws⟩ := List.forall_mem_cons.mp hws
      have hne : c ≠ '.' := ne_point_of_isDigit hc
      have htake : (ws ++ rest).takeWhile (· ≠ '.') = ws := by
        refine (span_append_of_head? (fun d hd => ?_) fun d hd => ?_).1
        · simpa using ne_point_of_isDigit (hws d hd)
        · simpa using hrest d hd
      rw [List.cons_append, numeralValue, if_neg hne, htake, ih hws, ofDigitChars_cons_zero]
      push_cast
      ring

/-- The text before a point has in it the digits that the text begins with. -/
theorem beforePoint_append (n : Nat) {ws : List Char} (hws : ∀ c ∈ ws, c.isDigit = true) (rest : List Char) :
    beforePoint n (ws ++ rest) = ws ++ beforePoint n rest := by
  induction ws with
  | nil => rfl
  | cons c ws ih =>
      obtain ⟨hc, hws⟩ := List.forall_mem_cons.mp hws
      have hne : c ≠ '.' := ne_point_of_isDigit hc
      cases n <;> rw [List.cons_append, beforePoint, if_neg hne, ih hws, List.cons_append]

/-- Digits in front of a point, or of the end, are what is before the next point. -/
theorem beforePoint_zero_append {fs rest : List Char} (hfs : ∀ c ∈ fs, c.isDigit = true)
    (hrest : ∀ c ∈ rest.head?, c = '.') : beforePoint 0 (fs ++ rest) = fs := by
  have hend : beforePoint 0 rest = [] := by
    cases rest with
    | nil => rfl
    | cons c cs => rw [beforePoint, if_pos (hrest c rfl)]
  rw [beforePoint_append 0 hfs, hend, List.append_nil]

/-- Digits are taken up to a point or to the end. -/
theorem span_digits_append {ws rest : List Char} (hws : ∀ c ∈ ws, c.isDigit = true)
    (hrest : ∀ c ∈ rest.head?, c = '.') :
    (ws ++ rest).takeWhile Char.isDigit = ws ∧ (ws ++ rest).dropWhile Char.isDigit = rest :=
  span_append_of_head? hws fun c hc => hrest c hc ▸ rfl

/-- A numeral is digits in front of a point or of the end. -/
theorem exists_digits_append {x : List Char} (hx : ∀ c ∈ x, isNumeric c = true) :
    ∃ ws rest, ws ++ rest = x ∧ (∀ c ∈ ws, c.isDigit = true) ∧ (∀ c ∈ rest, isNumeric c = true) ∧
      ∀ c ∈ rest.head?, c = '.' := by
  induction x with
  | nil => exact ⟨[], [], rfl, by simp, by simp, by simp⟩
  | cons c cs ih =>
      obtain ⟨hc, hcs⟩ := List.forall_mem_cons.mp hx
      by_cases hpoint : c = '.'
      · exact ⟨[], c :: cs, rfl, by simp, hx, by simp [hpoint]⟩
      · obtain ⟨ws, rest, rfl, hws, hrest, hhead⟩ := ih hcs
        have hdigit := isDigit_of_isNumeric hc hpoint
        exact ⟨c :: ws, rest, rfl, List.forall_mem_cons.mpr ⟨hdigit, hws⟩, hrest, hhead⟩

/-- The text before the second point has the value of the decimal that the numeral is read as. -/
theorem numeralValue_beforePoint {x : List Char} (hx : ∀ c ∈ x, isNumeric c = true) :
    numeralValue (beforePoint 1 x) = (Decimal.ofNumeral x).digits / 10 ^ (Decimal.ofNumeral x).places := by
  obtain ⟨ws, rest, rfl, hws, hrest, hhead⟩ := exists_digits_append hx
  obtain ⟨htake, hdrop⟩ := span_digits_append hws hhead
  rw [beforePoint_append 1 hws, Decimal.ofNumeral, htake, hdrop]
  cases rest with
  | nil =>
      rw [beforePoint, numeralValue_append hws (by simp)]
      simp [numeralValue]
  | cons c cs =>
      obtain rfl : c = '.' := hhead c rfl
      obtain ⟨fs, rest, rfl, hfs, -, hhead⟩ := exists_digits_append (List.forall_mem_cons.mp hrest).2
      have hdigits : Nat.ofDigitChars 10 (ws ++ fs) 0 =
          10 ^ fs.length * Nat.ofDigitChars 10 ws 0 + Nat.ofDigitChars 10 fs 0 := by
        rw [Nat.ofDigitChars_append]
        exact Nat.ofDigitChars_eq_ofDigitChars_zero
      rw [beforePoint, if_pos rfl, beforePoint_zero_append hfs hhead, numeralValue_append hws (by simp),
        numeralValue, if_pos rfl, fractionValue_eq, List.drop_succ_cons, List.drop_zero,
        (span_digits_append hfs hhead).1, hdigits]
      push_cast
      field_simp

-- The point may be the last character or the first.
example : numeralValue (beforePoint 1 "7.".toList) = 7 ∧
    numeralValue (beforePoint 1 ".5.1".toList) = 1 / 2 := by decide +kernel

/-- If the text before the second point is a point alone, nothing at the beginning is readable. -/
theorem not_isReadable_of_beforePoint {x p : List Char} (hx : beforePoint 1 x = ['.']) (hp : p <+: x) :
    ¬IsReadable p := by
  rintro ⟨⟨c, hc, hdigit⟩, hcount⟩
  have hle := prefix_beforePoint hp hcount
  rw [hx] at hle
  exact ne_point_of_isDigit hdigit (List.mem_singleton.mp (hle.mem hc))

/-- If it is not, it is the longest readable text at the beginning. -/
theorem longest_beforePoint {x : List Char} (hx : IsNumeralText x) (hpoint : beforePoint 1 x ≠ ['.']) :
    ∃ rest, x = beforePoint 1 x ++ rest ∧ Longest (fun p _ => IsReadable p) (beforePoint 1 x) rest := by
  obtain ⟨rest, hrest⟩ := beforePoint_isPrefix 1 x
  have hnumeral : IsNumeralText (beforePoint 1 x) := by
    obtain ⟨hne, hnumeric⟩ := hx
    constructor
    · cases x with
      | nil => exact absurd rfl hne
      | cons c cs => exact List.cons_ne_nil _ _
    · exact fun c hc => hnumeric c ((beforePoint_isPrefix 1 x).mem hc)
  have hcount := count_beforePoint_le 1 x
  have hdigit := (exists_digit_or_eq_point hnumeral hcount).resolve_right hpoint
  refine ⟨rest, hrest.symm, ⟨hdigit, hcount⟩, ?_⟩
  intro p rest' heq hp
  have hprefix : p <+: x := ⟨rest', heq.trans hrest⟩
  exact (prefix_beforePoint hprefix hp.2).length_le

/-- The value zero is rounded to zero. -/
theorem rounds_zero_iff {y : Binary64} : Binary64.Rounds 0 y ↔ y = .zero := by
  have hzero : (⟨0, 0⟩ : Decimal).nearest = .zero := by decide +kernel
  have hrounds := Decimal.rounds_iff ⟨0, 0⟩ (x := y)
  rwa [hzero, Nat.cast_zero, zero_div] at hrounds

/-- A numeral alone is one number, with its sign bit clear and never not a number. If the text before its
second point is a point alone, then nothing at its beginning is readable, and the number is zero. Otherwise
that text is the longest readable one at the beginning, and its exact value is rounded to the number. -/
theorem lex_numeral_rounds (x : List Char) (hx : IsNumeralText x) :
    ∃ v, Token.ofNumeral x = .number v ∧ lex (String.ofList x) = [.number v] ∧
      v.isNegative = false ∧ v.isNaN = false ∧
      ((beforePoint 1 x = ['.'] ∧ (∀ p, p <+: x → ¬IsReadable p) ∧ v = .zero) ∨
        (beforePoint 1 x ≠ ['.'] ∧
          (∃ rest, x = beforePoint 1 x ++ rest ∧ Longest (fun p _ => IsReadable p) (beforePoint 1 x) rest) ∧
          ∀ y, Binary64.Rounds (numeralValue (beforePoint 1 x)) y ↔ y = v)) := by
  have hnumeral : (Decimal.ofNumeral x).nearest.IsNumeral := Decimal.nearest_le _
  have hlex : lex (String.ofList x) = [.ofNumeral x] := by
    obtain ⟨hne, hnumeric⟩ := hx
    obtain ⟨c, cs, rfl⟩ := List.exists_cons_of_ne_nil hne
    obtain ⟨hc, hcs⟩ := List.forall_mem_cons.mp hnumeric
    exact lex_of_spells (.numeral hc hcs)
  have hrounds (y : Binary64) : Binary64.Rounds (numeralValue (beforePoint 1 x)) y ↔
      y = (Decimal.ofNumeral x).nearest := by
    rw [numeralValue_beforePoint hx.2]
    exact Decimal.rounds_iff _
  refine ⟨_, rfl, hlex, hnumeral.1, hnumeral.isNaN_eq_false, ?_⟩
  by_cases hpoint : beforePoint 1 x = ['.']
  · refine .inl ⟨hpoint, fun p hp => not_isReadable_of_beforePoint hpoint hp, ?_⟩
    have hvalue : numeralValue ['.'] = 0 := rfl
    rw [hpoint, hvalue] at hrounds
    exact rounds_zero_iff.mp ((hrounds _).mpr rfl)
  · exact .inr ⟨hpoint, longest_beforePoint hx hpoint, hrounds⟩

/-- The middle between two numbers, with a second point and more behind it: the even one is read. -/
theorem lex_numeral_rounds_tie :
    IsNumeralText "9007199254740993..5".toList ∧
      lex "9007199254740993..5" = [.number ⟨0x4340000000000000⟩] ∧
      Longest (fun p _ => IsReadable p) "9007199254740993.".toList ".5".toList ∧
      ∀ y, Binary64.Rounds 9007199254740993 y ↔ y = ⟨0x4340000000000000⟩ := by
  have hx : IsNumeralText "9007199254740993..5".toList := ⟨by decide, List.all_eq_true.mp rfl⟩
  have hvalue : numeralValue "9007199254740993.".toList = 9007199254740993 := by decide +kernel
  have hnumber : Token.ofNumeral "9007199254740993..5".toList = .number ⟨0x4340000000000000⟩ := by
    decide +kernel
  have hcut : beforePoint 1 "9007199254740993..5".toList = "9007199254740993.".toList := by decide
  obtain ⟨v, hv, hlex, -, -, hcases⟩ := lex_numeral_rounds _ hx
  obtain rfl : ⟨0x4340000000000000⟩ = v := Token.number.inj (hnumber.symm.trans hv)
  rcases hcases with ⟨hpoint, -⟩ | ⟨-, ⟨rest, hrest, hlongest⟩, hrounds⟩
  · exact absurd hpoint (by decide)
  · rw [hcut] at hrest hlongest hrounds
    rw [hvalue] at hrounds
    have hsplit : "9007199254740993.".toList ++ ".5".toList = "9007199254740993..5".toList := by decide
    obtain rfl : ".5".toList = rest := List.append_cancel_left (hsplit.trans hrest)
    exact ⟨hx, hlex, hlongest, hrounds⟩

end ExprLang
