import ExprLang.Builtin
import ExprLang.Proofs.NumeralReading

/-!
# The text of a literal

A literal, the name of a number in a message and the line that is printed for a number all hold one text. For
a finite number with sign bit clear this text is a plain numeral: digits with at most one point among them,
never a sign or an exponent, however small or large the number is. Its exact value is rounded to the number
and to no other, so that lexing it gives the same 64 bits.

All other words are written with a sign or a letter in front. Hence the text of such a number belongs to that
number alone, also among infinities, negative numbers and words that are not a number.
-/

namespace ExprLang

/-- A text with so few points has all of it before the next one. -/
theorem beforePoint_eq_self {n : Nat} {x : List Char} (hcount : x.count '.' ≤ n) : beforePoint n x = x :=
  (beforePoint_isPrefix n x).eq_of_length_le (prefix_beforePoint List.prefix_rfl hcount).length_le

/-- All of a plain numeral is read, and each of its digits counts. -/
theorem IsPlainNumeral.numeralValue_eq {t : List Char} (ht : IsPlainNumeral t) :
    numeralValue t = (Decimal.ofNumeral t).digits / 10 ^ (Decimal.ofNumeral t).places := by
  rw [← numeralValue_beforePoint ht.numeric, beforePoint_eq_self ht.points]

/-- There is no letter in a plain numeral, and so no exponent. -/
theorem IsPlainNumeral.isAlpha_eq_false {t : List Char} (ht : IsPlainNumeral t) :
    ∀ c ∈ t, c.isAlpha = false :=
  fun c hc => (not_blank_of_isNumeric (ht.numeric c hc)).2.2

namespace Binary64

variable {x y : Binary64}

/-- The text of a finite number with sign bit clear is a plain numeral. -/
theorem isPlainNumeral_text (hx : x.IsFinite) : IsPlainNumeral x.text.toList := by
  rw [text_of_isFinite hx, String.toList_ofList]
  exact Decimal.isPlainNumeral_chars _

/-- The exact value of that text is rounded to the number, and to no other. -/
theorem rounds_text_iff (hx : x.IsFinite) : Rounds (numeralValue x.text.toList) y ↔ y = x := by
  have hread : Decimal.ofNumeral x.text.toList = Decimal.shortest x.magnitude := by
    rw [text_of_isFinite hx, String.toList_ofList, Decimal.ofNumeral_chars]
  rw [(isPlainNumeral_text hx).numeralValue_eq, hread, Decimal.rounds_iff, nearest_shortest_magnitude hx]

/-- Lexing that text gives the number. -/
theorem lex_text (hx : x.IsFinite) : lex x.text = [.number x] := by
  have hlex := lex_of_spells (spells_text hx)
  rwa [String.ofList_toList] at hlex

/-- Every text that begins with a digit is that of a finite number with sign bit clear. -/
theorem isFinite_of_text (h : ∃ c ∈ x.text.toList.head?, c.isDigit = true) : x.IsFinite := by
  obtain ⟨c, hfirst, hdigit⟩ := h
  unfold text at hfirst
  split at hfirst
  next => -- not a number
    obtain rfl : 'N' = c := by simpa using hfirst
    simp at hdigit
  next =>
    split at hfirst
    next => -- a sign
      obtain rfl : '-' = c := by simpa using hfirst
      simp at hdigit
    next hsign =>
      by_cases hfinite : x.magnitude < infinityMagnitude
      · exact ⟨by simpa using hsign, hfinite⟩
      · rw [magnitudeText, if_neg hfinite] at hfirst
        obtain rfl : 'i' = c := by simpa using hfirst
        simp at hdigit

/-- What is written as a finite number with sign bit clear is that number. -/
theorem eq_of_text_eq (hx : x.IsFinite) (h : y.text = x.text) : y = x := by
  have hy : y.IsFinite := isFinite_of_text (h ▸ (isPlainNumeral_text hx).first)
  have hlex : lex y.text = lex x.text := congrArg lex h
  rw [lex_text hy, lex_text hx] at hlex
  exact Token.number.inj (List.cons.inj hlex).1

end Binary64

/-- A finite number with sign bit clear has one text, as a literal, in a message and on a printed line. It is a
plain numeral without an exponent, its exact value is rounded to the number, and lexing it gives that number
and nothing else. No other number is written in this way. -/
theorem lex_literal_text (v : Binary64) (hv : v.IsFinite) :
    ∃ t : String,
      (Expr.literal v).text = t ∧ (Token.number v).text = "number " ++ t ∧
      Builtin.printLine.output v = (t ++ "\n").toUTF8.toList ∧
      IsPlainNumeral t.toList ∧ (∀ c ∈ t.toList, c.isAlpha = false) ∧
      (∀ y, Binary64.Rounds (numeralValue t.toList) y ↔ y = v) ∧
      lex t = [.number v] ∧
      ∀ w : Binary64, (Expr.literal w).text = t → w = v := by
  have hplain := Binary64.isPlainNumeral_text hv
  refine ⟨v.text, by rw [Expr.text], rfl, rfl, hplain, hplain.isAlpha_eq_false, ?_, Binary64.lex_text hv, ?_⟩
  · exact fun y => Binary64.rounds_text_iff hv
  · intro w hw
    rw [Expr.text] at hw
    exact Binary64.eq_of_text_eq hv hw

/-- The power of two with exponent -44. Of the decimals with 16 digits the nearest one is rounded to the number
below, so the next one is written. -/
theorem lex_literal_text_power :
    Binary64.IsFinite ⟨0x3D30000000000000⟩ ∧
      (⟨5684341886080801, 29⟩ : Decimal).nearest = ⟨0x3D2FFFFFFFFFFFFF⟩ ∧
      (Expr.literal ⟨0x3D30000000000000⟩).text = "0.00000000000005684341886080802" ∧
      IsPlainNumeral "0.00000000000005684341886080802".toList ∧
      lex "0.00000000000005684341886080802" = [.number ⟨0x3D30000000000000⟩] := by
  have hfinite : Binary64.IsFinite ⟨0x3D30000000000000⟩ := by decide
  have htext : (Expr.literal ⟨0x3D30000000000000⟩).text = "0.00000000000005684341886080802" := by
    rw [Expr.text]
    decide +kernel
  obtain ⟨t, ht, -, -, hplain, -, -, hlex, -⟩ := lex_literal_text ⟨0x3D30000000000000⟩ hfinite
  obtain rfl : "0.00000000000005684341886080802" = t := htext.symm.trans ht
  exact ⟨hfinite, by decide +kernel, htext, hplain, hlex⟩

end ExprLang
