import Mathlib.Algebra.Group.Nat.Defs
import Mathlib.Data.List.Basic
import ExprLang.Proofs.Scan

/-!
# Numerals read back

The text of a finite number is a numeral, and reading that numeral gives the number again, bit for bit.
Reading looks at a decimal only through its value, so what must be shown is that the exact decimal of a
number rounds to it, and that the steps from there to the text keep the value or are checked to read
back. Whatever a numeral is read as has its sign bit clear and is not larger than infinity.
-/

namespace ExprLang

namespace Binary64

/-- Rounding a quotient depends on its value only. -/
theorem roundHalfEven_mul_right (n d : Nat) {k : Nat} (hk : 0 < k) :
    roundHalfEven (n * k) (d * k) = roundHalfEven n d := by
  have hlt : 2 * (n % d * k) < d * k ↔ 2 * (n % d) < d := by
    rw [← Nat.mul_assoc]
    exact Nat.mul_lt_mul_right hk
  have heq : 2 * (n % d * k) = d * k ↔ 2 * (n % d) = d := by
    rw [← Nat.mul_assoc]
    exact Nat.mul_right_cancel_iff hk
  simp only [roundHalfEven, Nat.mul_div_mul_right _ _ hk, Nat.mul_mod_mul_right, hlt, heq]

/-- A quotient without remainder is rounded to itself. -/
theorem roundHalfEven_mul_self (n : Nat) {d : Nat} (hd : 0 < d) : roundHalfEven (n * d) d = n := by
  simp [roundHalfEven, Nat.mul_div_cancel _ hd, hd]

/-- The nearest magnitude depends on the value of a quotient only. -/
theorem nearestMagnitude_mul_right (n d : Nat) {k : Nat} (hk : 0 < k) :
    nearestMagnitude (n * k) (d * k) = nearestMagnitude n d := by
  simp only [nearestMagnitude, Nat.mul_div_mul_right _ _ hk]
  rw [Nat.mul_right_comm, roundHalfEven_mul_right _ _ hk]

/-- No nearest magnitude is above infinity. -/
theorem nearestMagnitude_le (n d : Nat) : nearestMagnitude n d ≤ infinityMagnitude :=
  Nat.min_le_right _ _

/-- The leading digit of a value says how far its significand is raised. -/
theorem log2_units (n : Nat) : (units n).log2 - 52 = shift n := by
  have hhidden : hiddenBit = 2 ^ 52 := rfl
  simp only [units, significand, shift, Nat.pow_eq, hhidden]
  split
  next hlt =>
    have hlog : n.log2 < 52 ∨ n = 0 := by
      by_cases hn : n = 0
      · exact .inr hn
      · exact .inl ((Nat.log2_lt hn).mpr hlt)
    have hshift : n / 2 ^ 52 - 1 = 0 := by rw [Nat.div_eq_of_lt hlt]
    rw [hshift, Nat.pow_zero, Nat.mul_one]
    rcases hlog with hlog | rfl
    · omega
    · simp
  next hge =>
    have hmod : n % 2 ^ 52 < 2 ^ 52 := Nat.mod_lt _ (by decide)
    have hlog : ((2 ^ 52 + n % 2 ^ 52) * 2 ^ (n / 2 ^ 52 - 1)).log2 = 52 + (n / 2 ^ 52 - 1) := by
      have hpos : 0 < 2 ^ (n / 2 ^ 52 - 1) := Nat.two_pow_pos _
      rw [Nat.log2_eq_iff (Nat.mul_ne_zero (by omega) (Nat.ne_of_gt hpos)), Nat.add_right_comm,
        Nat.pow_add, Nat.pow_add]
      constructor
      · exact Nat.mul_le_mul_right _ (Nat.le_add_right _ _)
      · exact Nat.mul_lt_mul_of_pos_right (by omega) hpos
    rw [hlog, Nat.add_sub_cancel_left]

/-- A magnitude is its shift and its significand. -/
theorem shift_mul_add_significand (n : Nat) : shift n * hiddenBit + significand n = n := by
  have hhidden : hiddenBit = 2 ^ 52 := rfl
  simp only [shift, significand, hhidden]
  split <;> omega

/-- The value of a finite magnitude has that magnitude. -/
theorem nearestMagnitude_units {n : Nat} (hn : n ≤ infinityMagnitude) :
    nearestMagnitude (units n) 1 = n := by
  have hround : roundHalfEven (units n) (2 ^ shift n) = significand n :=
    roundHalfEven_mul_self _ (Nat.two_pow_pos _)
  simp only [nearestMagnitude, Nat.div_one, Nat.one_mul, Nat.pow_eq, log2_units, hround,
    shift_mul_add_significand]
  exact Nat.min_eq_left hn

end Binary64

/-- Digits and at most one point, with a digit first and last. -/
structure IsPlainNumeral (t : List Char) : Prop where
  numeric : ∀ c ∈ t, isNumeric c = true
  points : t.count '.' ≤ 1
  first : ∃ c ∈ t.head?, c.isDigit = true
  last : ∃ c ∈ t.getLast?, c.isDigit = true

/-- A digit is no point. -/
theorem ne_point_of_isDigit {c : Char} (h : c.isDigit = true) : c ≠ '.' := by
  rintro rfl
  exact absurd h (by decide)

/-- No point is among digits. -/
theorem count_point_of_digits {ws : List Char} (hws : ∀ c ∈ ws, c.isDigit = true) :
    ws.count '.' = 0 := by
  rw [List.count_eq_zero]
  intro hpoint
  exact ne_point_of_isDigit (hws '.' hpoint) rfl

/-- Digits alone are a plain numeral. -/
theorem isPlainNumeral_digits {ws : List Char} (hne : ws ≠ []) (hws : ∀ c ∈ ws, c.isDigit = true) :
    IsPlainNumeral ws where
  numeric c hc := by simp [isNumeric, hws c hc]
  points := by simp [count_point_of_digits hws]
  first := ⟨ws.head hne, List.head?_eq_some_head hne, hws _ (List.head_mem hne)⟩
  last := ⟨ws.getLast hne, List.getLast?_eq_some_getLast hne, hws _ (List.getLast_mem hne)⟩

/-- Digits on both sides of a point are a plain numeral. -/
theorem isPlainNumeral_point {ws fs : List Char} (hwsne : ws ≠ []) (hws : ∀ c ∈ ws, c.isDigit = true)
    (hfsne : fs ≠ []) (hfs : ∀ c ∈ fs, c.isDigit = true) : IsPlainNumeral (ws ++ '.' :: fs) := by
  have hwhole := isPlainNumeral_digits hwsne hws
  have hfraction := isPlainNumeral_digits hfsne hfs
  constructor
  · intro c hc
    rcases List.mem_append.mp hc with hc | hc
    · exact hwhole.numeric c hc
    · rcases List.mem_cons.mp hc with rfl | hc
      · rfl
      · exact hfraction.numeric c hc
  · rw [List.count_append, List.count_cons_self, count_point_of_digits hws, count_point_of_digits hfs]
  · rw [List.head?_append_of_ne_nil _ hwsne]
    exact hwhole.first
  · rw [List.append_cons, List.getLast?_append_of_ne_nil _ hfsne]
    exact hfraction.last

namespace Decimal

/-- Decimals of one value are rounded to one number. -/
theorem nearest_congr {d e : Decimal} (h : d.digits * 10 ^ e.places = e.digits * 10 ^ d.places) :
    d.nearest = e.nearest := by
  have hd : 0 < 10 ^ d.places := Nat.pow_pos (by decide)
  have he : 0 < 10 ^ e.places := Nat.pow_pos (by decide)
  have hvalue : d.digits * Binary64.unitsPerOne * 10 ^ e.places =
      e.digits * Binary64.unitsPerOne * 10 ^ d.places := by
    rw [Nat.mul_right_comm, h, Nat.mul_right_comm]
  simp only [nearest, Nat.pow_eq]
  rw [← Binary64.nearestMagnitude_mul_right _ _ he, hvalue, Nat.mul_comm (10 ^ d.places),
    Binary64.nearestMagnitude_mul_right _ _ hd]

/-- Binary places before and after the point, written with decimal places. -/
theorem mul_pow_two_five (n places shift : Nat) :
    n * 2 ^ (shift - places) * 5 ^ (places - shift) * 2 ^ places =
      n * 2 ^ shift * 10 ^ (places - shift) := by
  have hpow : 2 ^ (shift - places) * 2 ^ places = 2 ^ shift * 2 ^ (places - shift) := by
    rw [← Nat.pow_add, ← Nat.pow_add]
    congr 1
    omega
  calc n * 2 ^ (shift - places) * 5 ^ (places - shift) * 2 ^ places
      = n * (2 ^ (shift - places) * 2 ^ places) * 5 ^ (places - shift) := by
        rw [Nat.mul_right_comm, Nat.mul_assoc n]
    _ = n * 2 ^ shift * (2 ^ (places - shift) * 5 ^ (places - shift)) := by
        rw [hpow, Nat.mul_assoc, Nat.mul_assoc, Nat.mul_assoc]
    _ = n * 2 ^ shift * 10 ^ (places - shift) := by rw [← Nat.mul_pow]

/-- The exact decimal of a finite magnitude is rounded to it. -/
theorem nearest_ofMagnitude {n : Nat} (hn : n < Binary64.infinityMagnitude) :
    (ofMagnitude n).nearest = .ofMagnitude n := by
  have hpos : 0 < 10 ^ (1074 - Binary64.shift n) := Nat.pow_pos (by decide)
  have hvalue : (ofMagnitude n).digits * Binary64.unitsPerOne =
      Binary64.units n * 10 ^ (1074 - Binary64.shift n) := by
    unfold ofMagnitude Binary64.unitsPerOne Binary64.units
    generalize 1074 = places
    exact mul_pow_two_five (Binary64.significand n) places (Binary64.shift n)
  have hscale := Binary64.nearestMagnitude_mul_right (Binary64.units n) 1 hpos
  rw [Nat.one_mul, Binary64.nearestMagnitude_units (Nat.le_of_lt hn), ← hvalue] at hscale
  exact congrArg Binary64.ofMagnitude hscale

/-- Zeros at the end of the places do not change what a decimal is rounded to. -/
theorem nearest_trim (digits places : Nat) : (trim digits places).nearest = nearest ⟨digits, places⟩ := by
  fun_induction trim digits places with
  | case1 digits => rfl
  | case2 digits places hzero ih =>
      rw [ih]
      apply nearest_congr
      have hdigits : digits / 10 * 10 = digits := Nat.div_mul_cancel (Nat.dvd_of_mod_eq_zero hzero)
      rw [Nat.pow_succ, Nat.mul_comm (10 ^ places), ← Nat.mul_assoc, hdigits]
  | case3 digits places hzero => rfl

/-- A neighbour that is chosen is accepted. -/
theorem accept_of_neighbour? {accept : Decimal → Bool} {d e : Decimal} {step : Nat}
    (h : neighbour? accept d step = some e) : accept e = true := by
  simp only [neighbour?] at h
  split at h
  next hlower hupper =>
    cases h
    split
    · exact hlower
    · exact hupper
  next hlower _ =>
    cases h
    exact hlower
  next _ hupper =>
    cases h
    exact hupper
  next => simp at h

/-- A decimal that is accepted is shortened to one that is. -/
theorem accept_shorten (accept : Decimal → Bool) {d : Decimal} (hd : accept d = true) :
    accept (shorten accept d) = true := by
  simp only [shorten]
  cases hfound : (List.range (Nat.toDigits 10 d.digits).length).findSome? fun k =>
      neighbour? accept d (Nat.pow 10 ((Nat.toDigits 10 d.digits).length - 1 - k)) with
  | none => exact hd
  | some e =>
      obtain ⟨k, _, hk⟩ := List.exists_of_findSome?_eq_some hfound
      exact accept_of_neighbour? hk

/-- The shortest decimal of a finite magnitude reads back to it. -/
theorem nearest_shortest {n : Nat} (hn : n < Binary64.infinityMagnitude) :
    (shortest n).nearest = .ofMagnitude n := by
  have haccept := accept_shorten (fun c => c.nearest == Binary64.ofMagnitude n)
    (beq_iff_eq.mpr (nearest_ofMagnitude hn))
  rw [shortest, nearest_trim]
  exact beq_iff_eq.mp haccept

/-- Padded digits are digits. -/
theorem isDigit_of_mem_padded {width n : Nat} {c : Char} (h : c ∈ padded width n) : c.isDigit = true := by
  rcases List.mem_append.mp h with h | h
  · rw [List.eq_of_mem_replicate h]
    rfl
  · exact Nat.isDigit_of_mem_toDigits (by decide) (by decide) h

/-- Digits that fit are padded to the width. -/
theorem length_padded {width n : Nat} (hwidth : 0 < width) (hn : n < 10 ^ width) :
    (padded width n).length = width := by
  have hle := (Nat.length_toDigits_le_iff (by decide) hwidth).mpr hn
  simp only [padded, List.length_append, List.length_replicate]
  omega

/-- Padding does not change what digits count. -/
theorem ofDigitChars_padded (width n : Nat) : Nat.ofDigitChars 10 (padded width n) 0 = n := by
  rw [padded, Nat.ofDigitChars_append, Nat.ofDigitChars_replicate_zero, Nat.mul_zero,
    Nat.ofDigitChars_ten_toDigits]

/-- The characters of a decimal are read as that decimal. -/
theorem ofNumeral_chars (d : Decimal) : ofNumeral d.chars = d := by
  have hdigit (n : Nat) : ∀ c ∈ Nat.toDigits 10 n, c.isDigit = true := fun c hc =>
    Nat.isDigit_of_mem_toDigits (by decide) (by decide) hc
  obtain ⟨digits, places⟩ := d
  by_cases hplaces : places = 0
  · subst hplaces
    have htake : (Nat.toDigits 10 digits).takeWhile Char.isDigit = Nat.toDigits 10 digits :=
      List.takeWhile_eq_self_iff.mpr (hdigit digits)
    have hdrop : (Nat.toDigits 10 digits).dropWhile Char.isDigit = [] :=
      List.dropWhile_eq_nil_iff.mpr (hdigit digits)
    simp only [chars, ofNumeral, ↓reduceIte, htake, hdrop, List.drop_nil, List.takeWhile_nil,
      List.append_nil, Nat.ofDigitChars_ten_toDigits, List.length_nil]
  · have hpos : 0 < places := Nat.pos_of_ne_zero hplaces
    have hfits : digits % 10 ^ places < 10 ^ places := Nat.mod_lt _ (Nat.pow_pos (by decide))
    have hfraction : (padded places (digits % 10 ^ places)).takeWhile Char.isDigit =
        padded places (digits % 10 ^ places) :=
      List.takeWhile_eq_self_iff.mpr fun c hc => isDigit_of_mem_padded hc
    have hpoint : ¬Char.isDigit '.' = true := by decide
    simp only [chars, ofNumeral, hplaces, ↓reduceIte, Nat.pow_eq,
      List.takeWhile_append_of_pos (hdigit _), List.dropWhile_append_of_pos (hdigit _),
      List.takeWhile_cons_of_neg hpoint, List.dropWhile_cons_of_neg hpoint, List.append_nil,
      List.drop_succ_cons, List.drop_zero, hfraction, length_padded hpos hfits]
    rw [Nat.ofDigitChars_append, Nat.ofDigitChars_ten_toDigits, Nat.ofDigitChars_eq_ofDigitChars_zero,
      ofDigitChars_padded, length_padded hpos hfits, Nat.div_add_mod]

/-- The characters of a decimal are a plain numeral. -/
theorem isPlainNumeral_chars (d : Decimal) : IsPlainNumeral d.chars := by
  have hdigit (n : Nat) : ∀ c ∈ Nat.toDigits 10 n, c.isDigit = true := fun c hc =>
    Nat.isDigit_of_mem_toDigits (by decide) (by decide) hc
  unfold chars
  split
  next => exact isPlainNumeral_digits Nat.toDigits_ne_nil (hdigit _)
  next =>
    apply isPlainNumeral_point Nat.toDigits_ne_nil (hdigit _)
    · simp [padded, Nat.toDigits_ne_nil]
    · exact fun c hc => isDigit_of_mem_padded hc

/-- The characters of a decimal spell the number nearest to it. -/
theorem spells_chars (d : Decimal) : Spells d.chars (.number d.nearest) := by
  have hplain := isPlainNumeral_chars d
  obtain ⟨c, hfirst, -⟩ := hplain.first
  obtain ⟨cs, hcs⟩ := List.head?_eq_some_iff.mp hfirst
  have hnumeric := hplain.numeric
  rw [hcs] at hnumeric
  have hspells : Spells (c :: cs) (.ofNumeral (c :: cs)) :=
    .numeral (hnumeric c List.mem_cons_self) fun e he => hnumeric e (List.mem_cons_of_mem _ he)
  rwa [← hcs, Token.ofNumeral, ofNumeral_chars] at hspells

end Decimal

namespace Binary64

/-- Finite numbers with sign bit clear. -/
def IsFinite (x : Binary64) : Prop := x.isNegative = false ∧ x.magnitude < infinityMagnitude

instance (x : Binary64) : Decidable x.IsFinite := inferInstanceAs (Decidable (_ ∧ _))

/-- A number with sign bit clear is its magnitude. -/
theorem ofMagnitude_magnitude {x : Binary64} (hx : x.isNegative = false) :
    ofMagnitude x.magnitude = x := by
  have hlt : x.bits.toNat < signBit := by simpa [isNegative] using hx
  rw [magnitude, Nat.mod_eq_of_lt hlt, ofMagnitude, UInt64.ofNat_toNat]

/-- A finite number with sign bit clear is written as its shortest decimal. -/
theorem text_of_isFinite {x : Binary64} (hx : x.IsFinite) :
    x.text = String.ofList (Decimal.shortest x.magnitude).chars := by
  obtain ⟨hsign, hfinite⟩ := hx
  have hnan : x.isNaN = false := decide_eq_false (Nat.not_lt.mpr (Nat.le_of_lt hfinite))
  simp [text, hnan, hsign, magnitudeText, hfinite]

/-- That decimal is rounded to the number. -/
theorem nearest_shortest_magnitude {x : Binary64} (hx : x.IsFinite) :
    (Decimal.shortest x.magnitude).nearest = x := by
  rw [Decimal.nearest_shortest hx.2, ofMagnitude_magnitude hx.1]

/-- The text of a finite number with sign bit clear spells it. -/
theorem spells_text {x : Binary64} (hx : x.IsFinite) : Spells x.text.toList (.number x) := by
  have hspells := Decimal.spells_chars (Decimal.shortest x.magnitude)
  rw [nearest_shortest_magnitude hx] at hspells
  rwa [text_of_isFinite hx, String.toList_ofList]

/-- A magnitude below the sign bit is that of its number, which has the sign bit clear. -/
theorem magnitude_ofMagnitude {n : Nat} (hn : n < signBit) :
    (ofMagnitude n).isNegative = false ∧ (ofMagnitude n).magnitude = n := by
  have hbits : (UInt64.ofNat n).toNat = n := by
    rw [UInt64.toNat_ofNat']
    apply Nat.mod_eq_of_lt
    simp only [signBit] at hn
    omega
  simp [isNegative, magnitude, ofMagnitude, hbits, Nat.mod_eq_of_lt hn, hn]

end Binary64

namespace Decimal

/-- A numeral is read with the sign bit clear, as a number that is at most infinity. -/
theorem nearest_le (d : Decimal) :
    d.nearest.isNegative = false ∧ d.nearest.magnitude ≤ Binary64.infinityMagnitude := by
  have hle := Binary64.nearestMagnitude_le (d.digits * Binary64.unitsPerOne) (Nat.pow 10 d.places)
  have hlt : Binary64.infinityMagnitude < Binary64.signBit := by decide
  obtain ⟨hsign, hmagnitude⟩ := Binary64.magnitude_ofMagnitude (Nat.lt_of_le_of_lt hle hlt)
  exact ⟨hsign, by rw [nearest, hmagnitude]; exact hle⟩

end Decimal

end ExprLang
