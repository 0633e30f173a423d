import Mathlib.Algebra.Order.Field.Rat
import Mathlib.Data.Nat.Cast.Order.Field
import Mathlib.Tactic.FieldSimp
import Mathlib.Tactic.Linarith
import Mathlib.Tactic.Ring
import ExprLang.Proofs.Numeral

/-!
# Rounding to the nearest number

A finite number has an exact rational value, given by its exponent and its fraction. `Rounds` says which
number a rational value is rounded to: the nearest one, of two that are equally near the one whose last bit
is clear, and infinity from the middle between the largest finite number and the next power of two on. There
is one such number for each value, and `nearestMagnitude` computes it.

Magnitudes in order have values in order, so a value lies between those of two magnitudes that follow each
other, and every other magnitude is further away. Which of the two is nearer is what the remainder of a
division says. This is first shown without a largest magnitude; the bound then cuts off what is above it.
-/

namespace ExprLang

namespace Binary64

/-- The exact value of a finite magnitude, from the exponent and the fraction in its word. -/
def value (n : Nat) : ℚ :=
  if n / hiddenBit = 0 then (n % hiddenBit : Nat) / 2 ^ 52 * (2 : ℚ) ^ (-1022 : ℤ)
  else (1 + (n % hiddenBit : Nat) / 2 ^ 52) * (2 : ℚ) ^ (((n / hiddenBit : Nat) : ℤ) - 1023)

/-- The least value that is rounded to infinity: the middle between the largest finite value and
`2 ^ 1024`. -/
def overflow : ℚ := 2 ^ 1024 - 2 ^ 970

/-- The value, which is not negative, is rounded to the number. -/
inductive Rounds (q : ℚ) : Binary64 → Prop
  | infinite (hq : overflow ≤ q) : Rounds q (ofMagnitude infinityMagnitude)
  | finite {n : Nat} (hq : q < overflow) (hn : n < infinityMagnitude)
      (hnearest : ∀ k < infinityMagnitude, |q - value n| ≤ |q - value k|)
      (heven : ∀ k < infinityMagnitude, k ≠ n → |q - value k| = |q - value n| → n % 2 = 0) :
      Rounds q (ofMagnitude n)

/-- A significand that is raised far enough, or not at all, is that of the magnitude which it makes. -/
theorem units_add {s t : Nat} (hlow : s = 0 ∨ hiddenBit ≤ t) (hhigh : t ≤ 2 * hiddenBit) :
    units (s * hiddenBit + t) = t * 2 ^ s := by
  have hhidden : hiddenBit = 2 ^ 52 := rfl
  simp only [units, significand, shift, Nat.pow_eq]
  rw [hhidden] at hlow hhigh ⊢
  by_cases hsmall : s * 2 ^ 52 + t < 2 ^ 52
  · -- a subnormal magnitude
    obtain rfl : s = 0 := by omega
    rw [if_pos hsmall, Nat.div_eq_of_lt hsmall, Nat.zero_mul, Nat.zero_add]
  · rw [if_neg hsmall]
    by_cases hcarry : t = 2 * 2 ^ 52
    · -- a carry out of the significand raises the exponent
      have hdiv : (s * 2 ^ 52 + t) / 2 ^ 52 - 1 = s + 1 := by omega
      have hmod : (s * 2 ^ 52 + t) % 2 ^ 52 = 0 := by omega
      rw [hdiv, hmod, hcarry, pow_succ]
      ring
    · have hdiv : (s * 2 ^ 52 + t) / 2 ^ 52 - 1 = s := by omega
      have hmod : 2 ^ 52 + (s * 2 ^ 52 + t) % 2 ^ 52 = t := by omega
      rw [hdiv, hmod]

/-- A significand is raised only if it has its leading bit. -/
theorem shift_eq_zero_or (n : Nat) : shift n = 0 ∨ hiddenBit ≤ significand n := by
  simp only [shift, significand]
  split
  next hlt => exact .inl (by rw [Nat.div_eq_of_lt hlt])
  next => exact .inr (Nat.le_add_right _ _)

/-- A significand has no more than 53 bits. -/
theorem significand_lt (n : Nat) : significand n < 2 * hiddenBit := by
  have hhidden : hiddenBit = 2 ^ 52 := rfl
  simp only [significand, hhidden]
  split <;> omega

/-- The next magnitude is larger by one in the last place. -/
theorem units_succ (n : Nat) : units (n + 1) = units n + 2 ^ shift n := by
  have hnext := units_add (s := shift n) (t := significand n + 1)
    ((shift_eq_zero_or n).imp_right Nat.le_succ_of_le) (significand_lt n)
  rw [← Nat.add_assoc, shift_mul_add_significand] at hnext
  rw [hnext, Nat.succ_mul, units, Nat.pow_eq]

/-- Units grow with their magnitudes. -/
theorem strictMono_units : StrictMono units := by
  apply strictMono_nat_of_lt_succ
  intro n
  rw [units_succ]
  exact Nat.lt_add_of_pos_right (Nat.two_pow_pos _)

/-- The same of the units as rational numbers. -/
theorem cast_units_lt {k n : Nat} (h : k < n) : (units k : ℚ) < units n :=
  Nat.cast_lt.mpr (strictMono_units h)

/-- The same of magnitudes that may be equal. -/
theorem cast_units_le {k n : Nat} (h : k ≤ n) : (units k : ℚ) ≤ units n :=
  Nat.cast_le.mpr (strictMono_units.monotone h)

/-- The significand times its power, scaled to whole units. -/
theorem zpow_mul_pow {e : ℤ} {k m : Nat} (h : e + k = 52 + m) : (2 : ℚ) ^ e * 2 ^ k = 2 ^ 52 * 2 ^ m := by
  rw [← zpow_natCast, ← zpow_natCast, ← zpow_natCast, ← zpow_add₀ two_ne_zero, ← zpow_add₀ two_ne_zero]
  exact congrArg _ h

/-- The value of a magnitude is counted by its units. -/
theorem value_eq (n : Nat) : value n = units n / 2 ^ 1074 := by
  have hhidden : hiddenBit = 2 ^ 52 := rfl
  rw [eq_div_iff (pow_ne_zero _ two_ne_zero)]
  simp only [value, units, significand, shift, Nat.pow_eq, hhidden]
  by_cases hsmall : n < 2 ^ 52
  · have hdiv : n / 2 ^ 52 = 0 := Nat.div_eq_of_lt hsmall
    have hscale := zpow_mul_pow (e := -1022) (k := 1074) (m := 0) (by norm_num)
    rw [if_pos hsmall, if_pos hdiv, hdiv, Nat.mod_eq_of_lt hsmall, mul_assoc, hscale]
    field_simp
    simp
  · have hdiv : n / 2 ^ 52 ≠ 0 := by omega
    have hscale := zpow_mul_pow (e := ((n / 2 ^ 52 : Nat) : ℤ) - 1023) (k := 1074) (m := n / 2 ^ 52 - 1)
      (by omega)
    rw [if_neg hsmall, if_neg hdiv, mul_assoc, hscale]
    push_cast
    field_simp
    norm_num

/-- Values grow with their magnitudes. -/
theorem strictMono_value : StrictMono value := by
  intro n m hlt
  rw [value_eq, value_eq]
  exact div_lt_div_of_pos_right (cast_units_lt hlt) (pow_pos two_pos _)

/-- Distances of values are distances of units. -/
theorem abs_sub_value (r : ℚ) (n : Nat) : |r / 2 ^ 1074 - value n| = |r - units n| / 2 ^ 1074 := by
  rw [value_eq, ← sub_div, abs_div, abs_of_pos (pow_pos (two_pos (α := ℚ)) 1074)]

/-- Of all magnitudes, also those above infinity, this one is nearest to `r` units, and it is even if
another one is equally near. -/
structure IsNearest (r : ℚ) (n : Nat) : Prop where
  nearest : ∀ k, |r - units n| ≤ |r - units k|
  even : ∀ k, k ≠ n → |r - units k| = |r - units n| → n % 2 = 0

section Bracket

/-- A value is at least as far above what is below a magnitude as above that magnitude. -/
theorem sub_units_le (r : ℚ) {k n : Nat} (hk : k ≤ n) : r - units n ≤ |r - units k| := by
  have hle := cast_units_le hk
  exact le_trans (by linarith) (le_abs_self _)

/-- A value is at least as far below what is above a magnitude as below that magnitude. -/
theorem units_sub_le (r : ℚ) {k n : Nat} (hk : n ≤ k) : units n - r ≤ |r - units k| := by
  have hle := cast_units_le hk
  exact le_trans (by linarith) (neg_le_abs _)

variable {r : ℚ} {n : Nat}

/-- A magnitude is nearest to a value above it that is not above the middle between it and the next. -/
theorem isNearest_of_le_middle (hlo : units n ≤ r) (hmiddle : 2 * r ≤ units n + units (n + 1))
    (htie : 2 * r = units n + units (n + 1) → n % 2 = 0) : IsNearest r n := by
  have hdist : |r - units n| = r - units n := abs_of_nonneg (by linarith)
  constructor
  · intro k
    rw [hdist]
    rcases Nat.lt_or_ge n k with hk | hk
    · have hfar := units_sub_le r (Nat.succ_le_of_lt hk)
      linarith
    · exact sub_units_le r hk
  · intro k hne heq
    rw [hdist] at heq
    rcases Nat.lt_or_gt_of_ne hne with hk | hk
    · -- what is below is further away
      have hlt := cast_units_lt hk
      have hself := le_abs_self (r - units k)
      linarith
    · have hfar := units_sub_le r (Nat.succ_le_of_lt hk)
      exact htie (by linarith)

/-- A magnitude is nearest to a value below it that is not below the middle between it and the one before. -/
theorem isNearest_of_middle_le (hhi : r ≤ units (n + 1)) (hmiddle : units n + units (n + 1) ≤ 2 * r)
    (htie : 2 * r = units n + units (n + 1) → (n + 1) % 2 = 0) : IsNearest r (n + 1) := by
  have hdist : |r - units (n + 1)| = units (n + 1) - r := by
    rw [abs_sub_comm]
    exact abs_of_nonneg (by linarith)
  constructor
  · intro k
    rw [hdist]
    rcases Nat.lt_or_ge n k with hk | hk
    · exact units_sub_le r hk
    · have hfar := sub_units_le r hk
      linarith
  · intro k hne heq
    rw [hdist] at heq
    rcases Nat.lt_or_gt_of_ne hne with hk | hk
    · have hfar := sub_units_le r (Nat.le_of_lt_succ hk)
      exact htie (by linarith)
    · -- what is above is further away
      have hlt := cast_units_lt hk
      have hself := neg_le_abs (r - units k)
      linarith

/-- Below the middle nothing above it is nearest. -/
theorem IsNearest.le_of_lt_middle (h : IsNearest r n) {k : Nat} (hr : 2 * r < units k + units (k + 1)) :
    n ≤ k := by
  by_contra hk
  have hlt := cast_units_lt (Nat.lt_succ_self k)
  have hfar := units_sub_le r (Nat.succ_le_of_lt (Nat.lt_of_not_le hk))
  have hnear : |r - units k| < units (k + 1) - r := by
    rw [abs_sub_lt_iff]
    constructor <;> linarith
  linarith [h.nearest k]

/-- From the middle on nothing below it is nearest, if what is above it is even. -/
theorem IsNearest.lt_of_middle_le (h : IsNearest r n) {k : Nat} (hk : k % 2 = 1)
    (hr : units k + units (k + 1) ≤ 2 * r) : k < n := by
  by_contra hn
  have hnk : n ≤ k := Nat.le_of_not_lt hn
  have hlt := cast_units_lt (Nat.lt_succ_self k)
  have hle := cast_units_le hnk
  have hself := le_abs_self (r - units n)
  have hnear : |r - units (k + 1)| ≤ r - units k := by
    rw [abs_sub_le_iff]
    constructor <;> linarith
  -- so the two are equally near, which makes the lower one even
  have hnearest := h.nearest (k + 1)
  have hunits : units n = units k := Nat.cast_injective (R := ℚ) (by linarith)
  obtain rfl : n = k := strictMono_units.injective hunits
  have heven := h.even (n + 1) (Nat.succ_ne_self n) (by linarith)
  omega

end Bracket

/-- A value at a magnitude, or between it and the next, is nearest to one of them; which one is said by
what is left over it, in parts of a unit. -/
theorem isNearest_of_remainder {r : ℚ} {d s t rest : Nat} (hd : 0 < d)
    (hvalue : r * d = d * 2 ^ s * t + rest) (hrest : rest < d * 2 ^ s)
    (hlow : s = 0 ∨ hiddenBit ≤ t) (hhigh : t < 2 * hiddenBit) :
    IsNearest r (s * hiddenBit +
      if 2 * rest < d * 2 ^ s ∨ (2 * rest = d * 2 ^ s ∧ t % 2 = 0) then t else t + 1) := by
  have hpos : (0 : ℚ) < d := Nat.cast_pos.mpr hd
  have hbelow : (rest : ℚ) < d * 2 ^ s := by exact_mod_cast hrest
  have hlower : (units (s * hiddenBit + t) : ℚ) * d = d * 2 ^ s * t := by
    rw [units_add hlow hhigh.le]
    push_cast
    ring
  have hupper : (units (s * hiddenBit + t + 1) : ℚ) * d = d * 2 ^ s * t + d * 2 ^ s := by
    rw [Nat.add_assoc, units_add (hlow.imp_right Nat.le_succ_of_le) hhigh]
    push_cast
    ring
  have hhalf (htie : 2 * r = units (s * hiddenBit + t) + units (s * hiddenBit + t + 1)) :
      2 * rest = d * 2 ^ s := by
    have htie' := congrArg (· * (d : ℚ)) htie
    have hcast : (2 * rest : ℚ) = d * 2 ^ s := by linarith
    exact_mod_cast hcast
  have hparity : (s * hiddenBit + t) % 2 = t % 2 := by
    have hhidden : hiddenBit = 2 ^ 52 := rfl
    rw [hhidden]
    omega
  split
  next hcase =>
    have hle : (2 * rest : ℚ) ≤ d * 2 ^ s := by exact_mod_cast (by omega : 2 * rest ≤ d * 2 ^ s)
    apply isNearest_of_le_middle
    · exact le_of_mul_le_mul_right (by linarith) hpos
    · exact le_of_mul_le_mul_right (by linarith) hpos
    · intro htie
      have heq := hhalf htie
      omega
  next hcase =>
    have hge : (d * 2 ^ s : ℚ) ≤ 2 * rest := by exact_mod_cast (by omega : d * 2 ^ s ≤ 2 * rest)
    rw [← Nat.add_assoc]
    apply isNearest_of_middle_le
    · exact le_of_mul_le_mul_right (by linarith) hpos
    · exact le_of_mul_le_mul_right (by linarith) hpos
    · intro htie
      have heq := hhalf htie
      omega

/-- Without its last places a quotient fits into a significand, and has the leading bit unless it is too
small. -/
theorem div_mul_two_pow_bounds (n d : Nat) :
    ((n / d).log2 - 52 = 0 ∨ hiddenBit ≤ n / (d * 2 ^ ((n / d).log2 - 52))) ∧
      n / (d * 2 ^ ((n / d).log2 - 52)) < 2 * hiddenBit := by
  have hhidden : hiddenBit = 2 ^ 52 := rfl
  rw [← Nat.div_div_eq_div_mul, hhidden]
  generalize n / d = q
  have hlt : q < 2 ^ (q.log2 - 52) * (2 * 2 ^ 52) := by
    calc q < 2 ^ (q.log2 + 1) := Nat.lt_log2_self
      _ ≤ 2 ^ (q.log2 - 52 + 53) := Nat.pow_le_pow_right (by decide) (by omega)
      _ = 2 ^ (q.log2 - 52) * (2 * 2 ^ 52) := Nat.pow_add _ _ _
  refine ⟨?_, Nat.div_lt_of_lt_mul hlt⟩
  rcases Nat.eq_zero_or_pos (q.log2 - 52) with hzero | hpos
  · exact .inl hzero
  · right
    rw [Nat.le_div_iff_mul_le (Nat.two_pow_pos _), ← Nat.pow_add, Nat.add_sub_cancel' (by omega)]
    exact Nat.log2_self_le fun hq => by simp [hq] at hpos

/-- Rounding the significand of a quotient gives the nearest magnitude. -/
theorem isNearest_roundHalfEven (n : Nat) {d : Nat} (hd : 0 < d) :
    IsNearest (n / d) (((n / d).log2 - 52) * hiddenBit +
      roundHalfEven n (d * 2 ^ ((n / d).log2 - 52))) := by
  obtain ⟨hlow, hhigh⟩ := div_mul_two_pow_bounds n d
  have hdpos : (d : ℚ) ≠ 0 := Nat.cast_ne_zero.mpr hd.ne'
  apply isNearest_of_remainder hd _ (Nat.mod_lt _ (Nat.mul_pos hd (Nat.two_pow_pos _))) hlow hhigh
  rw [div_mul_cancel₀ _ hdpos]
  exact_mod_cast (Nat.div_add_mod n _).symm

/-- The middle between the largest finite magnitude and infinity. -/
theorem units_add_units_infinity :
    (units (infinityMagnitude - 1) + units (infinityMagnitude - 1 + 1) : ℚ) = 2 * (overflow * 2 ^ 1074) := by
  have hlower : infinityMagnitude - 1 = 2045 * hiddenBit + (2 * hiddenBit - 1) := by decide
  have hupper : infinityMagnitude - 1 + 1 = 2045 * hiddenBit + 2 * hiddenBit := by decide
  have hhidden : hiddenBit = 2 ^ 52 := rfl
  have htop : (2 : ℚ) ^ 1024 = 2 ^ 54 * 2 ^ 970 := pow_add 2 54 970
  have hstep : (2 : ℚ) ^ 2045 = 2 ^ 971 * 2 ^ 1074 := pow_add 2 971 1074
  have hhalf : (2 : ℚ) ^ 971 = 2 ^ 970 * 2 := pow_succ 2 970
  rw [hupper, units_add (.inr (by decide)) le_rfl, hlower, units_add (.inr (by decide)) (Nat.sub_le _ _),
    overflow, hhidden, Nat.cast_mul, Nat.cast_mul, Nat.cast_pow 2 2045, Nat.cast_ofNat, htop, hstep, hhalf]
  generalize (2 : ℚ) ^ 970 = a
  generalize (2 : ℚ) ^ 1074 = b
  push_cast
  ring

/-- Cutting the nearest magnitude off at infinity rounds the value. -/
theorem IsNearest.rounds {r : ℚ} {n : Nat} (h : IsNearest r n) :
    Rounds (r / 2 ^ 1074) (ofMagnitude (min n infinityMagnitude)) := by
  have hscale : (0 : ℚ) < 2 ^ 1074 := pow_pos two_pos 1074
  rcases lt_or_ge (r / 2 ^ 1074) overflow with hq | hq
  · have hr : 2 * r < units (infinityMagnitude - 1) + units (infinityMagnitude - 1 + 1) := by
      rw [units_add_units_infinity]
      exact mul_lt_mul_of_pos_left ((div_lt_iff₀ hscale).mp hq) two_pos
    have hn : n < infinityMagnitude := Nat.lt_of_le_pred (by decide) (h.le_of_lt_middle hr)
    rw [Nat.min_eq_left hn.le]
    refine .finite hq hn (fun k _ => ?_) (fun k _ hne heq => ?_)
    · rw [abs_sub_value, abs_sub_value]
      exact div_le_div_of_nonneg_right (h.nearest k) hscale.le
    · rw [abs_sub_value, abs_sub_value, div_left_inj' hscale.ne'] at heq
      exact h.even k hne heq
  · have hr : units (infinityMagnitude - 1) + units (infinityMagnitude - 1 + 1) ≤ 2 * r := by
      rw [units_add_units_infinity]
      exact mul_le_mul_of_nonneg_left ((le_div_iff₀ hscale).mp hq) two_pos.le
    have hn : infinityMagnitude - 1 < n := h.lt_of_middle_le (by decide) hr
    rw [Nat.min_eq_right (Nat.le_of_pred_lt hn)]
    exact .infinite hq

/-- Two even magnitudes are not both nearest, for there is an odd one between them. -/
theorem not_lt_of_nearest {q : ℚ} {n m : Nat} (hm : m < infinityMagnitude)
    (hnearest : ∀ k < infinityMagnitude, |q - value n| ≤ |q - value k|)
    (hdist : |q - value m| = |q - value n|) (hneven : n % 2 = 0) (hmeven : m % 2 = 0) : ¬n < m := by
  intro hlt
  have hnext : n + 1 < m := by omega
  have hlow : value n < value (n + 1) := strictMono_value (Nat.lt_succ_self n)
  have hhigh : value (n + 1) < value m := strictMono_value hnext
  rcases abs_eq_abs.mp hdist with hsame | hmiddle
  · linarith
  · have hnear : |q - value (n + 1)| < q - value n := by
      rw [abs_sub_lt_iff]
      constructor <;> linarith
    linarith [hnearest (n + 1) (hnext.trans hm), le_abs_self (q - value n)]

/-- A value is rounded to one number only. -/
theorem Rounds.unique {q : ℚ} {x y : Binary64} (hx : Rounds q x) (hy : Rounds q y) : x = y := by
  cases hx with
  | infinite hq =>
      cases hy with
      | infinite => rfl
      | finite hlt => exact absurd hlt (not_lt.mpr hq)
  | @finite n hlt hn hnearest heven =>
      cases hy with
      | infinite hq => exact absurd hlt (not_lt.mpr hq)
      | @finite m _ hm hnearest' heven' =>
          have hdist : |q - value m| = |q - value n| := le_antisymm (hnearest' n hn) (hnearest m hm)
          by_contra hne
          have hnm : n ≠ m := fun h => hne (congrArg ofMagnitude h)
          have hneven := heven m hm hnm.symm hdist
          have hmeven := heven' n hn hnm hdist.symm
          rcases Nat.lt_or_gt_of_ne hnm with hlt | hlt
          · exact not_lt_of_nearest hm hnearest hdist hneven hmeven hlt
          · exact not_lt_of_nearest hn hnearest' hdist.symm hmeven hneven hlt

/-- The nearest magnitude of a quotient is what it is rounded to, and nothing else is. -/
theorem rounds_iff {n d : Nat} (hd : 0 < d) {x : Binary64} :
    Rounds ((n : ℚ) / d / 2 ^ 1074) x ↔ x = ofMagnitude (nearestMagnitude n d) := by
  have hrounds : Rounds ((n : ℚ) / d / 2 ^ 1074) (ofMagnitude (nearestMagnitude n d)) :=
    (isNearest_roundHalfEven n hd).rounds
  constructor
  · exact fun hx => hx.unique hrounds
  · rintro rfl
    exact hrounds

end Binary64

namespace Decimal

/-- The value of a decimal is rounded to the number nearest to it, and to nothing else. -/
theorem rounds_iff (d : Decimal) {x : Binary64} :
    Binary64.Rounds (d.digits / 10 ^ d.places) x ↔ x = d.nearest := by
  have hpos : 0 < 10 ^ d.places := Nat.pow_pos (by decide)
  have hunits : (Binary64.unitsPerOne : ℚ) = 2 ^ 1074 := by
    unfold Binary64.unitsPerOne
    generalize 1074 = k
    exact Nat.cast_pow 2 k
  have hvalue : (d.digits / 10 ^ d.places : ℚ) =
      ((d.digits * Binary64.unitsPerOne : Nat) : ℚ) / ((10 ^ d.places : Nat) : ℚ) / 2 ^ 1074 := by
    rw [Nat.cast_mul, hunits, Nat.cast_pow, Nat.cast_ofNat, mul_div_right_comm,
      mul_div_cancel_right₀ _ (pow_ne_zero 1074 two_ne_zero)]
  rw [hvalue]
  exact Binary64.rounds_iff hpos

-- The least whole number that is read as infinity, and the one before it.
example : (⟨2 ^ 1024 - 2 ^ 970, 0⟩ : Decimal).nearest = .ofMagnitude Binary64.infinityMagnitude ∧
    (⟨2 ^ 1024 - 2 ^ 970 - 1, 0⟩ : Decimal).nearest = .ofMagnitude (Binary64.infinityMagnitude - 1) := by
  decide +kernel

end Decimal

end ExprLang
