import SquaredPg.Double
import SquaredPg.Rounding
import Mathlib.Algebra.Order.Floor.Semifield

namespace SquaredPg.Double

open Rounding

variable {base n m precision : ℕ} {e : ℤ} {d : Double}

theorem ceil_div (hn : 0 < n) (hm : 0 < m) : ⌈(m : ℚ) / n⌉₊ = (m + n - 1) / n := by
  have hnq : (0 : ℚ) < n := by exact_mod_cast hn
  have hdiv := Nat.div_add_mod (m + n - 1) n
  have hmod := Nat.mod_lt (m + n - 1) hn
  obtain ⟨k, hk⟩ : ∃ k, (m + n - 1) / n = k + 1 :=
    ⟨(m + n - 1) / n - 1, (Nat.sub_add_cancel ((Nat.one_le_div_iff hn).mpr (by omega))).symm⟩
  rw [hk, Nat.mul_add, Nat.mul_one] at hdiv
  have hbelow : n * k < m := by omega
  have habove : m ≤ n * (k + 1) := by rw [Nat.mul_add]; omega
  rw [hk, Nat.ceil_eq_iff (Nat.succ_ne_zero k), Nat.succ_sub_one]
  constructor
  · rw [lt_div_iff₀ hnq, mul_comm]
    exact_mod_cast hbelow
  · rw [div_le_iff₀ hnq, mul_comm]
    exact_mod_cast habove

theorem exponentOf_eq (hn : 0 < n) (hm : 0 < m) :
    exponentOf base n m = Int.log base ((n : ℚ) / m) := by
  have hmq : (0 : ℚ) < m := by exact_mod_cast hm
  by_cases hle : m ≤ n
  · have hone : (1 : ℚ) ≤ n / m := (one_le_div hmq).mpr (by exact_mod_cast hle)
    rw [exponentOf, if_pos hle, Int.log_of_one_le_right base hone, Nat.floor_div_eq_div]
  · have hone : (n : ℚ) / m ≤ 1 := (div_le_one hmq).mpr (by exact_mod_cast (not_le.mp hle).le)
    rw [exponentOf, if_neg hle, Int.log_of_right_le_one base hone, inv_div, ceil_div hn hm]

theorem roundDiv_nearest (n : ℕ) (hm : 0 < m) : Nearest ((n : ℚ) / m) (roundDiv n m) := by
  have hmq : (0 : ℚ) < m := by exact_mod_cast hm
  have hsplit : (n : ℚ) = m * (n / m : ℕ) + (n % m : ℕ) := by exact_mod_cast (Nat.div_add_mod n m).symm
  have hrest : ((n % m : ℕ) : ℚ) < m := by exact_mod_cast Nat.mod_lt n hm
  have hnonneg : (0 : ℚ) ≤ (n % m : ℕ) := Nat.cast_nonneg _
  rw [Nearest, abs_le]
  unfold roundDiv
  dsimp only
  split_ifs with hdown
  · have htwice : 2 * ((n % m : ℕ) : ℚ) ≤ m := by
      have hle : 2 * (n % m) ≤ m := by omega
      exact_mod_cast hle
    have hdiv : (n : ℚ) / m - (n / m : ℕ) = (n % m : ℕ) / m := by
      rw [div_sub' hmq.ne', hsplit]
      ring
    rw [hdiv, le_div_iff₀ hmq, div_le_div_iff₀ hmq (by norm_num)]
    constructor <;> linarith
  · have htwice : (m : ℚ) ≤ 2 * (n % m : ℕ) := by
      have hle : m ≤ 2 * (n % m) := by omega
      exact_mod_cast hle
    have hdiv : (n : ℚ) / m - ((n / m + 1 : ℕ) : ℚ) = ((n % m : ℕ) - m) / m := by
      rw [div_sub' hmq.ne', hsplit]
      push_cast
      ring
    rw [hdiv, le_div_iff₀ hmq, div_le_div_iff₀ hmq (by norm_num)]
    constructor <;> linarith

theorem scaled_nearest (hbase : 0 < base) (n : ℕ) (hm : 0 < m) (e : ℤ) :
    Nearest ((n : ℚ) / m / (base : ℚ) ^ e) (scaled base n m e) := by
  unfold scaled
  split_ifs with he
  · obtain ⟨k, rfl⟩ := Int.eq_ofNat_of_zero_le he
    have h := roundDiv_nearest n (Nat.mul_pos hm (Nat.pow_pos (n := k) hbase))
    rw [Nat.cast_mul, Nat.cast_pow, ← div_div] at h
    rw [Int.toNat_natCast, zpow_natCast]
    exact h
  · obtain ⟨k, hk⟩ : ∃ k : ℕ, e = -(k : ℤ) := ⟨(-e).toNat, by omega⟩
    have h := roundDiv_nearest (n * base ^ k) hm
    rw [Nat.cast_mul, Nat.cast_pow, mul_div_right_comm] at h
    rw [hk, neg_neg, Int.toNat_natCast, zpow_neg, zpow_natCast, div_inv_eq_mul]
    exact h

def Finite (d : Double) : Prop := d.biasedExponent ≠ 2047

instance : DecidablePred Finite := fun d ↦ inferInstanceAs (Decidable (d.biasedExponent ≠ 2047))

def mantissa (d : Double) : ℕ :=
  if d.biasedExponent = 0 then d.fraction else d.fraction + 2 ^ 52

def power (d : Double) : ℤ := (max d.biasedExponent 1 : ℕ) - 1075

def absolute (d : Double) : ℚ := d.mantissa * 2 ^ d.power

theorem magnitude_pos (d : Double) : 0 < d.magnitude.2 := by
  by_cases h : 1075 ≤ max d.biasedExponent 1
  · simp [magnitude, h]
  · simp [magnitude, h]

theorem magnitude_eq (d : Double) : (d.magnitude.1 : ℚ) / d.magnitude.2 = d.absolute := by
  unfold magnitude absolute power mantissa
  dsimp only
  generalize (if d.biasedExponent = 0 then d.fraction else d.fraction + 2 ^ 52) = M
  generalize max d.biasedExponent 1 = E
  split_ifs with h
  · obtain ⟨k, rfl⟩ := Nat.exists_eq_add_of_le h
    have hk : ((1075 + k : ℕ) : ℤ) - 1075 = (k : ℕ) := by push_cast; ring
    rw [hk, Nat.add_sub_cancel_left, zpow_natCast]
    simp
  · obtain ⟨k, hk⟩ := Nat.exists_eq_add_of_le (not_le.mp h).le
    have hpower : (E : ℤ) - 1075 = -(k : ℕ) := by omega
    have hsub : 1075 - E = k := by omega
    rw [hpower, hsub, zpow_neg, zpow_natCast, div_eq_mul_inv]
    push_cast
    rfl

theorem magnitude_eq_zero : d.magnitude.1 = 0 ↔ d.mantissa = 0 := by
  unfold magnitude
  dsimp only
  rw [← mantissa]
  split_ifs
  · simp
  · rfl

theorem canonical (hfinite : d.Finite) (hzero : d.mantissa ≠ 0) :
    Canonical 53 (-1074) d.mantissa d.power ∧ d.power ≤ 971 := by
  have hfraction : d.fraction < 2 ^ 52 := Nat.mod_lt _ (by norm_num)
  have hbiased : d.biasedExponent < 2 ^ 11 := Nat.mod_lt _ (by norm_num)
  have hbound : d.biasedExponent < 2047 := by
    rw [Finite] at hfinite
    omega
  refine ⟨⟨Nat.pos_of_ne_zero hzero, ?_, ?_, ?_⟩, ?_⟩
  · unfold mantissa
    split_ifs <;> omega
  · unfold power
    omega
  · unfold mantissa power
    split_ifs with h
    · right
      rw [h]
      rfl
    · left
      norm_num
  · unfold power
    omega

theorem bits_eq (d : Double) : d.bits.toNat = (if d.negative then 2 ^ 63 else 0) +
    if d.mantissa < 2 ^ 52 then d.mantissa
    else (d.power + 1075).toNat * 2 ^ 52 + (d.mantissa - 2 ^ 52) := by
  have hbits := d.bits.toNat_lt
  unfold mantissa power negative fraction biasedExponent
  generalize d.bits.toNat = b at hbits
  simp only [decide_eq_true_eq]
  split_ifs <;> omega

/-- What is near a double is read as the double. -/
theorem nearest_recovers (hfinite : d.Finite) (hzero : d.mantissa ≠ 0) (hn : 0 < n) (hm : 0 < m)
    (hnear : |(n : ℚ) / m - d.absolute| < d.absolute / 2 ^ 54) :
    nearest d.negative n m = some d := by
  obtain ⟨hcanonical, hlimit⟩ := canonical hfinite hzero
  have hexponent : max (exponentOf 2 n m - 52) (-1074) = exponent 53 (-1074) ((n : ℚ) / m) := by
    rw [exponentOf_eq hn hm]
    rfl
  have hscaled := scaled_nearest Nat.two_pos n hm (exponent 53 (-1074) ((n : ℚ) / m))
  have hdouble : some (⟨UInt64.ofNat d.bits.toNat⟩ : Double) = some d := by
    rw [UInt64.ofNat_toNat]
  have hleast := hcanonical.least
  have hbits := d.bits_eq
  unfold nearest
  rw [if_neg hn.ne', hexponent]
  dsimp only
  obtain ⟨he, hM⟩ | ⟨he, hm', hM⟩ := recovers hcanonical (by decide) hnear hscaled
  · have hcarry : d.mantissa ≠ 2 ^ 53 := hcanonical.lt.ne
    rw [hM, he, if_neg hcarry]
    dsimp only
    rw [if_neg (by omega), ← hdouble]
    by_cases hsmall : d.mantissa < 2 ^ 52
    · rw [if_pos hsmall] at hbits ⊢
      rw [hbits]
    · rw [if_neg hsmall, ← Nat.add_assoc] at hbits
      rw [if_neg hsmall, hbits]
  · rw [hm', he, if_pos rfl]
    dsimp only
    rw [sub_add_cancel, if_neg (by omega), if_neg (by omega), ← hdouble, hbits, hM]
    norm_num [Nat.add_assoc]

/-- Digits of a number: so many that the number is the nearest one to them, and none is lost where
there are enough of them. -/
structure Decimal (precision : ℕ) (y : ℚ) (digits : ℕ) (x : ℤ) : Prop where
  low : 10 ^ (precision - 1) ≤ digits
  high : digits < 10 ^ precision
  near : ∀ p, 2 ^ p < 10 ^ (precision - 1) →
    |digits * (10 : ℚ) ^ (x - (precision - 1)) - y| < y / 2 ^ (p + 1)
  exact : ∀ k : ℕ, y = k → k < 10 ^ precision →
    x < precision ∧ digits * (10 : ℚ) ^ (x - (precision - 1)) = k
  small : x < precision → y < 10 ^ precision

theorem significant_decimal (hn : 0 < n) (hm : 0 < m) (hprecision : 0 < precision) :
    Decimal precision ((n : ℚ) / m) (significant precision n m).1 (significant precision n m).2 := by
  obtain ⟨k, rfl⟩ : ∃ k, precision = k + 1 := ⟨precision - 1, by omega⟩
  have hcount : ((k + 1 : ℕ) : ℤ) - 1 = k := by push_cast; ring
  have hy : (0 : ℚ) < (n : ℚ) / m := div_pos (by exact_mod_cast hn) (by exact_mod_cast hm)
  have hx : exponentOf 10 n m = Int.log 10 ((n : ℚ) / m) := exponentOf_eq hn hm
  have hnearest := scaled_nearest (by decide : 0 < 10) n hm (exponentOf 10 n m - k)
  have hle := Int.zpow_log_le_self (b := 10) (by decide) hy
  have hlt := Int.lt_zpow_succ_log_self (b := 10) (by decide) ((n : ℚ) / m)
  rw [← hx] at hle hlt
  unfold significant
  dsimp only
  rw [hcount]
  generalize exponentOf 10 n m = X at hnearest hle hlt ⊢
  generalize scaled 10 n m (X - k) = D at hnearest ⊢
  generalize (n : ℚ) / m = y at hnearest hle hlt ⊢
  obtain ⟨hlow, hhigh⟩ := digits_bounds (by decide) hle hlt hnearest
  have hnear : ∀ p, 2 ^ p < 10 ^ k → |D * (10 : ℚ) ^ (X - k) - y| < y / 2 ^ (p + 1) := by
    intro p hp
    exact digits_near (b := 10) (by decide) hp hle hnearest
  have hexact : ∀ i : ℕ, y = i → i < 10 ^ (k + 1) →
      X < k + 1 ∧ D * (10 : ℚ) ^ (X - k) = i := by
    rintro i rfl hbound
    exact digits_exact (b := 10) (by decide) hle hbound hnearest
  have hsmall : X < k + 1 → y < 10 ^ (k + 1) := by
    intro hX
    refine hlt.trans_le ?_
    rw [← zpow_natCast]
    exact zpow_le_zpow_right₀ (by norm_num) (by push_cast; omega)
  split_ifs with hcarry
  · have hvalue : ((10 ^ k : ℕ) : ℚ) * 10 ^ (X + 1 - k) = D * 10 ^ (X - k) := by
      have hsum : X + 1 - k = X - k + 1 := by ring
      rw [hcarry, hsum, zpow_add_one₀ (by norm_num)]
      push_cast
      ring
    refine ⟨le_rfl, Nat.pow_lt_pow_right (by decide) (Nat.lt_succ_self k), ?_, ?_, ?_⟩
    · intro p hp
      rw [hcount, Nat.add_sub_cancel, hvalue]
      exact hnear p hp
    · intro i hi hbound
      -- A number that is rounded up to a power is not an integer with so few digits.
      obtain ⟨-, hsame⟩ := hexact i hi hbound
      have hpower := zpow_shift (b := 10) (by decide) X 1 k
      rw [← Nat.cast_succ, zpow_natCast] at hpower
      rw [← hi, hcarry] at hsame
      push_cast at hsame hpower hlt
      rw [hpower, hsame] at hlt
      exact absurd hlt (lt_irrefl y)
    · intro hX
      exact hsmall (by omega)
  · refine ⟨hlow, lt_of_le_of_ne hhigh hcarry, ?_, ?_, ?_⟩
    · intro p hp
      rw [hcount]
      exact hnear p hp
    · intro i hi hbound
      rw [hcount]
      exact hexact i hi hbound
    · intro hX
      exact hsmall hX

end SquaredPg.Double
