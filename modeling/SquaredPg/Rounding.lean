import Mathlib.Algebra.Order.Field.Power
import Mathlib.Data.Int.Log
import Mathlib.Data.Rat.Floor
import Mathlib.Tactic.FieldSimp
import Mathlib.Tactic.Linarith
import Mathlib.Tactic.Positivity
import Mathlib.Tactic.Ring

namespace Rounding

/-- One of the integers that are nearest to `y`. -/
def Nearest (y : ℚ) (m : ℕ) : Prop := |y - m| ≤ 1 / 2

/-- A multiple of a power of two, with no more than `p` digits and no power below `q`, and with all
of its digits unless the power is the least one. -/
structure Canonical (p : ℕ) (q : ℤ) (M : ℕ) (E : ℤ) : Prop where
  pos : 0 < M
  lt : M < 2 ^ p
  least : q ≤ E
  normal : 2 ^ (p - 1) ≤ M ∨ E = q

def exponent (p : ℕ) (q : ℤ) (y : ℚ) : ℤ := max (Int.log 2 y - (p - 1)) q

variable {y x : ℚ} {m M p b : ℕ} {q E t : ℤ}

theorem Nearest.eq_of_near (h : Nearest y m) (hM : |y - M| < 1 / 2) : m = M := by
  have hlt : |(m : ℚ) - M| < 1 := by
    have hsplit : (m : ℚ) - M = (y - M) - (y - m) := by ring
    rw [hsplit]
    have habs := abs_sub (y - M) (y - m)
    rw [Nearest] at h
    linarith
  have hint : |(m : ℤ) - M| < 1 := by exact_mod_cast hlt
  have heq := Int.abs_lt_one_iff.mp hint
  omega

theorem Nearest.of_integer (h : Nearest M m) : m = M :=
  h.eq_of_near (by rw [sub_self, abs_zero]; norm_num)

theorem Nearest.le_of_le (h : Nearest y m) (hM : (M : ℚ) ≤ y) : M ≤ m := by
  obtain ⟨-, hhigh⟩ := abs_le.mp h
  have hlt : (M : ℚ) < m + 1 := by linarith
  have hlt : M < m + 1 := by exact_mod_cast hlt
  omega

theorem Nearest.ge_of_ge (h : Nearest y m) (hM : y ≤ M) : m ≤ M := by
  obtain ⟨hlow, -⟩ := abs_le.mp h
  have hlt : (m : ℚ) < M + 1 := by linarith
  have hlt : m < M + 1 := by exact_mod_cast hlt
  omega

theorem log_eq (hb : 1 < b) (hy : 0 < y) (hle : (b : ℚ) ^ t ≤ y) (hlt : y < (b : ℚ) ^ (t + 1)) :
    Int.log b y = t := by
  have h₁ := (Int.zpow_le_iff_le_log hb hy).mp hle
  have h₂ := (Int.lt_zpow_iff_log_lt hb hy).mp hlt
  omega

theorem exponent_of_binade {k : ℕ} (hle : 2 ^ k * 2 ^ E ≤ y) (hlt : y < 2 ^ (k + 1) * 2 ^ E)
    (hq : q ≤ E) : exponent (k + 1) q y = E := by
  have hsum : ∀ n : ℕ, (2 : ℚ) ^ n * 2 ^ E = ((2 : ℕ) : ℚ) ^ (n + E) := by
    intro n
    rw [Nat.cast_two, zpow_add₀ (by norm_num), zpow_natCast]
  have hpos : 0 < y := lt_of_lt_of_le (by positivity) hle
  have hlog : Int.log 2 y = k + E := by
    apply log_eq (by decide) hpos
    · rwa [← hsum]
    · rw [add_right_comm]
      rw [hsum] at hlt
      exact_mod_cast hlt
  rw [exponent, hlog]
  push_cast
  omega

theorem exponent_least {k : ℕ} (hpos : 0 < y) (hlt : y < 2 ^ (k + 1) * 2 ^ q) :
    exponent (k + 1) q y = q := by
  have hlog : Int.log 2 y < k + 1 + q := by
    apply (Int.lt_zpow_iff_log_lt (by decide) hpos).mp
    rw [Nat.cast_two, zpow_add₀ (by norm_num)]
    exact_mod_cast hlt
  rw [exponent]
  push_cast
  omega

theorem recovers (hc : Canonical p q M E) (hp : 0 < p)
    (hy : |y - M * 2 ^ E| < M * 2 ^ E / 2 ^ (p + 1)) (hm : Nearest (y / 2 ^ exponent p q y) m) :
    (exponent p q y = E ∧ m = M) ∨
      (exponent p q y = E - 1 ∧ m = 2 ^ p ∧ M = 2 ^ (p - 1)) := by
  have hunit : (0 : ℚ) < 2 ^ E := by positivity
  obtain ⟨k, rfl⟩ : ∃ k, p = k + 1 := ⟨p - 1, by omega⟩
  have hM : (M : ℚ) + 1 ≤ 2 ^ (k + 1) := by exact_mod_cast hc.lt
  have hone : (1 : ℚ) ≤ M := by exact_mod_cast hc.pos
  -- The distance is less than half a unit.
  have hhalf : |y / 2 ^ E - M| < M / (2 * 2 ^ (k + 1)) := by
    have hdiv : y / 2 ^ E - M = (y - M * 2 ^ E) / 2 ^ E := by field_simp
    rw [hdiv, abs_div, abs_of_pos hunit, div_lt_iff₀ hunit]
    calc |y - M * 2 ^ E| < M * 2 ^ E / 2 ^ (k + 1 + 1) := hy
      _ = M / (2 * 2 ^ (k + 1)) * 2 ^ E := by rw [pow_succ' 2 (k + 1)]; ring
  have hnear : |y / 2 ^ E - M| < 1 / 2 := by
    refine hhalf.trans ?_
    rw [div_lt_div_iff₀ (by positivity) (by norm_num)]
    linarith
  obtain ⟨hlow, hhigh⟩ := abs_lt.mp hnear
  have hz : y = y / 2 ^ E * 2 ^ E := by field_simp
  have habove : y < 2 ^ (k + 1) * 2 ^ E := by
    rw [hz]
    exact mul_lt_mul_of_pos_right (by linarith) hunit
  have hstay : exponent (k + 1) q y = E → exponent (k + 1) q y = E ∧ m = M :=
    fun h ↦ ⟨h, (h ▸ hm).eq_of_near hnear⟩
  by_cases hbinade : (2 : ℚ) ^ k ≤ y / 2 ^ E
  · left
    apply hstay
    refine exponent_of_binade ?_ habove hc.least
    rw [hz]
    exact mul_le_mul_of_nonneg_right hbinade hunit.le
  · have hbelow := not_le.mp hbinade
    by_cases hE : E = q
    · left
      apply hstay
      subst hE
      refine exponent_least ?_ habove
      rw [hz]
      exact mul_pos (by linarith) hunit
    · right
      -- Only a power of two has numbers near it that are below its binade.
      have hpower : M = 2 ^ k := by
        have hge := hc.normal.resolve_right hE
        have hlt : (M : ℚ) < 2 ^ k + 1 := by linarith
        have hlt : M < 2 ^ k + 1 := by exact_mod_cast hlt
        rw [Nat.add_sub_cancel] at hge
        omega
      have hcast : (M : ℚ) = 2 ^ k := by exact_mod_cast hpower
      rw [hcast] at hhalf hone
      have hclose : |y / 2 ^ E - 2 ^ k| < 1 / 4 := by
        refine hhalf.trans_eq ?_
        rw [pow_succ']
        field_simp
        norm_num
      obtain ⟨hlow', -⟩ := abs_lt.mp hclose
      have hhalved : (2 : ℚ) ^ (E - 1) = 2 ^ E / 2 := zpow_sub_one₀ (by norm_num) E
      have hexponent : exponent (k + 1) q y = E - 1 := by
        have hleast := hc.least
        apply exponent_of_binade
        · rw [hhalved, hz]
          calc (2 : ℚ) ^ k * (2 ^ E / 2) = 2 ^ k / 2 * 2 ^ E := by ring
            _ ≤ y / 2 ^ E * 2 ^ E := mul_le_mul_of_nonneg_right (by linarith) hunit.le
        · rw [hhalved, hz, pow_succ]
          calc y / 2 ^ E * 2 ^ E < 2 ^ k * 2 ^ E := mul_lt_mul_of_pos_right hbelow hunit
            _ = 2 ^ k * 2 * (2 ^ E / 2) := by ring
        · omega
      refine ⟨hexponent, ?_, hpower⟩
      rw [hexponent, hhalved] at hm
      apply hm.eq_of_near
      have hdouble : y / (2 ^ E / 2) - ((2 ^ (k + 1) : ℕ) : ℚ) = 2 * (y / 2 ^ E - 2 ^ k) := by
        push_cast
        rw [pow_succ']
        field_simp
      rw [hdouble, abs_mul, abs_of_pos (by norm_num : (0 : ℚ) < 2)]
      linarith

variable {k : ℕ}

theorem zpow_shift (hb : 0 < b) (t j : ℤ) (k : ℕ) :
    (b : ℚ) ^ (t + j) = (b : ℚ) ^ (k + j) * (b : ℚ) ^ (t - k) := by
  have hbase : (b : ℚ) ≠ 0 := by exact_mod_cast hb.ne'
  rw [← zpow_add₀ hbase]
  congr 1
  ring

theorem digits_bounds (hb : 0 < b) (hle : (b : ℚ) ^ t ≤ y) (hlt : y < (b : ℚ) ^ (t + 1))
    (hm : Nearest (y / (b : ℚ) ^ (t - k)) m) : b ^ k ≤ m ∧ m ≤ b ^ (k + 1) := by
  have hbase : (0 : ℚ) < b := by exact_mod_cast hb
  have hunit : (0 : ℚ) < (b : ℚ) ^ (t - k) := by positivity
  constructor
  · apply hm.le_of_le
    have hpower := zpow_shift hb t 0 k
    rw [add_zero, add_zero, zpow_natCast] at hpower
    rw [le_div_iff₀ hunit, Nat.cast_pow, ← hpower]
    exact hle
  · apply hm.ge_of_ge
    have hpower := zpow_shift hb t 1 k
    rw [← Nat.cast_succ, zpow_natCast] at hpower
    rw [div_le_iff₀ hunit, Nat.cast_pow, ← hpower]
    exact hlt.le

theorem digits_exact (hb : 1 < b) {i : ℕ} (hle : (b : ℚ) ^ t ≤ i) (hi : i < b ^ (k + 1))
    (hm : Nearest (i / (b : ℚ) ^ (t - k)) m) : t < k + 1 ∧ m * (b : ℚ) ^ (t - k) = i := by
  have hbase : (1 : ℚ) < b := by exact_mod_cast hb
  have ht : t < k + 1 := by
    have hpower : (b : ℚ) ^ t < (b : ℚ) ^ ((k : ℤ) + 1) := by
      refine hle.trans_lt ?_
      exact_mod_cast hi
    exact (zpow_lt_zpow_iff_right₀ hbase).mp hpower
  obtain ⟨j, hj⟩ : ∃ j : ℕ, t - k = -(j : ℤ) := ⟨(k - t).toNat, by omega⟩
  have hinteger : (i : ℚ) / (b : ℚ) ^ (t - k) = (i * b ^ j : ℕ) := by
    rw [hj, zpow_neg, div_inv_eq_mul, zpow_natCast]
    push_cast
    rfl
  rw [hinteger] at hm
  refine ⟨ht, ?_⟩
  have hne : (b : ℚ) ^ j ≠ 0 := pow_ne_zero j (by linarith)
  rw [hm.of_integer, hj, zpow_neg, zpow_natCast]
  push_cast
  field_simp

theorem digits_near (hb : 0 < b) (hk : 2 ^ p < b ^ k) (hle : (b : ℚ) ^ t ≤ x)
    (hm : Nearest (x / (b : ℚ) ^ (t - k)) m) :
    |m * (b : ℚ) ^ (t - k) - x| < x / 2 ^ (p + 1) := by
  have hbase : (0 : ℚ) < b := by exact_mod_cast hb
  have hunit : (0 : ℚ) < (b : ℚ) ^ (t - k) := by positivity
  have hdiv : m * (b : ℚ) ^ (t - k) - x =
      -((x / (b : ℚ) ^ (t - k) - m) * (b : ℚ) ^ (t - k)) := by field_simp; ring
  have hpower := zpow_shift hb t 0 k
  rw [add_zero, add_zero, zpow_natCast] at hpower
  have hdigits : (2 : ℚ) ^ p < (b : ℚ) ^ k := by exact_mod_cast hk
  rw [hdiv, abs_neg, abs_mul, abs_of_pos hunit, lt_div_iff₀ (by positivity), pow_succ]
  calc |x / (b : ℚ) ^ (t - k) - m| * (b : ℚ) ^ (t - k) * (2 ^ p * 2)
      ≤ 1 / 2 * (b : ℚ) ^ (t - k) * (2 ^ p * 2) := by
        refine mul_le_mul_of_nonneg_right (mul_le_mul_of_nonneg_right hm hunit.le) (by positivity)
    _ = 2 ^ p * (b : ℚ) ^ (t - k) := by ring
    _ < (b : ℚ) ^ k * (b : ℚ) ^ (t - k) := mul_lt_mul_of_pos_right hdigits hunit
    _ ≤ x := by rw [← hpower]; exact hle

end Rounding
