import Mathlib.Algebra.Order.Round
import Mathlib.Data.Int.Log
import Mathlib.Data.Rat.Floor
import Mathlib.Tactic.Linarith
import Mathlib.Tactic.Ring

/-! Binary rounding to the nearest, with a least exponent but no greatest one. -/
namespace Rounding

variable {K : Type} [Field K] [LinearOrder K] [IsStrictOrderedRing K] [FloorRing K]
  {p : ℕ} {m k n : ℤ} {x y d : K}

/-- The integer nearest to `x`. Halfway between two it is the even one. -/
def nearestEven (x : K) : ℤ := if Int.fract x = 1 / 2 then 2 * round (x / 2) else round x

/-- How far apart at `x` the multiples of `2 ^ m` with `p` binary digits are. -/
def ulp (p : ℕ) (m : ℤ) (x : K) : K := 2 ^ max m (Int.log 2 |x| + 1 - p)

def nearest (p : ℕ) (m : ℤ) (x : K) : K := nearestEven (x / ulp p m x) * ulp p m x

/-- The number is one of them. -/
def Fits (p : ℕ) (m : ℤ) (x : K) : Prop := ∃ n : ℤ, x = n * ulp p m x

theorem abs_sub_nearestEven (x : K) : |x - nearestEven x| ≤ 1 / 2 := by
  unfold nearestEven
  split_ifs with htie
  · -- twice the rounded half is within 1 of `x`, which lies between two integers
    have hhalf := abs_le.mp (abs_sub_round (x / 2))
    have hx : x = ⌊x⌋ + 1 / 2 := by
      rw [← htie, Int.floor_add_fract]
    have hlo : ⌊x⌋ - 2 * round (x / 2) < 1 := by
      exact_mod_cast (by linarith : (⌊x⌋ - 2 * round (x / 2) : K) < 1)
    have hhi : -2 < ⌊x⌋ - 2 * round (x / 2) := by
      exact_mod_cast (by linarith : (-2 : K) < ⌊x⌋ - 2 * round (x / 2))
    have hle : (⌊x⌋ : K) ≤ 2 * round (x / 2) := by
      exact_mod_cast (by omega : ⌊x⌋ ≤ 2 * round (x / 2))
    have hge : (2 * round (x / 2) : K) ≤ ⌊x⌋ + 1 := by
      exact_mod_cast (by omega : 2 * round (x / 2) ≤ ⌊x⌋ + 1)
    rw [abs_le]
    push_cast
    constructor <;> linarith
  · exact abs_sub_round x

theorem nearestEven_eq (h : |(n : K) - x| < 1 / 2) : nearestEven x = n := by
  have hr := abs_le.mp (abs_sub_nearestEven x)
  have hn := abs_lt.mp h
  have hlt : nearestEven x < n + 1 := by
    exact_mod_cast (by linarith : (nearestEven x : K) < n + 1)
  have hgt : n < nearestEven x + 1 := by
    exact_mod_cast (by linarith : (n : K) < nearestEven x + 1)
  omega

theorem ulp_pos : 0 < ulp p m x := zpow_pos two_pos _

/-- A multiple of the spacing at `y`, less than half of it from `y`. -/
theorem nearest_eq (hx : x = n * ulp p m y) (hd : |x - y| < ulp p m y / 2) :
    nearest p m y = x := by
  have hu : (0 : K) < ulp p m y := ulp_pos
  have hn : |(n : K) - y / ulp p m y| < 1 / 2 := by
    have hdiff : (n : K) - y / ulp p m y = (x - y) / ulp p m y := by
      rw [sub_div, hx, mul_div_cancel_right₀ _ hu.ne']
    rw [hdiff, abs_div, abs_of_pos hu, div_lt_iff₀ hu]
    linarith
  rw [nearest, nearestEven_eq hn, hx]

theorem Fits.nearest_eq (h : Fits p m x) : nearest p m x = x := by
  obtain ⟨n, hn⟩ := h
  exact Rounding.nearest_eq hn (by simpa using ulp_pos)

/-- Few enough digits and a great enough exponent. -/
theorem fits_of_digits (hm : m ≤ k) (hn : |n| < 2 ^ p) : Fits p m ((n : K) * 2 ^ k) := by
  rcases eq_or_ne n 0 with rfl | hz
  · exact ⟨0, by simp⟩
  have hk : (0 : K) < 2 ^ k := zpow_pos two_pos k
  have hpos : 0 < |(n : K) * 2 ^ k| := abs_pos.mpr (mul_ne_zero (by exact_mod_cast hz) hk.ne')
  have hlog : Int.log 2 |(n : K) * 2 ^ k| < p + k := by
    rw [← Int.lt_zpow_iff_log_lt one_lt_two hpos, abs_mul, abs_of_pos hk, Nat.cast_ofNat,
      zpow_add₀ two_ne_zero, zpow_natCast]
    exact mul_lt_mul_of_pos_right (by exact_mod_cast hn) hk
  rw [Fits, ulp]
  obtain ⟨j, hj⟩ := Int.le.dest
    (by omega : max m (Int.log 2 |(n : K) * 2 ^ k| + 1 - p) ≤ k)
  generalize max m (Int.log 2 |(n : K) * 2 ^ k| + 1 - p) = e at hj
  refine ⟨n * 2 ^ j, ?_⟩
  rw [← hj, zpow_add₀ two_ne_zero, zpow_natCast]
  push_cast
  ring

/-- The next number is not past the next power of two. -/
theorem Fits.add_ulp_le (h : Fits p m x) (hx : 0 < x) :
    x + ulp p m x ≤ 2 ^ (Int.log 2 x + 1) := by
  obtain ⟨n, hn⟩ := h
  have hu : (0 : K) < ulp p m x := ulp_pos
  have hlt : x < 2 ^ (Int.log 2 x + 1) := by
    exact_mod_cast Int.lt_zpow_succ_log_self one_lt_two x
  generalize Int.log 2 x + 1 = e at hlt ⊢
  rw [ulp] at hn hu ⊢
  generalize max m (Int.log 2 |x| + 1 - p) = k at hn hu ⊢
  have hn₁ : 1 ≤ n := by
    by_contra hneg
    have hle : (n : K) ≤ 0 := by exact_mod_cast (by omega : n ≤ 0)
    have hxle := mul_nonpos_of_nonpos_of_nonneg hle hu.le
    linarith
  have hle : (2 : K) ^ k ≤ x := by
    rw [hn]
    exact le_mul_of_one_le_left hu.le (by exact_mod_cast hn₁)
  obtain ⟨j, rfl⟩ := Int.le.dest ((zpow_lt_zpow_iff_right₀ one_lt_two).mp (hle.trans_lt hlt)).le
  rw [zpow_add₀ two_ne_zero, zpow_natCast, mul_comm] at hlt ⊢
  rw [hn] at hlt ⊢
  have hnext : n + 1 ≤ 2 ^ j := by
    exact_mod_cast lt_of_mul_lt_mul_right hlt hu.le
  calc (n : K) * 2 ^ k + 2 ^ k = ((n + 1 : ℤ) : K) * 2 ^ k := by push_cast; ring
    _ ≤ 2 ^ j * 2 ^ k := mul_le_mul_of_nonneg_right (by exact_mod_cast hnext) hu.le

/-- A summand of less than half the spacing is lost. -/
theorem Fits.nearest_add (h : Fits p m x) (hx : 0 < x) (hd : 0 ≤ d) (hlt : d < ulp p m x / 2) :
    nearest p m (x + d) = x := by
  have hu : (0 : K) < ulp p m x := ulp_pos
  have hlog : Int.log 2 (x + d) = Int.log 2 x := by
    refine le_antisymm ?_ (Int.log_mono_right hx (by linarith))
    rw [← Int.lt_add_one_iff, ← Int.lt_zpow_iff_log_lt one_lt_two (by linarith), Nat.cast_ofNat]
    linarith [h.add_ulp_le hx]
  have hulp : ulp p m (x + d) = ulp p m x := by
    rw [ulp, ulp, abs_of_pos hx, abs_of_pos (by linarith : 0 < x + d), hlog]
  obtain ⟨n, hn⟩ := h
  refine Rounding.nearest_eq (n := n) (by rw [hulp]; exact hn) ?_
  rw [hulp, sub_add_cancel_left, abs_neg, abs_of_nonneg hd]
  exact hlt

end Rounding
