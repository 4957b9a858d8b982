import Mathlib

/-! Jain's index of how fairly a list of shares is dealt out. -/
namespace Fairness

variable {K : Type} [Field K] [LinearOrder K] [IsStrictOrderedRing K] {xs ys : List K} {c m : K}

def index (xs : List K) : K := xs.sum ^ 2 / (xs.length * (xs.map (· ^ 2)).sum)

omit [LinearOrder K] [IsStrictOrderedRing K] in
theorem index_perm (h : xs.Perm ys) : index xs = index ys := by
  rw [index, index, h.sum_eq, h.length_eq, (h.map _).sum_eq]

omit [LinearOrder K] [IsStrictOrderedRing K] in
/-- The unit of the shares does not matter. -/
theorem index_map_mul (hc : c ≠ 0) (xs : List K) : index (xs.map (· * c)) = index xs := by
  have hsq : ((xs.map (· * c)).map (· ^ 2)).sum = (xs.map (· ^ 2)).sum * c ^ 2 := by
    rw [List.map_map, ← List.sum_map_mul_right]
    exact congrArg List.sum (List.map_congr_left fun x _ => mul_pow x c 2)
  rw [index, index, hsq, List.sum_map_mul_right, List.map_id', List.length_map, mul_pow,
    ← mul_assoc]
  exact mul_div_mul_right _ _ (pow_ne_zero 2 hc)

omit [LinearOrder K] [IsStrictOrderedRing K] in
/-- What the squares add up to around `m`. -/
theorem sum_sq_sub (xs : List K) (m : K) :
    (xs.map fun x => (x - m) ^ 2).sum =
      (xs.map (· ^ 2)).sum - 2 * m * xs.sum + xs.length * m ^ 2 := by
  induction xs with
  | nil => simp
  | cons x xs ih =>
    simp only [List.map_cons, List.sum_cons, List.length_cons, ih]
    push_cast
    ring

theorem sum_sq_pos (hne : xs ≠ []) (h : ∀ x ∈ xs, 0 < x) : 0 < (xs.map (· ^ 2)).sum := by
  refine List.sum_pos _ (fun y hy => ?_) (by simpa using hne)
  obtain ⟨x, hx, rfl⟩ := List.mem_map.mp hy
  exact pow_pos (h x hx) 2

theorem sum_sq_le_sq_sum (h : ∀ x ∈ xs, 0 ≤ x) : (xs.map (· ^ 2)).sum ≤ xs.sum ^ 2 := by
  induction xs with
  | nil => simp
  | cons x xs ih =>
    obtain ⟨hx, hxs⟩ := List.forall_mem_cons.mp h
    have hsum := mul_nonneg hx (List.sum_nonneg hxs)
    have htail := ih hxs
    simp only [List.map_cons, List.sum_cons]
    calc x ^ 2 + (xs.map (· ^ 2)).sum ≤ x ^ 2 + xs.sum ^ 2 := by gcongr
      _ ≤ x ^ 2 + xs.sum ^ 2 + 2 * (x * xs.sum) := by linarith
      _ = (x + xs.sum) ^ 2 := by ring

section Bounds

variable (hne : xs ≠ []) (h : ∀ x ∈ xs, 0 < x)

include hne h

theorem length_mul_pos : 0 < (xs.length : K) * (xs.map (· ^ 2)).sum := by
  have hlen : (0 : K) < xs.length := by exact_mod_cast List.length_pos_iff.mpr hne
  exact mul_pos hlen (sum_sq_pos hne h)

/-- What is missing to 1 is the variance of the shares. -/
theorem one_sub_index :
    1 - index xs =
      (xs.map fun x => (x - xs.sum / xs.length) ^ 2).sum / (xs.map (· ^ 2)).sum := by
  have hlen : (xs.length : K) ≠ 0 := by exact_mod_cast List.length_eq_zero_iff.not.mpr hne
  have hsq : (xs.map (· ^ 2)).sum ≠ 0 := (sum_sq_pos hne h).ne'
  rw [sum_sq_sub, index]
  field_simp
  ring

theorem index_le_one : index xs ≤ 1 := by
  have hsq := sum_sq_pos hne h
  have hvar : 0 ≤ (xs.map fun x => (x - xs.sum / xs.length) ^ 2).sum :=
    List.sum_nonneg (by simp [sq_nonneg])
  have hrest := div_nonneg hvar hsq.le
  rw [← one_sub_index hne h] at hrest
  linarith

theorem inv_length_le_index : (xs.length : K)⁻¹ ≤ index xs := by
  have hlen : (0 : K) < xs.length := by exact_mod_cast List.length_pos_iff.mpr hne
  have hle := sum_sq_le_sq_sum fun x hx => (h x hx).le
  rw [index, inv_eq_one_div, div_le_div_iff₀ hlen (length_mul_pos hne h), one_mul, mul_comm]
  exact mul_le_mul_of_nonneg_right hle hlen.le

/-- All is fair just where the shares are equal. -/
theorem index_eq_one_iff : index xs = 1 ↔ ∀ x ∈ xs, ∀ y ∈ xs, x = y := by
  have hsq := sum_sq_pos hne h
  have hlen : (xs.length : K) ≠ 0 := by exact_mod_cast List.length_eq_zero_iff.not.mpr hne
  have hrest := one_sub_index hne h
  constructor
  · intro hone
    have hvar : (xs.map fun x => (x - xs.sum / xs.length) ^ 2).sum = 0 := by
      rw [hone, sub_self, eq_comm, div_eq_zero_iff] at hrest
      exact hrest.resolve_right hsq.ne'
    have hmean : ∀ x ∈ xs, x = xs.sum / xs.length := by
      intro x hx
      have hzero := List.all_zero_of_le_zero_le_of_sum_eq_zero (by simp [sq_nonneg]) hvar
        (List.mem_map.mpr ⟨x, hx, rfl⟩)
      exact sub_eq_zero.mp (pow_eq_zero_iff (two_ne_zero) |>.mp hzero)
    intro x hx y hy
    rw [hmean x hx, hmean y hy]
  · intro hall
    obtain ⟨a, ha⟩ := List.exists_mem_of_ne_nil xs hne
    have hrep : xs = List.replicate xs.length a :=
      List.eq_replicate_of_mem fun x hx => hall x hx a ha
    have ha0 : a ≠ 0 := (h a ha).ne'
    rw [index, hrep]
    simp only [List.sum_replicate, List.map_replicate, List.length_replicate, nsmul_eq_mul]
    field_simp

end Bounds

end Fairness
