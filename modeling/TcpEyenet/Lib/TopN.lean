import Mathlib.Data.List.Induction
import Mathlib.Data.List.Sort

/-! The greatest entries of a list, in descending order, kept while the list is read. -/
namespace TopN

variable {α : Type} [LinearOrder α] {l xs : List α} {a b : α}

/-- A full list takes one more entry in, and lets its least one go. -/
def keep (l : List α) (a : α) : List α := (l.orderedInsert (· ≥ ·) a).take l.length

@[simp] theorem keep_length : (keep l a).length = l.length := by
  simp [keep, List.orderedInsert_length]

theorem keep_pairwise (hl : l.Pairwise (· ≥ ·)) : (keep l a).Pairwise (· ≥ ·) :=
  (hl.orderedInsert a).sublist (List.take_sublist ..)

theorem orderedInsert_of_ge (h : ∀ b ∈ l, b ≤ a) : l.orderedInsert (· ≥ ·) a = a :: l := by
  cases l with
  | nil => rfl
  | cons b l => exact List.orderedInsert_cons_of_le _ l (h b List.mem_cons_self)

/-- A new first entry moves the old one on. -/
theorem keep_cons_of_lt (hl : (b :: l).Pairwise (· ≥ ·)) (h : b < a) :
    keep (b :: l) a = a :: keep l b := by
  have hb : l.orderedInsert (· ≥ ·) b = b :: l :=
    orderedInsert_of_ge fun _ => List.rel_of_pairwise_cons hl
  have ha : a ≥ b := h.le
  rw [keep, keep, List.orderedInsert_cons_of_le (· ≥ ·) l ha, hb]
  rfl

theorem keep_cons_of_ge (hl : (b :: l).Pairwise (· ≥ ·)) (h : a ≤ b) :
    keep (b :: l) a = b :: keep l a := by
  rcases h.eq_or_lt with rfl | hlt
  · have ha : l.orderedInsert (· ≥ ·) a = a :: l :=
      orderedInsert_of_ge fun _ => List.rel_of_pairwise_cons hl
    rw [keep, keep, ha, List.orderedInsert_cons_of_le (· ≥ ·) l (le_refl a)]
    rfl
  · have hb : ¬ a ≥ b := not_le.mpr hlt
    rw [keep, List.orderedInsert_of_not_le (· ≥ ·) l hb]
    rfl

theorem take_orderedInsert_take (n : ℕ) (l : List α) :
    ((l.take n).orderedInsert (· ≥ ·) a).take n = (l.orderedInsert (· ≥ ·) a).take n := by
  induction l generalizing n with
  | nil => rw [List.take_nil]
  | cons b l ih =>
    cases n with
    | zero => rfl
    | succ n =>
      by_cases hb : a ≥ b
      · simp only [List.take_succ_cons, List.orderedInsert_cons_of_le (· ≥ ·) _ hb]
        cases n with
        | zero => rfl
        | succ n => simp [List.take_take]
      · simp [hb, ih n]

/-- What is kept in the end is the front of all that was there, sorted. -/
theorem foldl_keep (hl : l.Pairwise (· ≥ ·)) (xs : List α) :
    xs.foldl keep l = ((xs.reverse ++ l).insertionSort (· ≥ ·)).take l.length := by
  induction xs using List.reverseRecOn with
  | nil => simp [hl.insertionSort_eq]
  | append_singleton xs x ih =>
    have hlen : (((xs.reverse ++ l).insertionSort (· ≥ ·)).take l.length).length = l.length := by
      simp
    rw [List.foldl_concat, ih, keep, hlen, take_orderedInsert_take]
    simp

/-- Entries below all others come last. -/
theorem insertionSort_append_replicate (h : ∀ x ∈ xs, a ≤ x) (n : ℕ) :
    (xs ++ List.replicate n a).insertionSort (· ≥ ·) =
      xs.insertionSort (· ≥ ·) ++ List.replicate n a := by
  refine List.Perm.eq_of_pairwise' (List.pairwise_insertionSort _ _) ?_ ?_
  · rw [List.pairwise_append]
    refine ⟨List.pairwise_insertionSort _ _, List.pairwise_replicate.mpr (.inr le_rfl), ?_⟩
    intro x hx b hb
    rw [List.eq_of_mem_replicate hb]
    exact h x ((List.mem_insertionSort _).mp hx)
  · exact (List.perm_insertionSort _ _).trans
      ((List.perm_insertionSort _ xs).symm.append_right _)

end TopN
