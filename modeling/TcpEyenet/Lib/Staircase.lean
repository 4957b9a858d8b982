import Mathlib

/-! Monotone queues: what remains of a list when entries beaten by later ones are dropped. -/
namespace Staircase

variable {β α : Type} [LinearOrder α] (key : β → α) {l l₁ l₂ : List β} {x y : β}

/-- The entries that no later entry beats. This says what a monotone queue holds. -/
def stairs : List β → List β
  | [] => []
  | x :: l => if ∀ y ∈ l, key x ≤ key y then x :: stairs l else stairs l

/-- Drops beaten entries from the back, then appends. -/
def push (l : List β) (x : β) : List β :=
  l.rdropWhile (fun y => key x < key y) ++ [x]

/-- Pops from the front while more than one entry is left. -/
def expire (p : β → Bool) : List β → List β
  | x :: y :: l => if p x then expire p (y :: l) else x :: y :: l
  | l => l

def Ascending (l : List β) : Prop := l.Pairwise fun x y => key x ≤ key y

theorem stairs_sublist (l : List β) : (stairs key l).Sublist l := by
  induction l with
  | nil => exact .slnil
  | cons x l ih =>
    simp only [stairs]
    split
    · exact ih.cons_cons x
    · exact ih.cons x

theorem stairs_ne_nil (h : l ≠ []) : stairs key l ≠ [] := by
  induction l with
  | nil => exact absurd rfl h
  | cons x l ih =>
    simp only [stairs]
    split
    · simp
    · rename_i hx
      apply ih
      rintro rfl
      exact hx (by simp)

/-- The first entry kept is a least one. -/
theorem stairs_head_le (h : (stairs key l).head? = some x) (hy : y ∈ l) : key x ≤ key y := by
  induction l generalizing y with
  | nil => simp at hy
  | cons z l ih =>
    simp only [stairs] at h
    split at h
    · rename_i hz
      obtain rfl : z = x := by simpa using h
      rcases List.mem_cons.mp hy with rfl | hy
      · exact le_rfl
      · exact hz y hy
    · rename_i hz
      rcases List.mem_cons.mp hy with rfl | hy
      · obtain ⟨w, hw, hlt⟩ : ∃ w ∈ l, key w < key y := by simpa using hz
        exact (ih h hw).trans hlt.le
      · exact ih h hy

theorem rdropWhile_cons_of_neg {p : β → Bool} (h : ¬ p x) (l : List β) :
    (x :: l).rdropWhile p = x :: l.rdropWhile p := by
  induction l using List.reverseRecOn with
  | nil => simp [List.rdropWhile_singleton, h]
  | append_singleton l y ih =>
    rw [← List.cons_append, List.rdropWhile_concat, List.rdropWhile_concat]
    split
    · exact ih
    · rfl

/-- Pushing is how the staircase of a list grows with the list. -/
theorem stairs_concat (l : List β) (x : β) : stairs key (l ++ [x]) = push key (stairs key l) x := by
  induction l with
  | nil => simp [stairs, push]
  | cons y l ih =>
    simp only [List.cons_append, stairs]
    by_cases hl : ∀ z ∈ l, key y ≤ key z
    · by_cases hx : key y ≤ key x
      · have hall : ∀ z ∈ l ++ [x], key y ≤ key z := by
          intro z hz
          rcases List.mem_append.mp hz with hz | hz
          · exact hl z hz
          · simpa [List.mem_singleton.mp hz] using hx
        rw [if_pos hall, if_pos hl, ih]
        simp only [push]
        rw [rdropWhile_cons_of_neg (by simpa using hx)]
        rfl
      · -- the new entry beats `y`, hence everything the staircase of `l` holds
        have hpop : ∀ z ∈ y :: stairs key l, key x < key z := by
          intro z hz
          rcases List.mem_cons.mp hz with rfl | hz
          · exact not_le.mp hx
          · exact (not_le.mp hx).trans_le (hl z ((stairs_sublist key l).mem hz))
        have hcons : (y :: stairs key l).rdropWhile (fun z => key x < key z) = [] :=
          List.rdropWhile_eq_nil_iff.mpr (by simpa using hpop)
        have htail : (stairs key l).rdropWhile (fun z => key x < key z) = [] :=
          List.rdropWhile_eq_nil_iff.mpr (by
            intro z hz
            simpa using hpop z (List.mem_cons_of_mem y hz))
        rw [if_neg (fun hall => hx (hall x (by simp))), if_pos hl, ih]
        simp only [push, hcons, htail]
    · rw [if_neg hl, if_neg, ih]
      intro hall
      exact hl fun z hz => hall z (List.mem_append_left _ hz)

/-- Dropping a prefix closed downwards commutes with taking the staircase. -/
theorem stairs_dropWhile {p : β → Bool} (h : l.Pairwise fun x y => p y → p x) :
    stairs key (l.dropWhile p) = (stairs key l).dropWhile p := by
  induction l with
  | nil => rfl
  | cons x l ih =>
    obtain ⟨hx, hl⟩ := List.pairwise_cons.mp h
    by_cases hp : p x
    · rw [List.dropWhile_cons_of_pos hp, ih hl]
      simp only [stairs]
      split
      · rw [List.dropWhile_cons_of_pos hp]
      · rfl
    · rw [List.dropWhile_cons_of_neg hp]
      have hnone : ∀ y ∈ x :: l, ¬ p y := by
        intro y hy
        rcases List.mem_cons.mp hy with rfl | hy
        · exact hp
        · exact fun hpy => hp (hx y hy hpy)
      generalize hs : stairs key (x :: l) = s
      cases s with
      | nil => rfl
      | cons z s =>
        have hz : z ∈ x :: l := (stairs_sublist key (x :: l)).mem (by simp [hs])
        rw [List.dropWhile_cons_of_neg (hnone z hz)]

theorem expire_suffix_self (p : β → Bool) (l : List β) : expire p l <:+ l := by
  fun_induction expire p l with
  | case1 x y l _ ih => exact ih.trans (List.suffix_cons x _)
  | case2 => exact List.suffix_rfl
  | case3 => exact List.suffix_rfl

theorem expire_ne_nil {p : β → Bool} (h : l ≠ []) : expire p l ≠ [] := by
  fun_induction expire p l with
  | case1 x y l _ ih => exact ih (by simp)
  | case2 => simp
  | case3 => exact h

/-- With a last entry that is kept, expiring is dropping the longest expired prefix. -/
theorem expire_concat {p : β → Bool} (h : ¬ p x) (l : List β) :
    expire p (l ++ [x]) = (l ++ [x]).dropWhile p := by
  induction l with
  | nil => simp [expire, h]
  | cons y l ih =>
    obtain ⟨z, m, hm⟩ : ∃ z m, l ++ [x] = z :: m := List.exists_cons_of_ne_nil (by simp)
    rw [List.cons_append, hm, expire, ← hm, ih, List.dropWhile_cons]

/-- Pushing an entry that is not expired and then expiring is keeping the staircase of
the list that has the expired prefix dropped. -/
theorem expire_push_stairs {p : β → Bool} (h : (l ++ [x]).Pairwise fun x y => p y → p x)
    (hx : ¬ p x) : expire p (push key (stairs key l) x) = stairs key ((l ++ [x]).dropWhile p) := by
  rw [stairs_dropWhile key h, stairs_concat]
  exact expire_concat hx _

theorem filter_eq_dropWhile {p : β → Bool} (h : l.Pairwise fun x y => p y → p x) :
    (l.filter fun x => !p x) = l.dropWhile p := by
  induction l with
  | nil => rfl
  | cons x l ih =>
    obtain ⟨hx, hl⟩ := List.pairwise_cons.mp h
    by_cases hp : p x
    · rw [List.dropWhile_cons_of_pos hp, ← ih hl]
      simp [hp]
    · rw [List.dropWhile_cons_of_neg hp]
      apply List.filter_eq_self.mpr
      intro y hy
      rcases List.mem_cons.mp hy with rfl | hy
      · simpa using hp
      · simpa using fun hpy => hp (hx y hy hpy)

theorem rdropWhile_suffix {p : β → Bool} (h : l₁ <:+ l₂) :
    l₁.rdropWhile p <:+ l₂.rdropWhile p := by
  obtain ⟨m, rfl⟩ := h
  induction l₁ using List.reverseRecOn generalizing m with
  | nil => simp
  | append_singleton l y ih =>
    rw [← List.append_assoc, List.rdropWhile_concat, List.rdropWhile_concat]
    split
    · exact ih m
    · exact ⟨m, by simp⟩

theorem push_suffix (h : l₁ <:+ l₂) : push key l₁ x <:+ push key l₂ x := by
  obtain ⟨m, hm⟩ := rdropWhile_suffix (p := fun y => key x < key y) h
  exact ⟨m, by rw [push, push, ← hm, List.append_assoc]⟩

/-- A queue that expires more stays a suffix of one that expires less. -/
theorem expire_suffix {p q : β → Bool} (hpq : ∀ x, q x → p x) (h : l₁ <:+ l₂) :
    expire p l₁ <:+ expire q l₂ := by
  fun_induction expire q l₂ generalizing l₁ with
  | case1 x y l hq ih =>
    rcases List.suffix_cons_iff.mp h with rfl | h
    · rw [expire, if_pos (hpq x hq)]
      exact ih List.suffix_rfl
    · exact ih h
  | case2 => exact (expire_suffix_self p l₁).trans h
  | case3 => exact (expire_suffix_self p l₁).trans h

theorem push_ascending (h : Ascending key l) : Ascending key (push key l x) := by
  refine List.pairwise_append.mpr ⟨?_, List.pairwise_singleton _ _, ?_⟩
  · exact h.sublist (List.rdropWhile_prefix _ _).sublist
  · intro y hy z hz
    obtain rfl := List.mem_singleton.mp hz
    -- the last entry kept is not beaten, and it is the greatest one kept
    have hne : l.rdropWhile (fun w => decide (key z < key w)) ≠ [] := List.ne_nil_of_mem hy
    have hlast := List.rdropWhile_last_not _ _ hne
    have hlast : key ((l.rdropWhile fun w => decide (key z < key w)).getLast hne) ≤ key z := by
      simpa using hlast
    refine le_trans ?_ hlast
    have hs : Ascending key (l.rdropWhile fun w => decide (key z < key w)) :=
      h.sublist (List.rdropWhile_prefix _ _).sublist
    rw [← List.dropLast_append_getLast hne] at hy hs
    rcases List.mem_append.mp hy with hy | hy
    · exact (List.pairwise_append.mp hs).2.2 y hy _ (by simp)
    · rw [List.mem_singleton.mp hy]

end Staircase
