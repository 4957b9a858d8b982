import Mathlib.Algebra.Order.Field.Basic
import Mathlib.Tactic.Linarith

/-! Rounds of spending, paced by a mark that every payment moves on and that trails the clock. -/

/-- The clock of a round, all that was spent in it, and the price at its end. -/
structure Round (K : Type) where
  clock : K
  spent : K
  price : K
  deriving DecidableEq

namespace Round

variable {K : Type} [Field K] [LinearOrder K] [IsStrictOrderedRing K] {depth mark mark' : K}
  {y : Round K} {rs : List (Round K)}

def total (rs : List (Round K)) : K := (rs.map Round.spent).sum

/-- With the newest round first: what was spent between two rounds is at most the time between
them and what fits into the bucket at the price of the older one. -/
def TokenBucket (depth : K) (rs : List (Round K)) : Prop :=
  ∀ after y mid x before, rs = after ++ y :: (mid ++ x :: before) →
    total (y :: mid) ≤ y.clock - x.clock + depth * x.price

/-- The same for what was spent since each round, with the mark for the clock. -/
def Covered (depth mark : K) (rs : List (Round K)) : Prop :=
  ∀ newer x older, rs = newer ++ x :: older →
    total newer ≤ mark - x.clock + depth * x.price

omit [IsStrictOrderedRing K] in
theorem Covered.nil : Covered depth mark [] := by
  intro newer x older he
  simp at he

theorem Covered.mono (h : Covered depth mark rs) (hle : mark ≤ mark') : Covered depth mark' rs := by
  intro newer x older he
  have hx := h newer x older he
  linarith

/-- A round ends, and the mark is not further behind its clock than the bucket is deep. -/
theorem Covered.close (h : Covered depth (mark - y.spent) rs) (hle : mark ≤ mark')
    (hdepth : y.clock - depth * y.price ≤ mark') : Covered depth mark' (y :: rs) := by
  intro newer x older he
  cases newer with
  | nil =>
    obtain ⟨rfl, rfl⟩ := List.cons.inj he
    simp only [total, List.map_nil, List.sum_nil]
    linarith
  | cons z newer =>
    obtain ⟨rfl, htail⟩ := List.cons.inj he
    have hx := h newer x older htail
    simp only [total, List.map_cons, List.sum_cons] at hx ⊢
    linarith

omit [IsStrictOrderedRing K] in
theorem TokenBucket.nil : TokenBucket depth ([] : List (Round K)) := by
  intro after y mid x before he
  simp at he

omit [IsStrictOrderedRing K] in
theorem TokenBucket.of_cons (h : TokenBucket depth (y :: rs)) : TokenBucket depth rs := by
  intro after z mid x before he
  exact h (y :: after) z mid x before (by rw [he, List.cons_append])

/-- The mark does not pass the clock. -/
theorem TokenBucket.cons (h : TokenBucket depth rs) (hc : Covered depth (mark - y.spent) rs)
    (hle : mark ≤ y.clock) : TokenBucket depth (y :: rs) := by
  intro after z mid x before he
  cases after with
  | nil =>
    obtain ⟨rfl, htail⟩ := List.cons.inj he
    have hx := hc mid x before htail
    simp only [total, List.map_cons, List.sum_cons] at hx ⊢
    linarith
  | cons w after =>
    exact h after z mid x before (List.cons.inj he).2

end Round
