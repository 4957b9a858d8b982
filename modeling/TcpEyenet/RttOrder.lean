import TcpEyenet.Window

/-! The order among the RTT estimates. No timestamp is assumed to follow another. -/
namespace TcpEyenet.RttWin

open Staircase Win

inductive Op
  | clear
  | add (v ts : ℚ)

def apply (r : RttWin) : Op → RttWin
  | .clear => r.clear
  | .add v ts => r.add v ts

def Op.Nonneg : Op → Prop
  | .clear => True
  | .add v _ => 0 ≤ v

/-- The three minimum windows hold suffixes of one another and agree on where they read. -/
structure Inv (r : RttWin) : Prop where
  isMin : r.minRtt.isMin = true ∧ r.eyenetMin.isMin = true ∧ r.virginRtt.isMin = true
  isMax : r.eyenetMax.isMin = false
  srtt : 0 ≤ r.srtt
  sorted : r.minRtt.Sorted ∧ r.eyenetMin.Sorted ∧ r.virginRtt.Sorted ∧ r.eyenetMax.Sorted
  inner : r.virginRtt.val <:+ r.eyenetMin.val
  outer : r.eyenetMin.val <:+ r.minRtt.val
  reports : ∃ b, r.minRtt.Reports b ∧ r.eyenetMin.Reports b ∧ r.virginRtt.Reports b
  bound : r.eyenetMax.Bound
  samples : ∀ p ∈ r.minRtt.val, 0 ≤ p.2

variable {r : RttWin} {v ts : ℚ}

theorem inv_of_empty {r : RttWin}
    (isMin : r.minRtt.isMin = true ∧ r.eyenetMin.isMin = true ∧ r.virginRtt.isMin = true)
    (isMax : r.eyenetMax.isMin = false) (hsrtt : r.srtt = 0)
    (h₁ : r.minRtt = r.minRtt.clear) (h₂ : r.eyenetMin = r.eyenetMin.clear)
    (h₃ : r.virginRtt = r.virginRtt.clear) (h₄ : r.eyenetMax = r.eyenetMax.clear) : Inv r := by
  have hv : ∀ w : Win, w = w.clear → w.val = [] := by
    intro w hw
    rw [hw]
    rfl
  have hr : ∀ w : Win, w = w.clear → w.Reports false := by
    intro w hw
    rw [hw]
    exact ⟨rfl, by simp [Win.clear]⟩
  refine ⟨isMin, isMax, hsrtt.ge, ?_, ?_, ?_, ⟨false, hr _ h₁, hr _ h₂, hr _ h₃⟩, ?_, ?_⟩
  all_goals simp [Sorted, Ascending, Bound, hv _ h₁, hv _ h₂, hv _ h₃, hv _ h₄]

theorem inv_new : Inv new :=
  inv_of_empty ⟨rfl, rfl, rfl⟩ rfl rfl rfl rfl rfl rfl

theorem inv_clear (h : Inv r) : Inv r.clear :=
  inv_of_empty h.isMin h.isMax rfl rfl rfl rfl rfl

theorem smooth_nonneg (h : 0 ≤ r.srtt) (hv : 0 ≤ v) : 0 ≤ r.smooth v := by
  unfold smooth a
  split <;> positivity

/-- A window no wider than another keeps its deque a suffix when both take a sample. -/
theorem add_suffix {w₁ w₂ : Win} {s₁ s₂ : ℚ} (hm : w₁.isMin = w₂.isMin) (hs : s₁ ≤ s₂)
    (h : w₁.val <:+ w₂.val) :
    ((w₁.updateSz s₁).add v ts).val <:+ ((w₂.updateSz s₂).add v ts).val := by
  rw [add_val, add_val]
  simp only [updateSz, hm]
  refine expire_suffix ?_ (push_suffix _ h)
  intro p hp
  have hp : p.1 < ts - s₂ := of_decide_eq_true hp
  exact decide_eq_true (by linarith)

theorem add_reports_min {w : Win} {b : Bool} (s : ℚ) (hm : w.isMin = true) (hs : w.Sorted)
    (h : w.Reports b) : ((w.updateSz s).add v ts).Reports (b || v ≤ doubleMax) := by
  have hsz : (w.updateSz s).Reports b := h
  have hadd : ((w.updateSz s).add v ts).Reports _ := Win.add_reports hs hsz
  simpa [updateSz, hm, rank, sentinel] using hadd

theorem add_samples {w : Win} {s : ℚ} (hv : 0 ≤ v) (h : ∀ p ∈ w.val, 0 ≤ p.2) :
    ∀ p ∈ ((w.updateSz s).add v ts).val, 0 ≤ p.2 := by
  intro p hp
  rw [add_val] at hp
  rcases List.mem_append.mp ((expire_suffix_self _ _).mem hp) with hp | hp
  · exact h p ((List.rdropWhile_prefix _ _).mem hp)
  · rw [List.mem_singleton.mp hp]
    exact hv

theorem inv_add (h : Inv r) (hv : 0 ≤ v) : Inv (r.add v ts) := by
  obtain ⟨hm₁, hm₂, hm₃⟩ := h.isMin
  obtain ⟨hs₁, hs₂, hs₃, hs₄⟩ := h.sorted
  obtain ⟨b, hr₁, hr₂, hr₃⟩ := h.reports
  have hsrtt := smooth_nonneg (v := v) h.srtt hv
  refine ⟨h.isMin, h.isMax, hsrtt, ⟨add_sorted hs₁, add_sorted hs₂, add_sorted hs₃,
    add_sorted hs₄⟩, ?_, ?_, ⟨b || v ≤ doubleMax, ?_, ?_, ?_⟩, add_bound hs₄ h.bound,
    add_samples hv h.samples⟩
  · refine add_suffix (hm₃.trans hm₂.symm) ?_ h.inner
    exact min_le_min le_rfl (by linarith)
  · exact add_suffix (hm₂.trans hm₁.symm) (min_le_left _ _) h.outer
  · exact add_reports_min _ hm₁ hs₁ hr₁
  · exact add_reports_min _ hm₂ hs₂ hr₂
  · exact add_reports_min _ hm₃ hs₃ hr₃

theorem inv_apply {op : Op} (h : Inv r) (hop : op.Nonneg) : Inv (r.apply op) := by
  cases op with
  | clear => exact inv_clear h
  | add v ts => exact inv_add h hop

theorem inv_ops {ops : List Op} (h : Inv r) (hops : ∀ op ∈ ops, op.Nonneg) :
    Inv (ops.foldl apply r) := by
  induction ops generalizing r with
  | nil => exact h
  | cons op ops ih =>
    exact ih (inv_apply h (hops op (by simp))) fun x hx => hops x (by simp [hx])

theorem min_le_eyenetMin (h : Inv r) : r.minRtt.tail ≤ r.eyenetMin.tail := by
  obtain ⟨b, hr₁, hr₂, -⟩ := h.reports
  have hle := tail_le_of_suffix (h.isMin.2.1.trans h.isMin.1.symm) h.sorted.1 h.outer hr₂ hr₁
  simpa [rank, h.isMin.1] using hle

theorem eyenetMin_le_virgin (h : Inv r) : r.eyenetMin.tail ≤ r.virginRtt.tail := by
  obtain ⟨b, -, hr₂, hr₃⟩ := h.reports
  have hle :=
    tail_le_of_suffix (h.isMin.2.2.trans h.isMin.2.1.symm) h.sorted.2.1 h.inner hr₃ hr₂
  simpa [rank, h.isMin.2.1] using hle

theorem min_le_virgin (h : Inv r) : r.minRtt.tail ≤ r.virginRtt.tail :=
  (min_le_eyenetMin h).trans (eyenetMin_le_virgin h)

theorem mem_add {w : Win} {s : ℚ} : (ts, v) ∈ ((w.updateSz s).add v ts).val :=
  List.mem_of_getLast? add_getLast

@[simp] theorem add_currRtt : (r.add v ts).currRtt = v := rfl

theorem virgin_le_curr (h : Inv r) (hv : 0 ≤ v) :
    (r.add v ts).virginRtt.tail ≤ (r.add v ts).currRtt := by
  have hadd : Inv (r.add v ts) := inv_add h hv
  obtain ⟨b, -, -, hr⟩ := hadd.reports
  have hle := hr.bound hadd.sorted.2.2.1 (ts, v) mem_add
  simpa [rank, key, hadd.isMin.2.2, add_currRtt] using hle

theorem curr_le_eyenetMax (h : Inv r) (hv : 0 ≤ v) :
    (r.add v ts).currRtt ≤ (r.add v ts).eyenetMax.tail := by
  have hadd : Inv (r.add v ts) := inv_add h hv
  have hle := hadd.bound (ts, v) mem_add
  simpa [rank, key, hadd.isMax, add_currRtt] using hle

theorem virgin_nonneg (h : Inv r) : 0 ≤ r.virginRtt.tail := by
  obtain ⟨b, -, -, hr⟩ := h.reports
  cases b with
  | false =>
    rw [hr.1, h.isMin.2.2]
    exact doubleMax_pos.le
  | true =>
    obtain ⟨x, hx, hxt⟩ := Option.map_eq_some_iff.mp hr
    rw [← hxt]
    exact h.samples x ((h.inner.trans h.outer).mem (List.mem_of_head? hx))

def Ordered (r : RttWin) : Prop :=
  r.minRtt.tail ≤ r.eyenetMin.tail ∧ r.eyenetMin.tail ≤ r.virginRtt.tail ∧
    r.virginRtt.tail ≤ r.currRtt ∧ r.currRtt ≤ r.eyenetMax.tail

theorem add_ordered (h : Inv r) (hv : 0 ≤ v) : (r.add v ts).Ordered :=
  ⟨min_le_eyenetMin (inv_add h hv), eyenetMin_le_virgin (inv_add h hv), virgin_le_curr h hv,
    curr_le_eyenetMax h hv⟩

end TcpEyenet.RttWin
