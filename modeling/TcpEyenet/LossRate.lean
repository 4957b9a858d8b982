import TcpEyenet.Utils

/-! The trigger of the loss cut against the loss rate it stands for. -/
namespace TcpEyenet.LossReduce

/-- The arguments of `update`. -/
structure Update where
  loss : Bool
  currTs : ℚ
  rtt : ℚ

def apply (l : LossReduce) (u : Update) : LossReduce := (l.update u.loss u.currTs u.rtt).2

def updates (l : LossReduce) (us : List Update) : LossReduce := us.foldl apply l

/-- When the last window closed, and the calls made since. -/
structure Window where
  closed : ℚ
  calls : List Update

namespace Window

/-- The call closes the window: it is late enough and there are more than 20 with it. -/
def Due (w : Window) (u : Update) : Prop :=
  w.closed + 2 * u.rtt < u.currTs ∧ 20 < (w.calls ++ [u]).length

instance (w : Window) (u : Update) : Decidable (w.Due u) :=
  inferInstanceAs (Decidable (_ ∧ _))

def next (w : Window) (u : Update) : Window :=
  if w.Due u then ⟨u.currTs, []⟩ else { w with calls := w.calls ++ [u] }

def after (us : List Update) : Window := us.foldl next ⟨0, []⟩

def losses (calls : List Update) : ℕ := calls.countP Update.loss

/-- The fraction of the calls of the window, the one at hand included, that report a loss. -/
def lossRate (w : Window) (u : Update) : ℚ :=
  losses (w.calls ++ [u]) / (w.calls ++ [u]).length

/-- What the trigger should fire on. -/
def Excess (w : Window) (u : Update) : Prop := w.Due u ∧ 3 / 10 < w.lossRate u

instance (w : Window) (u : Update) : Decidable (w.Excess u) :=
  inferInstanceAs (Decidable (_ ∧ _))

/-- What the integer division drops. -/
def Dropped (w : Window) (u : Update) : Prop :=
  w.Due u ∧ 3 / 10 < w.lossRate u ∧ w.lossRate u < 1

end Window

/-- The counters are those of the window. -/
structure Counts (l : LossReduce) (w : Window) : Prop where
  nloss : l.nloss = Window.losses w.calls
  npkts : l.npkts = w.calls.length
  lastWinTs : l.lastWinTs = w.closed

variable {l : LossReduce} {w : Window} {u : Update} {us : List Update}

theorem Counts.nloss_next (h : Counts l w) :
    (if u.loss then l.nloss + 1 else l.nloss) = Window.losses (w.calls ++ [u]) := by
  rw [Window.losses, List.countP_append, List.countP_singleton, h.nloss, Window.losses]
  split_ifs <;> simp

theorem Counts.npkts_next (h : Counts l w) : l.npkts + 1 = (w.calls ++ [u]).length := by
  simp [h.npkts]

/-- What a call answers and leaves, in terms of the window. -/
theorem Counts.update_eq (h : Counts l w) :
    l.update u.loss u.currTs u.rtt =
      if w.Due u then
        (decide ((3 / 10 : ℚ) < ((Window.losses (w.calls ++ [u]) : ℤ).tdiv
          ((w.calls ++ [u]).length : ℕ) : ℤ)), ⟨0, 0, u.currTs⟩)
      else (false, ⟨Window.losses (w.calls ++ [u]), ((w.calls ++ [u]).length : ℕ), w.closed⟩) := by
  have hdue : l.lastWinTs + 2 * u.rtt < u.currTs ∧ 20 < l.npkts + 1 ↔ w.Due u := by
    rw [h.npkts_next (u := u), h.lastWinTs, Window.Due]
    simp
  simp only [update, hdue]
  rw [h.nloss_next, h.npkts_next (u := u), h.lastWinTs]

theorem Counts.apply (h : Counts l w) : Counts (l.apply u) (w.next u) := by
  rw [LossReduce.apply, h.update_eq, Window.next]
  split_ifs
  · exact ⟨rfl, rfl, rfl⟩
  · exact ⟨rfl, rfl, rfl⟩

theorem Counts.updates {w₀ : Window} (h : Counts l w₀) :
    Counts (l.updates us) (us.foldl Window.next w₀) := by
  induction us generalizing l w₀ with
  | nil => exact h
  | cons u us ih => exact ih h.apply

/-- A ratio of integers that is at most 1 is cut to 0 unless it is 1. -/
theorem tdiv_pos_iff {a b : ℕ} (hb : 0 < b) (hle : a ≤ b) :
    3 / 10 < (((a : ℤ).tdiv b : ℤ) : ℚ) ↔ a = b := by
  rcases hle.eq_or_lt with rfl | hlt
  · have hself : (a : ℤ).tdiv a = 1 := Int.tdiv_self (by omega)
    rw [hself]
    norm_num
  · have hzero : (a : ℤ).tdiv b = 0 := Int.tdiv_eq_zero_of_lt (by omega) (by omega)
    rw [hzero]
    constructor
    · intro h
      norm_num at h
    · intro h
      omega

/-- The code fires on a window of losses only. -/
theorem Counts.fires_iff (h : Counts l w) :
    (l.update u.loss u.currTs u.rtt).1 = true ↔ w.Due u ∧ w.lossRate u = 1 := by
  have hlen : 0 < (w.calls ++ [u]).length := by simp
  have hle : Window.losses (w.calls ++ [u]) ≤ (w.calls ++ [u]).length := List.countP_le_length
  rw [h.update_eq, Window.lossRate, div_eq_one_iff_eq (by exact_mod_cast hlen.ne'), Nat.cast_inj,
    ← tdiv_pos_iff hlen hle]
  split_ifs with hdue
  · simp only [decide_eq_true_iff, hdue, true_and]
  · simp [hdue]

theorem lossRate_le_one : w.lossRate u ≤ 1 := by
  have hlen : (0 : ℚ) < (w.calls ++ [u]).length := by exact_mod_cast (by simp : 0 < _)
  rw [Window.lossRate, div_le_one hlen]
  exact_mod_cast List.countP_le_length

/-- The code and the trigger it should be differ where the loss rate is cut to 0. -/
theorem Counts.exact_iff (h : Counts l w) :
    ((l.update u.loss u.currTs u.rtt).1 = true ↔ w.Excess u) ↔ ¬ w.Dropped u := by
  have hle : w.lossRate u ≤ 1 := lossRate_le_one
  rw [h.fires_iff, Window.Excess, Window.Dropped]
  constructor
  · rintro hiff ⟨hdue, hover, hlt⟩
    exact hlt.ne (hiff.mpr ⟨hdue, hover⟩).2
  · intro hnot
    constructor
    · rintro ⟨hdue, hone⟩
      exact ⟨hdue, by norm_num [hone]⟩
    · rintro ⟨hdue, hover⟩
      refine ⟨hdue, hle.eq_or_lt.resolve_right ?_⟩
      intro hlt
      exact hnot ⟨hdue, hover, hlt⟩

/-- As the constructor or `clear` leaves it. -/
def Cleared (l : LossReduce) : Prop := l = new ∨ ∃ l' : LossReduce, l = l'.clear

theorem Cleared.counts (h : Cleared l) : Counts l ⟨0, []⟩ := by
  obtain rfl | ⟨l', rfl⟩ := h
  · exact ⟨rfl, rfl, rfl⟩
  · exact ⟨rfl, rfl, rfl⟩

/-- A call answers as the loss rate asks just where the rate is not between 3/10 and 1. -/
theorem trigger_exact_iff (hl : Cleared l) (us : List Update) (u : Update) :
    (((l.updates us).update u.loss u.currTs u.rtt).1 = true ↔ (Window.after us).Excess u) ↔
      ¬ (Window.after us).Dropped u :=
  hl.counts.updates.exact_iff

/-- Twenty losses in one round trip. -/
def twentyLosses : List Update := List.replicate 20 ⟨true, 0, 1⟩

def firstArrival : Update := ⟨false, 3, 1⟩

/-- Twenty calls of 21 report a loss, and nothing fires. -/
theorem trigger_silent :
    Cleared new ∧ (Window.after twentyLosses).Excess firstArrival ∧
      ((new.updates twentyLosses).update firstArrival.loss firstArrival.currTs
        firstArrival.rtt).1 = false :=
  ⟨.inl rfl, by decide +kernel, by decide +kernel⟩

theorem trigger_exact_iff_twentyLosses :
    (((new.updates twentyLosses).update firstArrival.loss firstArrival.currTs
        firstArrival.rtt).1 = true ↔ (Window.after twentyLosses).Excess firstArrival) ↔
      ¬ (Window.after twentyLosses).Dropped firstArrival :=
  trigger_exact_iff (.inl rfl) twentyLosses firstArrival

end TcpEyenet.LossReduce
