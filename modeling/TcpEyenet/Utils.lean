import Mathlib

/-! The estimators of vns_utils. A `double_t` is the exact rational it stands for. -/
namespace TcpEyenet

/-- `numeric_limits<double_t>::max()`. -/
def doubleMax : ℚ := (2 ^ 53 - 1) * 2 ^ 971

/-- `numeric_limits<double_t>::min()`: the least positive normal number, not the most negative. -/
def doubleMin : ℚ := 1 / 2 ^ 1022

theorem doubleMax_large : 2 ^ 53 - 1 ≤ doubleMax :=
  le_mul_of_one_le_right (by norm_num) (one_le_pow₀ (by norm_num))

theorem doubleMax_pos : 0 < doubleMax := lt_of_lt_of_le (by norm_num) doubleMax_large

/-- The conversion of a `double_t` to an integer type: the fraction is dropped. -/
def truncate (x : ℚ) : ℤ := x.num.tdiv x.den

theorem truncate_of_nonneg {x : ℚ} (h : 0 ≤ x) : truncate x = ⌊x⌋ := by
  rw [Rat.floor_def', truncate, Int.tdiv_eq_ediv_of_nonneg (Rat.num_nonneg.mpr h)]

theorem truncate_of_nonpos {x : ℚ} (h : x ≤ 0) : truncate x = ⌈x⌉ := by
  have hneg : truncate (-x) = -truncate x := by simp [truncate, Int.neg_tdiv]
  rw [← neg_inj, ← hneg, truncate_of_nonneg (neg_nonneg.mpr h), Int.floor_neg]

theorem truncate_mono {x y : ℚ} (h : x ≤ y) : truncate x ≤ truncate y := by
  rcases le_total 0 x with hx | hx
  · rw [truncate_of_nonneg hx, truncate_of_nonneg (hx.trans h)]
    exact Int.floor_mono h
  · rcases le_total 0 y with hy | hy
    · have hx' : truncate x ≤ 0 := by
        rw [truncate_of_nonpos hx]
        exact Int.ceil_le.mpr (by simpa using hx)
      exact hx'.trans (by rw [truncate_of_nonneg hy]; exact Int.floor_nonneg.mpr hy)
    · rw [truncate_of_nonpos hx, truncate_of_nonpos hy]
      exact Int.ceil_mono h

@[simp] theorem truncate_intCast (n : ℤ) : truncate n = n := by simp [truncate]

/-- Only what lies at -1 or below truncates to a negative integer. -/
theorem truncate_nonneg {x : ℚ} : 0 ≤ truncate x ↔ -1 < x := by
  rcases le_total 0 x with hx | hx
  · rw [truncate_of_nonneg hx, Int.floor_nonneg]
    exact ⟨fun _ => by linarith, fun _ => hx⟩
  · rw [truncate_of_nonpos hx, ← Int.sub_one_lt_iff, Int.lt_ceil]
    simp

structure Ewma where
  e : ℚ
  a : ℚ
  isValid : Bool

namespace Ewma

def new (a : ℚ) : Ewma := { e := 0, a := a, isValid := false }

def set (w : Ewma) (val : ℚ) : Ewma := { w with isValid := true, e := val }

def update (w : Ewma) (val : ℚ) : Ewma :=
  { w with isValid := true, e := w.a * val + (1 - w.a) * w.e }

def clear (w : Ewma) : Ewma := { w with e := 0 }

end Ewma

/-- A deque of (timestamp, sample) pairs with a cached extreme sample, `tail`. -/
structure Win where
  sz : ℚ
  val : List (ℚ × ℚ)
  tail : ℚ
  isMin : Bool

namespace Win

def sentinel (isMin : Bool) : ℚ := if isMin then doubleMax else doubleMin

def new (isMin : Bool) : Win :=
  { sz := 10000, val := [], tail := sentinel isMin, isMin := isMin }

def clear (w : Win) : Win := { w with sz := 10000, val := [], tail := sentinel w.isMin }

def updateSz (w : Win) (s : ℚ) : Win := { w with sz := s }

def beats (isMin : Bool) (v x : ℚ) : Bool := (isMin && x > v) || (!isMin && x < v)

def reaches (isMin : Bool) (v x : ℚ) : Bool := (isMin && v ≤ x) || (!isMin && v ≥ x)

/-- The loop of `update_win`: the entries left, and whether `tail` has to be read again. -/
def evict (isMin : Bool) (tail oldest : ℚ) : List (ℚ × ℚ) → Bool → List (ℚ × ℚ) × Bool
  | x :: y :: l, again =>
    if x.1 < oldest then evict isMin tail oldest (y :: l) (again || reaches isMin x.2 tail)
    else (x :: y :: l, again)
  | l, again => (l, again)

def updateWin (w : Win) (now : ℚ) : Win :=
  let r := evict w.isMin w.tail (now - w.sz) w.val false
  { w with
    val := r.1
    tail := if r.2 then (r.1.head?.map Prod.snd).getD w.tail else w.tail }

/-- The back entries with a worse sample go; `tail` follows a better one. -/
def add (w : Win) (v ts : ℚ) : Win :=
  let kept := w.val.rdropWhile fun p => beats w.isMin v p.2
  { w with
    val := kept ++ [(ts, v)]
    tail := if beats w.isMin v w.tail then v else w.tail }.updateWin ts

end Win

structure RttWin where
  srtt : ℚ
  eyenetMin : Win
  eyenetMax : Win
  currRtt : ℚ
  minRtt : Win
  virginRtt : Win

namespace RttWin

/-- The smoothing weight, a constant member of the class. -/
def a : ℚ := 1 / 16

def new : RttWin :=
  { srtt := 0
    eyenetMin := Win.new true
    eyenetMax := Win.new false
    currRtt := 0
    minRtt := Win.new true
    virginRtt := Win.new true }

/-- `curr_rtt` is not among what is cleared. -/
def clear (r : RttWin) : RttWin :=
  { r with
    srtt := 0
    minRtt := r.minRtt.clear
    virginRtt := r.virginRtt.clear
    eyenetMin := r.eyenetMin.clear
    eyenetMax := r.eyenetMax.clear }

def smooth (r : RttWin) (v : ℚ) : ℚ :=
  let srtt := if r.srtt = 0 then v else r.srtt
  a * v + (1 - a) * srtt

/-- The width is set from the minimum reported before the new sample is added. -/
def add (r : RttWin) (v ts : ℚ) : RttWin :=
  let srtt := r.smooth v
  let sz := max 10000 (20 * r.minRtt.tail)
  { srtt := srtt
    currRtt := v
    minRtt := (r.minRtt.updateSz sz).add v ts
    virginRtt := (r.virginRtt.updateSz (min sz (1 / 2 * srtt))).add v ts
    eyenetMin := (r.eyenetMin.updateSz (min sz (4 * srtt))).add v ts
    eyenetMax := (r.eyenetMax.updateSz (min sz (4 * srtt))).add v ts }

def modeEyenet (r : RttWin) : Bool :=
  r.eyenetMin.tail < r.minRtt.tail + 1 / 10 * (r.eyenetMax.tail - r.minRtt.tail)

end RttWin

structure DataRank where
  percentile : ℚ
  window : List ℚ

namespace DataRank

def winLen : ℕ := 100

def new (val : ℚ) : DataRank := { percentile := val, window := [] }

def add (d : DataRank) (val : ℚ) : DataRank :=
  let window := d.window ++ [val]
  { d with window := if winLen < window.length then window.tail else window }

def clear (d : DataRank) : DataRank := { d with window := [] }

/-- The inner loop of `get_rank` at slot `j` of `largest`; the pair holds `largest` and `tmp`. -/
def shift (n : ℕ) (r : List ℚ × ℚ) (j : ℕ) : List ℚ × ℚ :=
  if r.2 ≤ r.1.getD (n - 1) 0 then r
  else if r.1.getD j 0 < r.2 then (r.1.set j r.2, r.1.getD j 0)
  else r

def place (n : ℕ) (largest : List ℚ) (val : ℚ) : List ℚ :=
  ((List.range n).foldl (shift n) (largest, val)).1

/-- A pass of the outer loop, which puts the sample it has taken from the front back at the end. -/
def pass (n : ℕ) : List ℚ × List ℚ → List ℚ × List ℚ
  | (val :: window, largest) => (window ++ [val], place n largest val)
  | r => r

/-- It is `none` where it would leave `largest`, an array of `win_len + 1` slots. -/
def getRank (d : DataRank) : Option (ℚ × DataRank) :=
  let n := truncate ((1 - d.percentile) * winLen)
  if winLen + 1 < n then none
  else if d.window = [] then some (0, d)
  else if n < 1 then none
  else
    let r := (pass n.toNat)^[winLen] (d.window, List.replicate n.toNat (-1))
    some (r.2.getD (n.toNat - 1) 0, { d with window := r.1 })

end DataRank

structure LossReduce where
  nloss : ℤ
  npkts : ℤ
  lastWinTs : ℚ

namespace LossReduce

def new : LossReduce := { nloss := 0, npkts := 0, lastWinTs := 0 }

/-- `nloss / npkts` divides two integers before it becomes a `double_t`. -/
def update (l : LossReduce) (loss : Bool) (currTs rtt : ℚ) : Bool × LossReduce :=
  let nloss := if loss then l.nloss + 1 else l.nloss
  let npkts := l.npkts + 1
  if l.lastWinTs + 2 * rtt < currTs ∧ 20 < npkts then
    (3 / 10 < ((nloss.tdiv npkts : ℤ) : ℚ), { nloss := 0, npkts := 0, lastWinTs := currTs })
  else (false, { l with nloss := nloss, npkts := npkts })

def clear (_ : LossReduce) : LossReduce := new

end LossReduce

end TcpEyenet
