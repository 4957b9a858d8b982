import TcpEyenet.Window

/-! The windowed extreme against its specification, for widths that change at every step. -/
namespace TcpEyenet.Win

open Staircase

/-- One use of a window: `update_sz(s)` and then `add(v, ts)`. -/
structure Use where
  s : ℚ
  v : ℚ
  ts : ℚ

def use (w : Win) (u : Use) : Win := (w.updateSz u.s).add u.v u.ts

def uses (w : Win) (us : List Use) : Win := us.foldl use w

def Use.sample (u : Use) : ℚ × ℚ := (u.ts, u.v)

/-- The samples no width has left behind, oldest first: what the window is for. -/
def live (us : List Use) : List (ℚ × ℚ) :=
  (us.map Use.sample).filter fun p => ∀ k ∈ us, k.ts - k.s ≤ p.1

variable {w : Win} {us : List Use} {u : Use} {x : ℚ × ℚ} {isMin : Bool}

@[simp] theorem use_isMin : (w.use u).isMin = w.isMin := rfl

theorem uses_concat : w.uses (us ++ [u]) = (w.uses us).use u := by
  simp [uses]

@[simp] theorem uses_isMin : (w.uses us).isMin = w.isMin := by
  induction us using List.reverseRecOn with
  | nil => rfl
  | append_singleton us u ih => rw [uses_concat, use_isMin, ih]

theorem mem_live : x ∈ live us ↔
    (∃ u ∈ us, u.sample = x) ∧ ∀ k ∈ us, k.ts - k.s ≤ x.1 := by
  simp [live]

theorem live_sorted (h : us.Pairwise fun a b => a.ts ≤ b.ts) :
    (live us).Pairwise fun x y => x.1 ≤ y.1 := by
  apply List.Pairwise.filter _
  exact List.pairwise_map.mpr h

theorem live_append_sorted (h : (us ++ [u]).Pairwise fun a b => a.ts ≤ b.ts) :
    (live us ++ [u.sample]).Pairwise fun x y => x.1 ≤ y.1 := by
  obtain ⟨hus, -, hlast⟩ := List.pairwise_append.mp h
  refine List.pairwise_append.mpr ⟨live_sorted hus, List.pairwise_singleton _ _, ?_⟩
  intro x hx y hy
  obtain ⟨⟨k, hk, rfl⟩, -⟩ := mem_live.mp hx
  rw [List.mem_singleton.mp hy]
  exact hlast k hk u (by simp)

/-- A new use expires a prefix of the live samples and never its own. -/
theorem live_concat (h : (us ++ [u]).Pairwise fun a b => a.ts ≤ b.ts)
    (hs : ∀ k ∈ us ++ [u], 0 ≤ k.s) :
    live (us ++ [u]) = (live us ++ [u.sample]).dropWhile fun p => p.1 < u.ts - u.s := by
  have hle : ∀ k ∈ us, k.ts ≤ u.ts :=
    fun k hk => (List.pairwise_append.mp h).2.2 k hk u (by simp)
  rw [← filter_eq_dropWhile ((live_append_sorted h).imp ?_), List.filter_append]
  · have hnew : ∀ k ∈ us ++ [u], k.ts - k.s ≤ u.ts := by
      intro k hk
      have hk0 := hs k hk
      rcases List.mem_append.mp hk with hk | hk
      · linarith [hle k hk]
      · rw [List.mem_singleton.mp hk] at hk0 ⊢
        linarith
    have hown : ¬ u.ts < u.ts - u.s := by linarith [hs u (by simp)]
    have hcut : ∀ p : ℚ × ℚ, (∀ k ∈ us ++ [u], k.ts - k.s ≤ p.1) ↔
        ¬ p.1 < u.ts - u.s ∧ ∀ k ∈ us, k.ts - k.s ≤ p.1 := by
      intro p
      rw [List.forall_mem_append, List.forall_mem_singleton, not_lt, and_comm]
    simp only [live, List.map_append, List.map_cons, List.map_nil, List.filter_append,
      List.filter_filter]
    congr 1
    · apply List.filter_congr
      intro p _
      rw [Bool.eq_iff_iff, decide_eq_true_iff, hcut]
      simp
    · refine (List.filter_eq_self.mpr ?_).trans (List.filter_eq_self.mpr ?_).symm
      · intro p hp
        rw [List.mem_singleton.mp hp]
        exact decide_eq_true hnew
      · intro p hp
        rw [List.mem_singleton.mp hp]
        exact (Bool.not_eq_true' _).mpr (decide_eq_false hown)
  · intro x y hxy hy
    simp only [decide_eq_true_eq] at hy ⊢
    linarith

/-- The deque holds the staircase of the live samples. -/
theorem uses_val (hw : w.val = []) (h : us.Pairwise fun a b => a.ts ≤ b.ts)
    (hs : ∀ k ∈ us, 0 ≤ k.s) : (w.uses us).val = stairs (key w.isMin) (live us) := by
  induction us using List.reverseRecOn with
  | nil => simpa [uses, live, stairs] using hw
  | append_singleton us u ih =>
    have hus := (List.pairwise_append.mp h).1
    have hval := ih hus fun k hk => hs k (by simp [hk])
    have hown : ¬ u.ts < u.ts - u.s := by linarith [hs u (by simp)]
    have hcl : (live us ++ [u.sample]).Pairwise fun x y : ℚ × ℚ =>
        decide (y.1 < u.ts - u.s) → decide (x.1 < u.ts - u.s) := by
      apply (live_append_sorted h).imp
      intro x y hxy hy
      exact decide_eq_true (hxy.trans_lt (of_decide_eq_true hy))
    rw [uses_concat, use, add_val, live_concat h hs]
    simp only [updateSz, uses_isMin, hval]
    exact expire_push_stairs _ hcl (by simpa using hown)

theorem live_ne_nil (hne : us ≠ []) (h : us.Pairwise fun a b => a.ts ≤ b.ts)
    (hs : ∀ k ∈ us, 0 ≤ k.s) : live us ≠ [] := by
  obtain ⟨us, u, rfl⟩ := List.eq_nil_or_concat us |>.resolve_left hne
  rw [List.concat_eq_append] at h hs ⊢
  have hm : u.sample ∈ live (us ++ [u]) := by
    refine mem_live.mpr ⟨⟨u, by simp, rfl⟩, ?_⟩
    intro k hk
    have hk0 := hs k hk
    have hle : k.ts ≤ u.ts := by
      rcases List.mem_append.mp hk with hk | hk
      · exact (List.pairwise_append.mp h).2.2 k hk u (by simp)
      · rw [List.mem_singleton.mp hk]
    simp only [Use.sample]
    linarith
  exact List.ne_nil_of_mem hm

/-- Windows as they are constructed and as `clear` leaves them. -/
def Fresh (isMin : Bool) (w : Win) : Prop :=
  w = new isMin ∨ ∃ u : Win, u.isMin = isMin ∧ w = u.clear

theorem Fresh.isMin_eq {isMin : Bool} (h : Fresh isMin w) : w.isMin = isMin := by
  rcases h with rfl | ⟨u, hu, rfl⟩
  · rfl
  · exact hu

theorem Fresh.val_eq {isMin : Bool} (h : Fresh isMin w) : w.val = [] := by
  rcases h with rfl | ⟨u, -, rfl⟩ <;> rfl

theorem Fresh.stale {isMin : Bool} (h : Fresh isMin w) : w.Stale := by
  refine ⟨?_, by simp [h.val_eq]⟩
  rcases h with rfl | ⟨u, -, rfl⟩ <;> rfl

theorem uses_sorted (hw : w.Sorted) : (w.uses us).Sorted := by
  induction us using List.reverseRecOn with
  | nil => exact hw
  | append_singleton us u ih =>
    rw [uses_concat]
    exact add_sorted ih

/-- A sample the sentinel does not beat makes the deque the source of the report for good. -/
theorem uses_reports (hw : w.Stale) (hs : w.Sorted) :
    (w.uses us).Reports
      (us.any fun u => rank w.isMin u.v ≤ rank w.isMin (sentinel w.isMin)) := by
  induction us using List.reverseRecOn with
  | nil => exact hw
  | append_singleton us u ih =>
    have hsz : ((w.uses us).updateSz u.s).Reports _ := ih
    have hadd : ((w.uses us).use u).Reports _ := add_reports (uses_sorted hs) hsz
    rw [uses_concat, List.any_append]
    simpa only [updateSz, uses_isMin, List.any_cons, List.any_nil, Bool.or_false] using hadd

theorem Fresh.sorted (h : Fresh isMin w) : w.Sorted := by
  simp [Sorted, Ascending, h.val_eq]

/-- The sample at the front of the deque is live, and none that is live is better. -/
theorem cached_best (hw : Fresh isMin w) (hne : us ≠ []) (hs : ∀ u ∈ us, 0 ≤ u.s)
    (hts : us.Pairwise fun a b => a.ts ≤ b.ts) (hc : (w.uses us).Cached) :
    (∃ u ∈ us, u.v = (w.uses us).tail ∧ ∀ k ∈ us, k.ts - k.s ≤ u.ts) ∧
      ∀ u ∈ us, (∀ k ∈ us, k.ts - k.s ≤ u.ts) →
        rank isMin (w.uses us).tail ≤ rank isMin u.v := by
  have hval := uses_val hw.val_eq hts hs
  rw [hw.isMin_eq] at hval
  obtain ⟨x, hx⟩ : ∃ x, (stairs (key isMin) (live us)).head? = some x := by
    apply Option.isSome_iff_exists.mp
    simpa using stairs_ne_nil (key isMin) (live_ne_nil hne hts hs)
  have htail : (w.uses us).tail = x.2 := by simpa [Cached, hval, hx] using hc.symm
  rw [htail]
  constructor
  · have hmem : x ∈ live us := (stairs_sublist _ _).mem (List.mem_of_head? hx)
    obtain ⟨⟨u, hu, rfl⟩, hlive⟩ := mem_live.mp hmem
    exact ⟨u, hu, rfl, hlive⟩
  · intro u hu hlive
    have hin : (u.ts, u.v) ∈ live us := mem_live.mpr ⟨⟨u, hu, rfl⟩, hlive⟩
    have hle : key isMin x ≤ key isMin (u.ts, u.v) := stairs_head_le (key isMin) hx hin
    exact hle

/-- After every use the window reports the least sample that is still live. -/
theorem min_exact (hw : Fresh true w) (hne : us ≠ []) (hs : ∀ u ∈ us, 0 ≤ u.s)
    (hts : us.Pairwise fun a b => a.ts ≤ b.ts) (hv : ∀ u ∈ us, u.v ≤ doubleMax) :
    IsLeast {x | ∃ u ∈ us, u.v = x ∧ ∀ k ∈ us, k.ts - k.s ≤ u.ts} (w.uses us).tail := by
  have hany : us.any (fun u => rank w.isMin u.v ≤ rank w.isMin (sentinel w.isMin)) = true := by
    obtain ⟨u, hu⟩ := List.exists_mem_of_ne_nil us hne
    refine List.any_eq_true.mpr ⟨u, hu, decide_eq_true ?_⟩
    simpa [hw.isMin_eq, rank, sentinel] using hv u hu
  have hc : (w.uses us).Reports _ := uses_reports hw.stale hw.sorted
  rw [hany] at hc
  obtain ⟨hlive, hbest⟩ := cached_best hw hne hs hts hc
  refine ⟨hlive, ?_⟩
  rintro y ⟨u, hu, rfl, hlive⟩
  simpa [rank] using hbest u hu hlive

/-- The width shrinks, then grows; the sample it dropped in between does not come back. -/
theorem min_exact_shrink_grow :
    IsLeast {x | ∃ u ∈ [(⟨9, 3, 0⟩ : Use), ⟨1, 5, 4⟩, ⟨9, 7, 6⟩],
        u.v = x ∧ ∀ k ∈ [(⟨9, 3, 0⟩ : Use), ⟨1, 5, 4⟩, ⟨9, 7, 6⟩], k.ts - k.s ≤ u.ts}
      ((new true).uses [⟨9, 3, 0⟩, ⟨1, 5, 4⟩, ⟨9, 7, 6⟩]).tail :=
  min_exact (Or.inl rfl) (by simp) (by simp) (by simp; norm_num) (by
    have hmax := doubleMax_large
    norm_num at hmax
    simp only [List.forall_mem_cons]
    refine ⟨?_, ?_, ?_, by simp⟩ <;> linarith)

/-- Where every sample is below `DOUBLE_MIN`, it is reported, and is none of them. -/
theorem not_greatest (hw : Fresh false w) (h : ∀ u ∈ us, u.v < doubleMin) :
    ¬ IsGreatest {x | ∃ u ∈ us, u.v = x ∧ ∀ k ∈ us, k.ts - k.s ≤ u.ts} (w.uses us).tail := by
  have hr : (w.uses us).Reports _ := uses_reports hw.stale hw.sorted
  have hany : us.any (fun u => rank w.isMin u.v ≤ rank w.isMin (sentinel w.isMin)) = false := by
    simpa [List.any_eq_false, hw.isMin_eq, rank, sentinel] using h
  rw [hany] at hr
  have htail : (w.uses us).tail = doubleMin := by
    rw [hr.1, uses_isMin, hw.isMin_eq]
    rfl
  rintro ⟨⟨u, hu, huv, -⟩, -⟩
  exact (h u hu).ne (huv.trans htail)

/-- The window reports the greatest sample that is still live just if `DOUBLE_MIN`, which is
positive, has not outranked every sample so far. -/
theorem max_exact_iff (hw : Fresh false w) (hne : us ≠ []) (hs : ∀ u ∈ us, 0 ≤ u.s)
    (hts : us.Pairwise fun a b => a.ts ≤ b.ts) :
    IsGreatest {x | ∃ u ∈ us, u.v = x ∧ ∀ k ∈ us, k.ts - k.s ≤ u.ts} (w.uses us).tail ↔
      ∃ u ∈ us, doubleMin ≤ u.v := by
  by_cases hmin : ∃ u ∈ us, doubleMin ≤ u.v
  · have hr : (w.uses us).Reports _ := uses_reports hw.stale hw.sorted
    have hany : us.any (fun u => rank w.isMin u.v ≤ rank w.isMin (sentinel w.isMin)) = true := by
      simpa [List.any_eq_true, hw.isMin_eq, rank, sentinel] using hmin
    rw [hany] at hr
    obtain ⟨hlive, hbest⟩ := cached_best hw hne hs hts hr
    refine iff_of_true ⟨hlive, ?_⟩ hmin
    rintro y ⟨u, hu, rfl, hlive⟩
    simpa [rank] using hbest u hu hlive
  · refine iff_of_false (not_greatest hw fun u hu => ?_) hmin
    exact not_le.mp fun hle => hmin ⟨u, hu, hle⟩

/-- Where 0 is the only sample, `DOUBLE_MIN` is reported. -/
theorem max_outranked :
    Fresh false (new false) ∧
      ¬ IsGreatest {x | ∃ u ∈ [(⟨9, 0, 0⟩ : Use)], u.v = x ∧
          ∀ k ∈ [(⟨9, 0, 0⟩ : Use)], k.ts - k.s ≤ u.ts}
        ((new false).uses [⟨9, 0, 0⟩]).tail := by
  refine ⟨.inl rfl, not_greatest (.inl rfl) ?_⟩
  rw [List.forall_mem_singleton]
  exact one_div_pos.mpr (pow_pos two_pos 1022)

theorem max_exact_iff_zeroAfter :
    IsGreatest {x | ∃ u ∈ [(⟨9, 3, 0⟩ : Use), ⟨1, 0, 4⟩],
        u.v = x ∧ ∀ k ∈ [(⟨9, 3, 0⟩ : Use), ⟨1, 0, 4⟩], k.ts - k.s ≤ u.ts}
      ((new false).uses [⟨9, 3, 0⟩, ⟨1, 0, 4⟩]).tail ↔
        ∃ u ∈ [(⟨9, 3, 0⟩ : Use), ⟨1, 0, 4⟩], doubleMin ≤ u.v :=
  max_exact_iff (Or.inl rfl) (by simp) (by simp) (by simp)

end TcpEyenet.Win
