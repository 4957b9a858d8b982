import TcpEyenet.Lib.Machine
import TcpEyenet.Lib.TopN
import TcpEyenet.Utils

/-! What get_rank reads off the window, and what it does to the window. -/
namespace TcpEyenet.DataRank

open TopN

variable {d : DataRank} {n : ℕ} {x val tmp : ℚ} {pre post w largest : List ℚ}

/-- The test against the last slot never keeps a swap from happening. -/
theorem shift_append (h : (x :: post).Pairwise (· ≥ ·)) :
    shift (pre.length + (post.length + 1)) (pre ++ x :: post, tmp) pre.length =
      if x < tmp then (pre ++ tmp :: post, x) else (pre ++ x :: post, tmp) := by
  have hlast : (pre ++ x :: post).getD (pre.length + (post.length + 1) - 1) 0 ≤ x := by
    have hidx : pre.length + (post.length + 1) - 1 - pre.length = post.length := by omega
    rw [List.getD_append_right _ _ _ _ (by omega), hidx]
    have hmem : (x :: post).getD post.length 0 ∈ x :: post := by
      rw [List.getD_eq_getElem _ _ (by simp)]
      exact List.getElem_mem _
    rcases List.mem_cons.mp hmem with heq | hin
    · exact heq.le
    · exact List.rel_of_pairwise_cons h hin
  have hfirst : (pre ++ x :: post).getD pre.length 0 = x := by
    rw [List.getD_append_right _ _ _ _ le_rfl, Nat.sub_self]
    rfl
  simp only [shift, hfirst]
  split_ifs with hskip hlt hlt
  · exact absurd (hskip.trans hlast) (not_le.mpr hlt)
  · rfl
  · rw [List.set_append_right _ _ le_rfl, Nat.sub_self]
    rfl
  · rfl

/-- From a slot on, the inner loop keeps the greatest of what stands there and of `tmp`. -/
theorem foldl_shift (h : post.Pairwise (· ≥ ·)) (tmp : ℚ) (pre : List ℚ) :
    ((List.range' pre.length post.length).foldl (shift (pre.length + post.length))
      (pre ++ post, tmp)).1 = pre ++ keep post tmp := by
  induction post generalizing tmp pre with
  | nil => rfl
  | cons x post ih =>
    have hlen : ∀ y : ℚ, (pre ++ [y]).length = pre.length + 1 := fun y => List.length_append
    have hsum : pre.length + (post.length + 1) = pre.length + 1 + post.length := by omega
    rw [List.length_cons, List.range'_succ, List.foldl_cons, shift_append h, hsum]
    split_ifs with hlt
    · have hnext := ih h.of_cons x (pre ++ [tmp])
      rw [hlen, List.append_assoc, List.append_assoc] at hnext
      rw [keep_cons_of_lt h hlt]
      exact hnext
    · have hnext := ih h.of_cons tmp (pre ++ [x])
      rw [hlen, List.append_assoc, List.append_assoc] at hnext
      rw [keep_cons_of_ge h (not_lt.mp hlt)]
      exact hnext

theorem place_eq (h : largest.Pairwise (· ≥ ·)) (val : ℚ) :
    place largest.length largest val = keep largest val := by
  have hfold := foldl_shift h val []
  rw [List.length_nil, Nat.zero_add, List.nil_append, List.nil_append] at hfold
  rw [place, List.range_eq_range', hfold]

theorem foldl_place (h : largest.Pairwise (· ≥ ·)) (vals : List ℚ) :
    vals.foldl (place largest.length) largest = vals.foldl keep largest := by
  induction vals generalizing largest with
  | nil => rfl
  | cons v vals ih =>
    have hnext := ih (keep_pairwise (a := v) h)
    rw [keep_length] at hnext
    rw [List.foldl_cons, List.foldl_cons, place_eq h, hnext]

/-- The outer loop over all the samples of a window, which then stand where they stood. -/
theorem passes_append (vals rest largest : List ℚ) :
    (pass n)^[vals.length] (vals ++ rest, largest) =
      (rest ++ vals, vals.foldl (place n) largest) := by
  induction vals generalizing rest largest with
  | nil => simp
  | cons v vals ih =>
    rw [List.length_cons, Function.iterate_succ_apply]
    have hpass : pass n (v :: vals ++ rest, largest) =
        (vals ++ (rest ++ [v]), place n largest v) := by
      simp [pass]
    rw [hpass, ih]
    simp

/-- What the passes over a whole window leave. -/
theorem passes_all (h : largest.Pairwise (· ≥ ·)) (w : List ℚ) :
    (pass largest.length)^[w.length] (w, largest) = (w, w.foldl keep largest) := by
  have hall := passes_append (n := largest.length) w [] largest
  rwa [List.append_nil, List.nil_append, foldl_place h] at hall

/-- `get_rank` turns the window round by `win_len` places, however many samples it holds. -/
theorem passes_window (k : ℕ) (w largest : List ℚ) :
    ((pass n)^[k] (w, largest)).1 = w.rotate k := by
  induction k generalizing w largest with
  | zero => simp
  | succ k ih =>
    rw [Function.iterate_succ_apply]
    cases w with
    | nil => simpa [pass] using ih [] largest
    | cons v w =>
      rw [List.rotate_cons_succ]
      exact ih (w ++ [v]) (place n largest v)

/-- Where `get_rank` returns, it has only turned the window. -/
theorem getRank_eq {r : ℚ} {d' : DataRank} (h : d.getRank = some (r, d')) :
    d' = { d with window := d.window.rotate winLen } := by
  simp only [getRank] at h
  split_ifs at h with _ hnil
  · obtain ⟨-, rfl⟩ := Prod.mk.inj (Option.some.inj h)
    rw [hnil, List.rotate_nil, ← hnil]
  · obtain ⟨-, rfl⟩ := Prod.mk.inj (Option.some.inj h)
    rw [passes_window]

/-- The rank of a full window of samples is exact, and leaves the window as it was. -/
theorem rank_exact (hfull : d.window.length = winLen) (hpos : ∀ v ∈ d.window, 0 ≤ v)
    (hn : truncate ((1 - d.percentile) * winLen) = n) (hone : 1 ≤ n) (hmax : n ≤ winLen) :
    ∃ r, d.getRank = some (r, d) ∧ (d.window.insertionSort (· ≥ ·))[n - 1]? = some r := by
  have hne : d.window ≠ [] := by
    intro hnil
    simp [hnil, winLen] at hfull
  have hslots : (List.replicate n (-1 : ℚ)).Pairwise (· ≥ ·) :=
    List.pairwise_replicate.mpr (.inr le_rfl)
  have hlow : ∀ v ∈ d.window.reverse, (-1 : ℚ) ≤ v := by
    intro v hv
    have hv := hpos v (List.mem_reverse.mp hv)
    linarith
  have hpasses := passes_all hslots d.window
  rw [List.length_replicate, hfull] at hpasses
  have hsort : d.window.reverse.insertionSort (· ≥ ·) = d.window.insertionSort (· ≥ ·) :=
    List.Perm.eq_of_pairwise' (List.pairwise_insertionSort _ _) (List.pairwise_insertionSort _ _)
      ((List.perm_insertionSort _ _).trans
        (d.window.reverse_perm.trans (List.perm_insertionSort _ _).symm))
  have hlen : n - 1 < (d.window.insertionSort (· ≥ ·)).length := by
    rw [List.length_insertionSort, hfull]
    omega
  have hkept : (d.window.foldl keep (List.replicate n (-1))).getD (n - 1) 0 =
      (d.window.insertionSort (· ≥ ·)).getD (n - 1) 0 := by
    rw [foldl_keep hslots, insertionSort_append_replicate hlow, hsort, List.length_replicate,
      List.getD_eq_getElem?_getD, List.getD_eq_getElem?_getD, List.getElem?_take_of_lt (by omega),
      List.getElem?_append_left hlen]
  refine ⟨(d.window.insertionSort (· ≥ ·)).getD (n - 1) 0, ?_, ?_⟩
  · have hrange : ¬ (winLen + 1 : ℤ) < n := by omega
    have hpart : ¬ (n : ℤ) < 1 := by omega
    simp only [getRank, hn, if_neg hrange, if_neg hne, if_neg hpart, Int.toNat_natCast, hpasses]
    rw [hkept]
  · rw [List.getD_eq_getElem _ _ hlen, List.getElem?_eq_getElem hlen]

/-- One half of the samples is 1, the other half is 2. -/
def halves : DataRank := ⟨1 / 2, List.replicate 50 1 ++ List.replicate 50 2⟩

theorem rank_exact_halves :
    ∃ r, halves.getRank = some (r, halves) ∧
      (halves.window.insertionSort (· ≥ ·))[50 - 1]? = some r :=
  rank_exact (d := halves) (n := 50) (by decide) (by simp [halves]) (by decide +kernel) (by decide)
    (by decide)

inductive Op
  | add (val : ℚ)
  | clear
  | getRank
  deriving DecidableEq

def step (d : DataRank) : Op → Option (Traced ℚ DataRank)
  | .add val => some (pure (d.add val))
  | .clear => some (pure d.clear)
  | .getRank => d.getRank.map fun r => ⟨r.2, [r.1]⟩

def machine : Machine DataRank Op ℚ := ⟨step⟩

abbrev Call := Transition DataRank Op ℚ

variable {trs pre post : List Call} {tr : Call} {p : ℚ}

/-- What a call makes of the samples added since the last clear. -/
def note (vals : List ℚ) : Op → List ℚ
  | .add val => vals ++ [val]
  | .clear => []
  | .getRank => vals

/-- The samples added since the last clear. -/
def samples (trs : List Call) : List ℚ := trs.foldl (fun vals tr => note vals tr.input) []

/-- Before and after every call the window holds the last samples, in the order in which they
came. -/
def InOrder (trs : List Call) : Prop :=
  ∀ pre tr post, trs = pre ++ tr :: post →
    tr.src.window = (samples pre).rtake winLen ∧
      tr.dst.window = (samples (pre ++ [tr])).rtake winLen

/-- Read as a circle, the window repeats itself every `win_len` places. -/
def Circular (w : List ℚ) : Prop := ∀ i < w.length, w[(i + winLen) % w.length]? = w[i]?

theorem circular_iff : Circular w ↔ w.rotate winLen = w := by
  constructor
  · intro h
    refine List.ext_getElem? fun i => ?_
    by_cases hi : i < w.length
    · rw [List.getElem?_rotate hi, h i hi]
    · simp [not_lt.mp hi]
  · intro h i hi
    rw [← List.getElem?_rotate hi, h]

/-- An example is a full window. -/
theorem circular_of_dvd (h : w.length ∣ winLen) : Circular w := by
  obtain ⟨k, hk⟩ := h
  rw [circular_iff, hk, List.rotate_length_mul]

theorem samples_concat : samples (trs ++ [tr]) = note (samples trs) tr.input := by
  simp [samples]

theorem add_window {vals : List ℚ} (h : d.window = vals.rtake winLen) (val : ℚ) :
    (d.add val).window = (vals ++ [val]).rtake winLen := by
  have hadd : (d.add val).window =
      if winLen < d.window.length + 1 then (d.window ++ [val]).tail else d.window ++ [val] := by
    simp [add]
  have hlen : d.window.length = min vals.length winLen := by
    rw [h, List.rtake, List.length_drop]
    omega
  have hnext : (vals ++ [val]).length = vals.length + 1 := List.length_append
  rw [hadd, hlen, h, List.rtake, List.rtake, hnext]
  rcases lt_or_ge vals.length winLen with hlt | hge
  · have hall : vals.length - winLen = 0 := by omega
    have hall' : vals.length + 1 - winLen = 0 := by omega
    rw [if_neg (by omega), hall, hall']
    rfl
  · rw [if_pos (by omega), ← List.drop_one, ← List.drop_append_of_le_length (by omega),
      List.drop_drop]
    congr 1
    omega

/-- A call that does not disturb the window notes its sample, or forgets all. -/
theorem window_step (ht : machine.Takes tr) (h : tr.src.window = (samples pre).rtake winLen) :
    tr.dst.window = (samples (pre ++ [tr])).rtake winLen ↔
      (tr.input = .getRank → Circular tr.src.window) := by
  obtain ⟨src, input, out, dst⟩ := tr
  rw [samples_concat]
  simp only [Machine.Takes, machine, step] at ht
  cases input with
  | add val =>
    obtain ⟨rfl, -⟩ := Traced.mk.inj (Option.some.inj ht)
    simpa [note] using add_window h val
  | clear =>
    obtain ⟨rfl, -⟩ := Traced.mk.inj (Option.some.inj ht)
    simp [note, clear, List.rtake]
  | getRank =>
    obtain ⟨⟨r, d'⟩, hr, hd⟩ := Option.map_eq_some_iff.mp ht
    obtain ⟨rfl, -⟩ := Traced.mk.inj hd
    rw [getRank_eq hr, circular_iff]
    simp only [note, true_imp_iff]
    rw [← h]

theorem window_run (hr : machine.Run (new p) trs d)
    (h : ∀ tr ∈ trs, tr.input = .getRank → Circular tr.src.window) :
    d.window = (samples trs).rtake winLen :=
  hr.history (I := fun trs d => d.window = (samples trs).rtake winLen) h rfl
    fun _ _ ht hcirc hwin => (window_step ht hwin).mpr hcirc

/-- The window stays in order in just the runs that rank only circular windows. -/
theorem in_order_iff (hr : machine.Run (new p) trs d) :
    InOrder trs ↔ ∀ tr ∈ trs, tr.input = .getRank → Circular tr.src.window := by
  constructor
  · intro h tr hm
    obtain ⟨pre, post, he⟩ := List.append_of_mem hm
    obtain ⟨hsrc, hdst⟩ := h pre tr post he
    exact (window_step (hr.split he).2 hsrc).mp hdst
  · rintro h pre tr post rfl
    obtain ⟨hpre, ht⟩ := hr.split rfl
    have hsrc := window_run hpre fun tr' hm => h tr' (List.mem_append_left _ hm)
    exact ⟨hsrc, (window_step ht hsrc).mpr (h tr (by simp))⟩

theorem InOrder.final (h : InOrder trs) (hr : machine.Run (new p) trs d) :
    d.window = (samples trs).rtake winLen := by
  cases hr with
  | refl => rfl
  | @snoc trs tr => exact (h trs tr [] rfl).2

/-- Three samples are added and ranked. -/
def threeSamples : List Op := [.add 1, .add 2, .add 3, .getRank]

theorem threeSamples_accepted : (machine.exec (new (99 / 100)) threeSamples).isSome := by
  decide +kernel

/-- They then stand in another order, and the next eviction would take the wrong one. -/
theorem rank_disturbs :
    ∃ trs d, machine.exec (new (99 / 100)) threeSamples = some (trs, d) ∧
      d.window = [2, 3, 1] ∧ ¬ InOrder trs := by
  have hturned : (Option.get _ threeSamples_accepted).2.window = [2, 3, 1] ∧
      (samples (Option.get _ threeSamples_accepted).1).rtake winLen = [1, 2, 3] := by
    decide +kernel
  refine ⟨_, _, (Option.some_get threeSamples_accepted).symm, hturned.1, fun h => ?_⟩
  have hfinal := h.final (Machine.exec_get_run threeSamples_accepted)
  exact absurd (hturned.1.symm.trans (hfinal.trans hturned.2)) (by decide)

theorem in_order_iff_threeSamples :
    ∃ trs d, machine.exec (new (99 / 100)) threeSamples = some (trs, d) ∧
      (InOrder trs ↔ ∀ tr ∈ trs, tr.input = .getRank → Circular tr.src.window) :=
  ⟨_, _, (Option.some_get threeSamples_accepted).symm,
    in_order_iff (Machine.exec_get_run threeSamples_accepted)⟩

end TcpEyenet.DataRank
