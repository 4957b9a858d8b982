import TcpEyenet.Utils
import TcpEyenet.Lib.Staircase

/-! What a `Win` reports: the deque is a staircase of the live samples, `tail` its first step. -/
namespace TcpEyenet.Win

open Staircase

/-- Samples compare by this, whichever extreme is kept: the better sample ranks lower. -/
def rank (isMin : Bool) (v : ℚ) : ℚ := if isMin then v else -v

def key (isMin : Bool) (p : ℚ × ℚ) : ℚ := rank isMin p.2

/-- `tail` is the sample at the front of the deque. -/
def Cached (w : Win) : Prop := w.val.head?.map Prod.snd = some w.tail

/-- `tail` is still the sentinel, which beats every sample taken. -/
def Stale (w : Win) : Prop :=
  w.tail = sentinel w.isMin ∧ ∀ p ∈ w.val, rank w.isMin (sentinel w.isMin) < key w.isMin p

def Sorted (w : Win) : Prop := Ascending (key w.isMin) w.val

variable {w : Win} {isMin again : Bool} {v ts now oldest tail : ℚ} {x y : ℚ × ℚ}
  {l : List (ℚ × ℚ)}

theorem beats_iff {v x : ℚ} : beats isMin v x ↔ rank isMin v < rank isMin x := by
  cases isMin <;> simp [beats, rank]

theorem reaches_iff {v x : ℚ} : reaches isMin v x ↔ rank isMin v ≤ rank isMin x := by
  cases isMin <;> simp [reaches, rank]

theorem evict_cons_of_old (h : x.1 < oldest) : evict isMin tail oldest (x :: y :: l) again =
    evict isMin tail oldest (y :: l) (again || reaches isMin x.2 tail) := by
  rw [evict, if_pos h]

theorem evict_cons_of_live (h : ¬ x.1 < oldest) :
    evict isMin tail oldest (x :: y :: l) again = (x :: y :: l, again) := by
  rw [evict, if_neg h]

theorem evict_fst : (evict isMin tail oldest l again).1 = expire (fun p => p.1 < oldest) l := by
  induction l generalizing again with
  | nil => rfl
  | cons x l ih =>
    cases l with
    | nil => rfl
    | cons y l =>
      rw [expire]
      by_cases hx : x.1 < oldest
      · rw [evict_cons_of_old hx, ih, if_pos (by simpa using hx)]
      · rw [evict_cons_of_live hx, if_neg (by simpa using hx)]

theorem evict_true : (evict isMin tail oldest l true).2 = true := by
  induction l with
  | nil => rfl
  | cons x l ih =>
    cases l with
    | nil => rfl
    | cons y l =>
      by_cases hx : x.1 < oldest
      · rw [evict_cons_of_old hx, Bool.true_or, ih]
      · rw [evict_cons_of_live hx]

theorem evict_false (h : ∀ p ∈ l, rank isMin tail < key isMin p) :
    (evict isMin tail oldest l false).2 = false := by
  induction l with
  | nil => rfl
  | cons x l ih =>
    cases l with
    | nil => rfl
    | cons y l =>
      by_cases hx : x.1 < oldest
      · have hreach : reaches isMin x.2 tail = false := by
          rw [← Bool.not_eq_true, reaches_iff]
          exact not_le.mpr (h x (by simp))
        rw [evict_cons_of_old hx, hreach]
        exact ih fun p hp => h p (List.mem_cons_of_mem x hp)
      · rw [evict_cons_of_live hx]

theorem updateWin_val : (w.updateWin now).val = expire (fun p => p.1 < now - w.sz) w.val :=
  evict_fst

theorem updateWin_cached (h : w.Cached) : (w.updateWin now).Cached := by
  unfold Cached at h ⊢
  cases hv : w.val with
  | nil => simp [hv] at h
  | cons x l =>
    have hx : x.2 = w.tail := by simpa [hv] using h
    cases l with
    | nil => simp [updateWin, hv, evict, hx]
    | cons y l =>
      by_cases hold : x.1 < now - w.sz
      · -- the entry `tail` was read from is evicted, so it is read again
        have hagain : reaches w.isMin x.2 w.tail = true := reaches_iff.mpr (by rw [hx])
        have hne : expire (fun p => decide (p.1 < now - w.sz)) (y :: l) ≠ [] :=
          expire_ne_nil (by simp)
        obtain ⟨z, m, hz⟩ := List.exists_cons_of_ne_nil hne
        simp only [updateWin, hv, evict_cons_of_old hold, hagain, Bool.false_or, evict_true,
          if_true, evict_fst, hz]
        rfl
      · simp [updateWin, hv, evict_cons_of_live hold, hx]

theorem updateWin_stale (h : w.Stale) : (w.updateWin now).Stale := by
  obtain ⟨ht, hp⟩ := h
  refine ⟨?_, ?_⟩
  · have hfalse : (evict w.isMin (sentinel w.isMin) (now - w.sz) w.val false).2 = false :=
      evict_false hp
    simp [updateWin, ht, hfalse]
  · intro p hmem
    rw [updateWin_val] at hmem
    exact hp p ((expire_suffix_self _ _).mem hmem)

/-- The deque and the cached sample before the expired entries go. -/
def insert (w : Win) (v ts : ℚ) : Win :=
  { w with
    val := push (key w.isMin) w.val (ts, v)
    tail := if beats w.isMin v w.tail then v else w.tail }

theorem add_eq : w.add v ts = (w.insert v ts).updateWin ts := by
  have hp : (fun p : ℚ × ℚ => beats w.isMin v p.2) =
      fun p => decide (key w.isMin (ts, v) < key w.isMin p) := by
    funext p
    rw [Bool.eq_iff_iff, beats_iff, decide_eq_true_iff]
    rfl
  rw [add, insert, push, hp]

theorem add_val : (w.add v ts).val =
    expire (fun p => p.1 < ts - w.sz) (push (key w.isMin) w.val (ts, v)) := by
  rw [add_eq, updateWin_val]
  rfl

theorem add_sorted (h : w.Sorted) : (w.add v ts).Sorted := by
  unfold Sorted
  rw [add_val]
  exact (push_ascending _ h).sublist (expire_suffix_self _ _).sublist

theorem add_ne_nil : (w.add v ts).val ≠ [] := by
  rw [add_val]
  exact expire_ne_nil (by simp [push])

/-- The sample just added stays at the back. -/
theorem add_getLast : (w.add v ts).val.getLast? = some (ts, v) := by
  obtain ⟨m, hm⟩ := expire_suffix_self (fun p => decide (p.1 < ts - w.sz))
    (push (key w.isMin) w.val (ts, v))
  rw [← add_val] at hm
  have hlast := congrArg List.getLast? hm
  rw [List.getLast?_append] at hlast
  cases hg : (w.add v ts).val.getLast? with
  | none => exact absurd (List.getLast?_eq_none_iff.mp hg) add_ne_nil
  | some p => simpa [hg, push] using hlast

/-- Either every entry goes, or the front stays and the new sample does not beat it. -/
theorem push_front (hs : Ascending (key isMin) (x :: l)) :
    (push (key isMin) (x :: l) y = [y] ∧ key isMin y < key isMin x) ∨
    ((push (key isMin) (x :: l) y).head? = some x ∧ key isMin x ≤ key isMin y) := by
  by_cases hx : key isMin y < key isMin x
  · left
    refine ⟨?_, hx⟩
    have hall : ∀ p ∈ x :: l, key isMin y < key isMin p := by
      intro p hp
      rcases List.mem_cons.mp hp with rfl | hp
      · exact hx
      · exact hx.trans_le (List.rel_of_pairwise_cons hs hp)
    rw [push, List.rdropWhile_eq_nil_iff.mpr (by simpa using hall), List.nil_append]
  · right
    rw [push, rdropWhile_cons_of_neg (by simpa using hx)]
    exact ⟨rfl, not_lt.mp hx⟩

/-- Once `tail` is read from the deque it stays so, whatever is added. -/
theorem add_cached (hs : w.Sorted) (h : w.Cached) : (w.add v ts).Cached := by
  rw [add_eq]
  apply updateWin_cached
  unfold Cached at h ⊢
  unfold Sorted at hs
  cases hv : w.val with
  | nil => simp [hv] at h
  | cons x l =>
    have hx : x.2 = w.tail := by simpa [hv] using h
    rw [hv] at hs
    rcases push_front (y := (ts, v)) hs with ⟨hp, hlt⟩ | ⟨hp, hle⟩
    · have hb : beats w.isMin v w.tail = true := beats_iff.mpr (by simpa [key, hx] using hlt)
      simp [insert, hv, hp, hb]
    · have hb : ¬ beats w.isMin v w.tail := by
        rw [beats_iff, not_lt]
        simpa [key, hx] using hle
      simp [insert, hv, hp, hb, hx]

/-- A sample the sentinel does not beat clears the deque of stale entries. -/
theorem add_cached_of_stale (h : w.Stale)
    (hle : rank w.isMin v ≤ rank w.isMin (sentinel w.isMin)) : (w.add v ts).Cached := by
  obtain ⟨ht, hp⟩ := h
  have hpop : w.val.rdropWhile (fun p => decide (key w.isMin (ts, v) < key w.isMin p)) = [] := by
    apply List.rdropWhile_eq_nil_iff.mpr
    intro p hmem
    exact decide_eq_true (hle.trans_lt (hp p hmem))
  have hval : (w.insert v ts).val = [(ts, v)] := by simp only [insert, push, hpop, List.nil_append]
  rw [add_eq]
  apply updateWin_cached
  rw [Cached, hval]
  by_cases hb : beats w.isMin v w.tail
  · simp [insert, hb]
  · rw [beats_iff, ht, not_lt] at hb
    have hvt : v = sentinel w.isMin := by
      have heq := hle.antisymm hb
      cases hm : w.isMin <;> simpa [rank, hm] using heq
    simp [insert, ht, hvt]

theorem add_stale (h : w.Stale) (hlt : rank w.isMin (sentinel w.isMin) < rank w.isMin v) :
    (w.add v ts).Stale := by
  obtain ⟨ht, hp⟩ := h
  rw [add_eq]
  refine updateWin_stale ⟨?_, ?_⟩
  · have hb : ¬ beats w.isMin v (sentinel w.isMin) := by
      rw [beats_iff, not_lt]
      exact hlt.le
    simp [insert, ht, hb]
  · intro p hmem
    rcases List.mem_append.mp hmem with hmem | hmem
    · exact hp p ((List.rdropWhile_prefix _ _).mem hmem)
    · rw [List.mem_singleton.mp hmem]
      exact hlt

/-- `tail` is at least as good as every entry, whether or not it is one of them. -/
def Bound (w : Win) : Prop := ∀ p ∈ w.val, rank w.isMin w.tail ≤ key w.isMin p

theorem updateWin_bound (hs : w.Sorted) (h : w.Bound) : (w.updateWin now).Bound := by
  intro p hp
  rw [updateWin_val] at hp
  cases hagain : (evict w.isMin w.tail (now - w.sz) w.val false).2 with
  | false =>
    simpa [updateWin, hagain] using h p ((expire_suffix_self _ _).mem hp)
  | true =>
    have hasc := hs.sublist (expire_suffix_self (fun p => p.1 < now - w.sz) w.val).sublist
    obtain ⟨z, m, hz⟩ := List.exists_cons_of_ne_nil (List.ne_nil_of_mem hp)
    rw [hz] at hp hasc
    simp only [updateWin, hagain, evict_fst, hz]
    rcases List.mem_cons.mp hp with rfl | hp
    · exact le_rfl
    · exact List.rel_of_pairwise_cons hasc hp

theorem add_bound (hs : w.Sorted) (h : w.Bound) : (w.add v ts).Bound := by
  rw [add_eq]
  refine updateWin_bound (push_ascending _ hs) ?_
  have htail : rank w.isMin (w.insert v ts).tail ≤ rank w.isMin v ∧
      rank w.isMin (w.insert v ts).tail ≤ rank w.isMin w.tail := by
    by_cases hb : beats w.isMin v w.tail
    · simpa [insert, hb] using (beats_iff.mp hb).le
    · simpa [insert, hb] using not_lt.mp (beats_iff.not.mp hb)
  intro p hp
  rcases List.mem_append.mp hp with hp | hp
  · exact htail.2.trans (h p ((List.rdropWhile_prefix _ _).mem hp))
  · rw [List.mem_singleton.mp hp]
    exact htail.1

/-- Where `tail` comes from: the deque, or the sentinel while it beats every sample. -/
def Reports (b : Bool) (w : Win) : Prop := if b then w.Cached else w.Stale

theorem add_reports {b : Bool} (hs : w.Sorted) (h : w.Reports b) :
    (w.add v ts).Reports (b || rank w.isMin v ≤ rank w.isMin (sentinel w.isMin)) := by
  cases b with
  | true => exact add_cached hs h
  | false =>
    by_cases hle : rank w.isMin v ≤ rank w.isMin (sentinel w.isMin)
    · simpa [Reports, hle] using add_cached_of_stale h hle
    · have hstale : (w.add v ts).Stale := add_stale h (not_le.mp hle)
      simpa [Reports, hle] using hstale

/-- Of two deques, one a suffix of the other, the longer one has the better `tail`. -/
theorem tail_le_of_suffix {b : Bool} {w₁ w₂ : Win} (hm : w₁.isMin = w₂.isMin) (hs : w₂.Sorted)
    (hsuf : w₁.val <:+ w₂.val) (h₁ : w₁.Reports b) (h₂ : w₂.Reports b) :
    rank w₂.isMin w₂.tail ≤ rank w₂.isMin w₁.tail := by
  cases b with
  | false =>
    rw [h₁.1, h₂.1, hm]
  | true =>
    obtain ⟨x, hx, htx⟩ := Option.map_eq_some_iff.mp h₁
    obtain ⟨y, hy, hty⟩ := Option.map_eq_some_iff.mp h₂
    obtain ⟨l, hl⟩ : ∃ l, w₂.val = y :: l := by
      cases hv : w₂.val <;> simp_all
    rw [← htx, ← hty]
    unfold Sorted at hs
    rw [hl] at hs hsuf
    rcases List.mem_cons.mp (hsuf.mem (List.mem_of_head? hx)) with rfl | hmem
    · exact le_rfl
    · exact List.rel_of_pairwise_cons hs hmem

/-- `tail` is at least as good as any entry in either case. -/
theorem Reports.bound {b : Bool} (hs : w.Sorted) (h : w.Reports b) : w.Bound := by
  intro p hp
  cases b with
  | false => exact h.1 ▸ (h.2 p hp).le
  | true =>
    obtain ⟨x, hx, htx⟩ := Option.map_eq_some_iff.mp h
    obtain ⟨l, hl⟩ : ∃ l, w.val = x :: l := by
      cases hv : w.val <;> simp_all
    unfold Sorted at hs
    rw [hl] at hs hp
    rw [← htx]
    rcases List.mem_cons.mp hp with rfl | hmem
    · exact le_rfl
    · exact List.rel_of_pairwise_cons hs hmem

end TcpEyenet.Win
