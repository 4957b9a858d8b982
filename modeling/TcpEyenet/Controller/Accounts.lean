import TcpEyenet.Controller.Reset
import TcpEyenet.Controller.Sweep

/-! Where every packet sent since the last reset has gone. -/
namespace TcpEyenet.Eyenet

variable {e e' : Eyenet} {δ recvTs sendTs : ℚ} {ack k : ℤ} {u : Utility}
  {trs : List (Transition Eyenet Op ℚ)} {tr : Transition Eyenet Op ℚ}

def sentAfter (ks : List ℤ) (tr : Transition Eyenet Op ℚ) : List ℤ :=
  match tr.input with
  | .initialise => []
  | .onPktSent seqNo => seqNo :: ks
  | _ => ks

/-- The packets sent since the last reset, the last one first. -/
def sent (trs : List (Transition Eyenet Op ℚ)) : List ℤ := trs.foldl sentAfter []

/-- The numbers sent are not negative and each is larger than those before it. -/
def Rising (trs : List (Transition Eyenet Op ℚ)) : Prop :=
  (sent trs).Pairwise (· > ·) ∧ ∀ k ∈ sent trs, 0 ≤ k

def foundAfter (n : ℕ) (tr : Transition Eyenet Op ℚ) : ℕ :=
  match tr.input with
  | .initialise => 0
  | .onAck ack _ _ => if ack - 1 ∈ tr.src.unackedPkts then n + 1 else n
  | _ => n

/-- The acks since the last reset that found their packet. -/
def found (trs : List (Transition Eyenet Op ℚ)) : ℕ := trs.foldl foundAfter 0

theorem sent_concat : sent (trs ++ [tr]) = sentAfter (sent trs) tr := by simp [sent]

theorem found_concat : found (trs ++ [tr]) = foundAfter (found trs) tr := by simp [found]

/-- What an ack does, in the map and in the count of the lost. -/
structure Acknowledges (ack : ℤ) (e e' : Eyenet) : Prop where
  known : ack - 1 ∈ e.unackedPkts →
    (∀ k, e'.unackedPkts[k]? = if k ≤ ack - 1 then none else e.unackedPkts[k]?) ∧
      e'.nlost = e.nlost + e.unackedPkts.keys.countP (· < ack - 1)
  unknown : ack - 1 ∉ e.unackedPkts → e'.unackedPkts = e.unackedPkts ∧ e'.nlost = e.nlost

/-- Where an ack comes to `update_intersend` and the loop the map is still as it was. -/
theorem swept_books (e : Eyenet) (sendTs : ℚ) :
    ((e.atUpdate sendTs).updateIntersend.val).unackedPkts = e.unackedPkts ∧
    ((e.atUpdate sendTs).updateIntersend.val).nlost = e.nlost ∧
    ((e.atUpdate sendTs).updateIntersend.val).nsent = e.nsent := by
  obtain ⟨c, b, amt, dir, ts, n, d, i, j, hi⟩ :=
    updateIntersend_writes (e := e.atUpdate sendTs)
  obtain ⟨r, m, w, d, t, o, x, y, z, ha⟩ := atUpdate_writes e sendTs
  rw [hi, ha]
  exact ⟨rfl, rfl, rfl⟩

/-- An ack that is not from the future returns. -/
theorem onAck_ok (hr : e.rttSample.Inv) (hpos : ∀ k ∈ e.unackedPkts, 0 ≤ k)
    (hle : sendTs ≤ e.currTs) : ∃ e', (e.onAck ack recvTs sendTs).val = .ok e' := by
  have hpos' : ∀ k ∈ (e.atUpdate sendTs).updateIntersend.val.unackedPkts, 0 ≤ k := by
    rwa [(swept_books e sendTs).1]
  obtain ⟨s, hs, -⟩ := sweep_ok hpos' (ack - 1)
  have hmin := not_rttBelowMin (RttWin.inv_add hr (sub_nonneg.mpr hle))
  rw [atUpdate] at hs
  refine ⟨(settle s).val, ?_⟩
  simp only [onAck, if_neg (not_lt.mpr hle), if_neg hmin, absorb, Traced.bind_val, hs]
  rfl

theorem settle_books (s : Sweep) : (settle s).val.unackedPkts = s.eyenet.unackedPkts ∧
    (settle s).val.nlost = s.eyenet.nlost ∧ (settle s).val.nsent = s.eyenet.nsent := by
  obtain ⟨o, d, t, u, r, c, i, j, h⟩ := settle_writes (s := s)
  rw [h]
  exact ⟨rfl, rfl, rfl⟩

theorem onAck_nsent (h : (e.onAck ack recvTs sendTs).val = .ok e') : e'.nsent = e.nsent := by
  obtain ⟨s, hs, rfl⟩ := onAck_parts h
  obtain ⟨w, hw⟩ := sweep_writes hs
  rw [(settle_books s).2.2, hw]
  exact (swept_books _ _).2.2

theorem onAck_retires (hpos : ∀ k ∈ e.unackedPkts, 0 ≤ k)
    (h : (e.onAck ack recvTs sendTs).val = .ok e') :
    (ack - 1 ∈ e.unackedPkts → Retires (ack - 1) e.unackedPkts.toList e e') ∧
      (ack - 1 ∉ e.unackedPkts → e'.unackedPkts = e.unackedPkts ∧ e'.nlost = e.nlost) := by
  obtain ⟨s, hs, rfl⟩ := onAck_parts h
  obtain ⟨hmap, hlost, -⟩ := swept_books e sendTs
  obtain ⟨s', hs', hin, hout⟩ := sweep_ok (hmap ▸ hpos) (ack - 1)
  obtain rfl := Except.ok.inj (hs.symm.trans hs')
  rw [hmap] at hin hout
  obtain ⟨hmap', hlost', -⟩ := settle_books s
  constructor
  · intro hk
    obtain ⟨h₁, h₂, h₃⟩ := hin hk
    rw [hmap] at h₁ h₃
    rw [hlost] at h₂
    exact ⟨hmap' ▸ h₁, hlost' ▸ h₂, hmap' ▸ h₃⟩
  · intro hk
    rw [hmap', hlost', hout hk]
    exact ⟨hmap, hlost⟩

/-- The key an ack finds is the one the count of the lost leaves out. -/
theorem countP_le_of_mem {ks : List ℤ} {a : ℤ} (hs : ks.Pairwise (· < ·)) (h : a ∈ ks) :
    ks.countP (· ≤ a) = ks.countP (· < a) + 1 := by
  induction ks with
  | nil => simp at h
  | cons k ks ih =>
    obtain ⟨hk, hs⟩ := List.pairwise_cons.mp hs
    rcases List.mem_cons.mp h with rfl | hmem
    · have hle : ks.countP (· ≤ a) = 0 :=
        List.countP_eq_zero.mpr fun j hj => by simpa using hk j hj
      have hlt : ks.countP (· < a) = 0 :=
        List.countP_eq_zero.mpr fun j hj => by simpa using (hk j hj).le
      rw [List.countP_cons_of_pos (by simp), List.countP_cons_of_neg (by simp), hle, hlt]
    · have hka := hk a hmem
      rw [List.countP_cons_of_pos (by simpa using hka.le),
        List.countP_cons_of_pos (by simpa using hka),
        ih hs hmem]

theorem onAck_acknowledges (hpos : ∀ k ∈ e.unackedPkts, 0 ≤ k)
    (h : (e.onAck ack recvTs sendTs).val = .ok e') : Acknowledges ack e e' := by
  obtain ⟨hin, hout⟩ := onAck_retires hpos h
  refine ⟨fun hk => ⟨fun j => ?_, ?_⟩, hout⟩
  · rw [(hin hk).unackedPkts]
    simp only [mem_unackedPkts_iff]
    by_cases hj : j ∈ e.unackedPkts
    · simp [hj]
    · simp [hj]
  · rw [(hin hk).nlost, Std.TreeMap.map_fst_toList_eq_keys]

/-- The packets sent are the lost, the found and those still out. -/
structure Books (trs : List (Transition Eyenet Op ℚ)) (e : Eyenet) : Prop where
  rising : Rising trs
  keys : ∀ k ∈ e.unackedPkts, k ∈ sent trs
  balance : e.nsent = e.nlost + found trs + e.unackedPkts.size

theorem Books.nonneg (h : Books trs e) : ∀ k ∈ e.unackedPkts, 0 ≤ k :=
  fun k hk => h.rising.2 k (h.keys k hk)

theorem onPktSent_books : (e.onPktSent k).nlost = e.nlost ∧
    (e.onPktSent k).nsent = e.nsent + 1 ∧
    ∃ pkt, (e.onPktSent k).unackedPkts = e.unackedPkts.insert k pkt := by
  obtain ⟨w, i, r, -, h⟩ := probeOldest_writes (e := e.track k)
  rw [onPktSent, h]
  exact ⟨rfl, rfl, _, rfl⟩

theorem Retires.balance {n : ℕ} (h : Retires (ack - 1) e.unackedPkts.toList e e')
    (hk : ack - 1 ∈ e.unackedPkts) :
    e'.nlost + (n + 1) + e'.unackedPkts.size = e.nlost + n + e.unackedPkts.size := by
  have hsize := h.size
  rw [countP_le_of_mem e.unackedPkts_sorted (mem_unackedPkts_iff.mpr hk)] at hsize
  have hlost := h.nlost
  omega

theorem keys_step (ht : machine.Takes tr) (h : Books trs tr.src) :
    ∀ k ∈ tr.dst.unackedPkts, k ∈ sent (trs ++ [tr]) := by
  intro k hk
  rw [sent_concat]
  rcases takes_cases ht with ⟨hi, hd⟩ | ⟨ts, hi, hd⟩ | ⟨j, hi, hd⟩ | ⟨a, r, s, hi, hd⟩ <;>
    simp only [sentAfter, hi]
  · rw [hd] at hk
    exact absurd hk Std.TreeMap.not_mem_emptyc
  · rw [hd] at hk
    exact h.keys k hk
  · obtain ⟨-, -, pkt, hmap⟩ := onPktSent_books (e := tr.src) (k := j)
    rw [hd, hmap] at hk
    rcases Std.TreeMap.mem_insert.mp hk with heq | hk
    · rw [compare_eq_iff_eq.mp heq]
      exact List.mem_cons_self
    · exact List.mem_cons_of_mem _ (h.keys k hk)
  · have hack := onAck_acknowledges h.nonneg hd
    by_cases hin : a - 1 ∈ tr.src.unackedPkts
    · have hget := (hack.known hin).1 k
      rw [Std.TreeMap.getElem?_eq_some_getElem hk] at hget
      split_ifs at hget
      exact h.keys k (Std.TreeMap.mem_iff_isSome_getElem?.mpr (by simp [← hget]))
    · rw [(hack.unknown hin).1] at hk
      exact h.keys k hk

theorem balance_step (ht : machine.Takes tr) (hup : Rising (trs ++ [tr])) (h : Books trs tr.src) :
    tr.dst.nsent = tr.dst.nlost + found (trs ++ [tr]) + tr.dst.unackedPkts.size := by
  have hbal := h.balance
  rw [found_concat]
  rw [Rising, sent_concat] at hup
  rcases takes_cases ht with ⟨hi, hd⟩ | ⟨ts, hi, hd⟩ | ⟨j, hi, hd⟩ | ⟨a, r, s, hi, hd⟩ <;>
    simp only [sentAfter, foundAfter, hi] at hup ⊢
  · rw [hd]
    rfl
  · rw [hd]
    exact hbal
  · obtain ⟨hlost, hsent, pkt, hmap⟩ := onPktSent_books (e := tr.src) (k := j)
    have hnew : j ∉ tr.src.unackedPkts := by
      intro hj
      have hlt := (List.pairwise_cons.mp hup.1).1 j (h.keys j hj)
      omega
    rw [hd, hlost, hsent, hmap, Std.TreeMap.size_insert,
      if_neg fun hj => hnew (Std.TreeMap.mem_iff_contains.mpr hj)]
    push_cast
    omega
  · rw [onAck_nsent hd]
    obtain ⟨hin, hout⟩ := onAck_retires h.nonneg hd
    split_ifs with hk
    · rw [hbal, ← (hin hk).balance hk]
      push_cast
      rfl
    · rw [(hout hk).1, (hout hk).2, hbal]

theorem books_run (hr : machine.Run (newWith δ u) trs e)
    (hup : ∀ pre ∈ trs.inits, Rising pre) : Books trs e := by
  refine hr.chronicle (C := fun pre tr => Rising (pre ++ [tr])) ?_ ?_ ?_
  · intro pre tr post he
    exact hup _ ((List.mem_inits _ _).mpr ⟨post, by simp [he]⟩)
  · exact ⟨hup [] (by simp), fun k hk => absurd hk Std.TreeMap.not_mem_emptyc, rfl⟩
  · intro pre tr ht hC h
    exact ⟨hC, keys_step ht h, balance_step ht hC h⟩

/-- At every point of a run the packets sent since the reset are accounted for, and any ack then
takes out of the map what it covers if it finds its packet, and nothing otherwise. -/
theorem packets_accounted (hr : machine.Run (newWith δ u) trs e)
    (hup : ∀ pre ∈ trs.inits, Rising pre) :
    e.nsent = e.nlost + found trs + e.unackedPkts.size ∧
    ∀ ack recvTs sendTs, sendTs ≤ e.currTs →
      ∃ e', (e.onAck ack recvTs sendTs).val = .ok e' ∧ Acknowledges ack e e' := by
  have hbooks := books_run hr hup
  refine ⟨hbooks.balance, fun ack recvTs sendTs hle => ?_⟩
  obtain ⟨e', he'⟩ := onAck_ok (rtt_run hr) hbooks.nonneg hle
  exact ⟨e', he', onAck_acknowledges hbooks.nonneg he'⟩

/-- Three packets go out, the third is acked, and then the second, too late. -/
def lateAck : List Op :=
  [.setTs 1, .initialise, .onPktSent 0, .onPktSent 1, .onPktSent 4, .setTs 5, .onAck 5 0 1,
    .onAck 2 0 1]

theorem lateAck_accepted : (machine.exec (new 1) lateAck).isSome := by
  decide +kernel

theorem packets_accounted_lateAck :
    ∃ trs e, machine.exec (new 1) lateAck = some (trs, e) ∧ e.nlost = 2 ∧
      e.nsent = e.nlost + found trs + e.unackedPkts.size := by
  have hup : ∀ pre ∈ (Option.get _ lateAck_accepted).1.inits, (sent pre).Pairwise (· > ·) ∧
      ∀ k ∈ sent pre, 0 ≤ k := by
    decide +kernel
  have hlost : (Option.get _ lateAck_accepted).2.nlost = 2 := by decide +kernel
  exact ⟨_, _, (Option.some_get lateAck_accepted).symm, hlost,
    (packets_accounted (u := .constant) (Machine.exec_get_run lateAck_accepted) hup).1⟩

end TcpEyenet.Eyenet
