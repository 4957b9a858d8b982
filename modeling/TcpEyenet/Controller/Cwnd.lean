import TcpEyenet.Controller.Reset
import TcpEyenet.Controller.Velocity

/-! The steps of the window and the spacing of the packets that goes with it. -/
namespace TcpEyenet.Eyenet

variable {e e' : Eyenet} {s : Sweep} {δ c tCwnd currRtt recvTs sendTs : ℚ} {ack seqNo : ℤ}
  {loss : Bool} {u : Utility} {trs : List (Transition Eyenet Op ℚ)} {tr : Transition Eyenet Op ℚ}

/-- Two windows of packets go out in an RTT. -/
def Matched (e : Eyenet) : Prop := 2 * e.cwnd * e.currIntersend = e.rttSample.virginRtt.tail

theorem pace_matched (e : Eyenet) : e.pace.val.Matched := by
  have hpos : (0 : ℚ) < max 2 e.cwnd := lt_max_of_lt_left two_pos
  change 2 * max 2 e.cwnd * (1 / 2 * e.rttSample.virginRtt.tail / max 2 e.cwnd) =
    e.rttSample.virginRtt.tail
  field_simp

theorem updateIntersend_of_lt (h : e.nack < 2 * e.nprobe - 1) : e.updateIntersend.val = e := by
  simp [updateIntersend, h]

theorem updateIntersend_of_le (h : 2 * e.nprobe - 1 ≤ e.nack) :
    e.updateIntersend.val =
      ((e.steer e.targetCwnd.val).clampAmt.moveCwnd e.targetCwnd.val).val.pace.val := by
  simp [updateIntersend, not_lt.mpr h]

theorem updateIntersend_paced (h : e.intersend = e.currIntersend) :
    e.updateIntersend.val.intersend = e.updateIntersend.val.currIntersend := by
  by_cases hn : e.nack < 2 * e.nprobe - 1
  · rwa [updateIntersend_of_lt hn]
  · rw [updateIntersend_of_le (not_lt.mp hn)]
    rfl

theorem settle_paced (h : s.eyenet.intersend = s.eyenet.currIntersend) :
    (settle s).val.intersend = (settle s).val.currIntersend := by
  obtain ⟨o, d, t, u, hp⟩ := punish_writes s
  rw [settle_eq, hp]
  dsimp only
  split_ifs
  · rfl
  · exact h

theorem settle_matched (h : s.eyenet.Matched) : (settle s).val.Matched := by
  obtain ⟨o, d, t, u, hp⟩ := punish_writes s
  rw [settle_eq, hp]
  dsimp only
  split_ifs
  · exact pace_matched _
  · exact h

/-- Before `update_intersend` an ack has not touched the window, the spacing or the counts. -/
theorem atUpdate_window (e : Eyenet) (sendTs : ℚ) :
    (e.atUpdate sendTs).cwnd = e.cwnd ∧ (e.atUpdate sendTs).intersend = e.intersend ∧
      (e.atUpdate sendTs).currIntersend = e.currIntersend ∧
      (e.atUpdate sendTs).nack = e.nack ∧ (e.atUpdate sendTs).nprobe = e.nprobe := by
  obtain ⟨r, m, w, d, t, o, x, y, z, h⟩ := atUpdate_writes e sendTs
  rw [h]
  exact ⟨rfl, rfl, rfl, rfl, rfl⟩

theorem onAck_nack (h : (e.onAck ack recvTs sendTs).val = .ok e') : e'.nack = e.nack + 1 := by
  obtain ⟨s, hs, rfl⟩ := onAck_parts h
  obtain ⟨w, hw⟩ := sweep_writes hs
  obtain ⟨o, d, t, u, r, c, i, j, hset⟩ := settle_writes (s := s)
  obtain ⟨c, b, amt, dir, ts, n, d, i, j, hupd⟩ :=
    updateIntersend_writes (e := e.atUpdate sendTs)
  rw [hset, hw, hupd]
  exact congrArg (· + 1) (atUpdate_window e sendTs).2.2.2.1

theorem onPktSent_window (e : Eyenet) (seqNo : ℤ) : (e.onPktSent seqNo).cwnd = e.cwnd ∧
    (e.onPktSent seqNo).currIntersend = e.currIntersend ∧
    (e.onPktSent seqNo).nack = e.nack := by
  obtain ⟨w, i, r, -, h⟩ := probeOldest_writes (e := e.track seqNo)
  rw [onPktSent, h]
  exact ⟨rfl, rfl, rfl⟩

/-- The spacing in force is the last one computed, and after the probes it fits the window. -/
structure Spaced (e : Eyenet) : Prop where
  paced : e.intersend = e.currIntersend
  matched : 2 * e.nprobe ≤ e.nack → e.Matched

theorem onAck_spaced (hp : e.intersend = e.currIntersend)
    (h : (e.onAck ack recvTs sendTs).val = .ok e') : Spaced e' := by
  have hnack := onAck_nack h
  have hnprobe : e'.nprobe = e.nprobe :=
    congrArg Config.nprobe ((onAck_keeps h).config.trans sampleRtt_config)
  obtain ⟨s, hs, rfl⟩ := onAck_parts h
  obtain ⟨w, hw⟩ := sweep_writes hs
  obtain ⟨-, hi, hci, hn, hpr⟩ := atUpdate_window e sendTs
  refine ⟨settle_paced ?_, fun hle => settle_matched ?_⟩
  · rw [hw]
    exact updateIntersend_paced (hi.trans (hp.trans hci.symm))
  · have hmoved : 2 * (e.atUpdate sendTs).nprobe - 1 ≤ (e.atUpdate sendTs).nack := by omega
    rw [hw, updateIntersend_of_le hmoved]
    exact pace_matched _

theorem spaced_step (ht : machine.Takes tr) (hpr : tr.src.nprobe = 10) (h : Spaced tr.src) :
    Spaced tr.dst := by
  rcases takes_cases ht with ⟨-, hd⟩ | ⟨ts, -, hd⟩ | ⟨k, -, hd⟩ | ⟨a, r, s, -, hd⟩
  · rw [hd]
    refine ⟨rfl, fun hle => ?_⟩
    have hlt : ¬ 2 * tr.src.nprobe ≤ 0 := by omega
    exact absurd hle hlt
  · rw [hd]
    exact ⟨h.paced, h.matched⟩
  · obtain ⟨hc, hi, hn⟩ := onPktSent_window tr.src k
    have hkeep : Keeps tr.src (tr.src.onPktSent k) := onPktSent_keeps
    have hpr' : (tr.src.onPktSent k).nprobe = tr.src.nprobe := congrArg Config.nprobe hkeep.config
    rw [hd]
    refine ⟨rfl, fun hle => ?_⟩
    rw [hpr', hn] at hle
    rw [Matched, hc, hi, hkeep.rttSample]
    exact h.matched hle
  · exact onAck_spaced h.paced hd

/-- After the probes twice the window goes out in an RTT, whatever moved the window last. -/
theorem pacing_matches_window (hr : machine.Run (newWith δ u) trs e)
    (hn : 2 * e.nprobe ≤ e.nack) : 2 * e.cwnd * e.intersend = e.rttSample.virginRtt.tail := by
  have hpr : ∀ tr ∈ trs, tr.src.nprobe = 10 := by
    intro tr hm
    obtain ⟨pre, post, he⟩ := List.append_of_mem hm
    exact congrArg Config.nprobe (config_run (hr.split he).1)
  have hspaced : Spaced e :=
    hr.invariant (I := Spaced) hpr ⟨rfl, fun hle => absurd hle (by decide : ¬ (20 : ℤ) ≤ 0)⟩
      fun tr ht => spaced_step ht
  rw [hspaced.paced]
  exact hspaced.matched hn

/-- A packet goes out, and its ack comes 21 times. -/
def probes : List Op := [.setTs 1, .onPktSent 0, .setTs 5] ++ List.replicate 21 (.onAck 1 0 1)

theorem probes_accepted : (machine.exec (new 1) (.initialise :: probes)).isSome := by
  decide +kernel

theorem pacing_matches_window_probes :
    ∃ trs e, machine.exec (new 1) (.initialise :: probes) = some (trs, e) ∧
      2 * e.nprobe < e.nack ∧ 2 * e.cwnd * e.intersend = e.rttSample.virginRtt.tail := by
  have hn : 2 * (Option.get _ probes_accepted).2.nprobe <
      (Option.get _ probes_accepted).2.nack := by
    decide +kernel
  exact ⟨_, _, (Option.some_get probes_accepted).symm, hn,
    pacing_matches_window (u := .constant) (Machine.exec_get_run probes_accepted) hn.le⟩

/-- The window moves towards its target, by one packet down or two up at most. -/
def Directed (c tCwnd c₁ : ℚ) : Prop :=
  max 2 (c - 1) ≤ c₁ ∧ c₁ ≤ c + 2 ∧ (c < tCwnd → c < c₁) ∧ (¬ c < tCwnd → c₁ ≤ c)

instance (c tCwnd c₁ : ℚ) : Decidable (Directed c tCwnd c₁) :=
  inferInstanceAs (Decidable (_ ∧ _ ∧ _ ∧ _))

/-- A step of slow start is one packet where there is no queue, and twice the inverse of the
window towards the target. -/
theorem directed_step (hc : 2 ≤ c) (hmax : c + 1 < doubleMax) (tCwnd : ℚ) :
    let c' := if tCwnd = doubleMax then c + 1 else c
    Directed c tCwnd (max 2 (if c' < tCwnd then c' + 2 / c' else c' - 2 / c')) := by
  have hstep : ∀ x : ℚ, 2 ≤ x → 0 < 2 / x ∧ 2 / x ≤ 1 := by
    intro x hx
    have hpos : 0 < x := by linarith
    exact ⟨div_pos two_pos hpos, (div_le_one hpos).mpr hx⟩
  dsimp only
  by_cases ht : tCwnd = doubleMax
  · obtain ⟨hpos, hone⟩ := hstep (c + 1) (by linarith)
    have hlt : c < tCwnd := by linarith
    rw [if_pos ht, if_pos (by linarith), max_eq_right (by linarith)]
    exact ⟨max_le (by linarith) (by linarith), by linarith, fun _ => by linarith,
      fun hnot => absurd hlt hnot⟩
  · obtain ⟨hpos, hone⟩ := hstep c hc
    rw [if_neg ht]
    split_ifs with hlt
    · rw [max_eq_right (by linarith)]
      exact ⟨max_le (by linarith) (by linarith), by linarith, fun _ => by linarith,
        fun hnot => absurd hlt hnot⟩
    · exact ⟨max_le_max le_rfl (by linarith), max_le (by linarith) (by linarith),
        fun hlt' => absurd hlt' hlt, fun _ => max_le hc (by linarith)⟩

/-- The state of `delta` under the default utility. -/
structure DeltaSettled (e : Eyenet) : Prop where
  utility : e.utilityType = .constant
  operation : e.operationType = .default
  delta : e.lastDeltaUpdateTs = 0 ∨ e.delta = e.defaultDelta

theorem DeltaSettled.updateDelta (h : DeltaSettled e) (loss : Bool) (currRtt : ℚ) :
    DeltaSettled (e.updateDelta loss currRtt).val ∧
      (e.updateDelta loss currRtt).val.delta = e.defaultDelta := by
  obtain ⟨hu, ho, hd⟩ := h
  have hauto : e.chooseOperation = e := by simp [chooseOperation, hu]
  have hrule : (e.updateDelta loss currRtt).val = e.defaultRule currRtt := by
    simp [Eyenet.updateDelta, hauto, ho, hu]
  rw [hrule, defaultRule]
  by_cases hdue : e.lastDeltaUpdateTs = 0 ∨ e.lastDeltaLossUpdateTs + currRtt < e.currTs
  · have hmin : min (if e.delta < e.defaultDelta then e.defaultDelta else e.delta) e.defaultDelta =
        e.defaultDelta := by
      split_ifs with hlt
      · exact min_self _
      · exact min_eq_right (not_lt.mp hlt)
    rw [if_pos hdue]
    exact ⟨⟨hu, ho, .inr hmin⟩, hmin⟩
  · have hset : e.delta = e.defaultDelta := hd.resolve_left fun h0 => hdue (.inl h0)
    rw [if_neg hdue]
    exact ⟨⟨hu, ho, hd⟩, hset⟩

/-- Slow start with the velocity it begins with. -/
structure Ramping (e : Eyenet) : Prop where
  settled : DeltaSettled e
  ss : e.ss = true
  updateAmt : e.updateAmt = 1
  cwnd : 2 ≤ e.cwnd
  doSs : e.doSs = false
  nprobe : e.nprobe = 10
  defaultDelta : e.defaultDelta = 1 / 2

theorem moveCwnd_cwnd (e : Eyenet) (tCwnd : ℚ) : (e.moveCwnd tCwnd).val.cwnd =
    if e.cwnd < tCwnd then e.cwnd + e.updateAmt / (e.delta * e.cwnd)
    else e.cwnd - e.updateAmt / (e.delta * e.cwnd) := by
  simp only [moveCwnd, Traced.bind_val, Traced.ite_val, Traced.pure_val]
  split_ifs <;> rfl

/-- The window is far from the target that stands for an empty queue, so slow start goes on. -/
theorem Ramping.steer_eq (h : Ramping e) (hmax : e.cwnd + 1 < doubleMax) (tCwnd : ℚ) :
    e.steer tCwnd = { e with cwnd := if tCwnd = doubleMax then e.cwnd + 1 else e.cwnd } := by
  rw [steer, if_pos h.ss, slowStart]
  by_cases ht : tCwnd = doubleMax
  · rw [if_pos (.inr ht)]
    dsimp only
    rw [if_neg (by linarith), if_pos ht]
  · rw [if_neg (by simp [h.doSs, ht]), if_neg ht]

/-- What `update_intersend` does in slow start. -/
theorem Ramping.move (h : Ramping e) (hδ : e.delta = 1 / 2) (hn : 2 * e.nprobe - 1 ≤ e.nack)
    (hmax : e.cwnd + 1 < doubleMax) :
    Directed e.cwnd e.targetCwnd.val e.updateIntersend.val.cwnd ∧
      e.updateIntersend.val.ss = true ∧ e.updateIntersend.val.updateAmt = 1 := by
  have hval := updateIntersend_of_le hn
  have hamt : (e.steer e.targetCwnd.val).updateAmt = 1 := by
    rw [h.steer_eq hmax]
    exact h.updateAmt
  rw [clampAmt_of_one hamt, h.steer_eq hmax] at hval
  have hinv : ∀ x : ℚ, 1 / (1 / 2 * x) = 2 / x := by
    intro x
    rw [one_div_mul_eq_div, one_div_div]
  rw [hval]
  refine ⟨?_, ?_, ?_⟩
  · have hdir := directed_step h.cwnd hmax e.targetCwnd.val
    simp only [← hinv] at hdir
    change Directed _ _ (max 2 (Eyenet.moveCwnd _ _).val.cwnd)
    rw [moveCwnd_cwnd]
    simpa only [hδ] using hdir
  · exact (congrArg Steering.ss (moveCwnd_steering _ _)).trans h.ss
  · exact congrArg Steering.updateAmt (moveCwnd_steering _ _)

theorem Ramping.updateIntersend (h : Ramping e) (hδ : e.delta = 1 / 2)
    (hmax : e.cwnd + 1 < doubleMax) :
    Ramping e.updateIntersend.val ∧ e.updateIntersend.val.cwnd ≤ e.cwnd + 2 := by
  by_cases hn : e.nack < 2 * e.nprobe - 1
  · rw [updateIntersend_of_lt hn]
    exact ⟨h, by linarith⟩
  · obtain ⟨⟨hge, hle, -, -⟩, hss, hamt⟩ := h.move hδ (not_lt.mp hn) hmax
    obtain ⟨c, b, amt, dir, ts, n, d, i, j, hupd⟩ := updateIntersend_writes (e := e)
    rw [hupd] at hge hle hss hamt ⊢
    exact ⟨{ h with
      settled := ⟨h.settled.utility, h.settled.operation, h.settled.delta⟩
      ss := hss
      updateAmt := hamt
      cwnd := (le_max_left _ _).trans hge }, hle⟩

theorem Ramping.atUpdate (h : Ramping e) (sendTs : ℚ) :
    Ramping (e.atUpdate sendTs) ∧ (e.atUpdate sendTs).delta = 1 / 2 := by
  have hsettled : DeltaSettled (e.sampleRtt (e.currTs - sendTs)).noteArrival := by
    obtain ⟨w, d, t, -, -, hn⟩ := noteArrival_writes (e := e.sampleRtt (e.currTs - sendTs))
    rw [hn]
    exact ⟨h.settled.utility, h.settled.operation, h.settled.delta⟩
  obtain ⟨hd, hδ⟩ := hsettled.updateDelta false (e.currTs - sendTs)
  have hdef : (e.sampleRtt (e.currTs - sendTs)).noteArrival.defaultDelta = e.defaultDelta :=
    congrArg Config.defaultDelta (noteArrival_keeps.config.trans sampleRtt_config)
  rw [hdef, h.defaultDelta] at hδ
  have hat : DeltaSettled (e.atUpdate sendTs) ∧ (e.atUpdate sendTs).delta = 1 / 2 := ⟨hd, hδ⟩
  obtain ⟨r, m, w, d, t, o, x, y, z, heq⟩ := atUpdate_writes e sendTs
  rw [heq] at hat ⊢
  exact ⟨{ h with settled := hat.1 }, hat.2⟩

theorem Ramping.sweep (h : Ramping e) (hs : e.sweep seqNo = .ok s) : Ramping s.eyenet := by
  obtain ⟨w, hw⟩ := sweep_writes hs
  rw [hw]
  exact { h with settled := ⟨h.settled.utility, h.settled.operation, h.settled.delta⟩ }

/-- After the loop the window is left alone or cut. -/
theorem settle_cwnd (s : Sweep) : (settle s).val.cwnd =
    if s.cuts then max 2 (s.eyenet.cwnd * (8 / 10)) else s.eyenet.cwnd := by
  obtain ⟨o, d, t, u, hp⟩ := punish_writes s
  rw [settle_eq, hp]
  dsimp only
  split_ifs <;> rfl

theorem Ramping.settle (h : Ramping s.eyenet) :
    Ramping (settle s).val ∧ (settle s).val.cwnd ≤ s.eyenet.cwnd := by
  have hc := h.cwnd
  have hle : max 2 (s.eyenet.cwnd * (8 / 10)) ≤ s.eyenet.cwnd := max_le hc (by linarith)
  have hsettled : DeltaSettled (punish s).val := by
    unfold punish
    split_ifs
    · exact (h.settled.updateDelta true 0).1
    · exact h.settled
  obtain ⟨o, d, t, u, hp⟩ := punish_writes s
  rw [hp] at hsettled
  obtain ⟨hu, ho, hd⟩ := hsettled
  rw [settle_eq, hp]
  dsimp only
  split_ifs
  · exact ⟨{ h with settled := ⟨hu, ho, hd⟩, cwnd := le_max_left _ _ }, hle⟩
  · exact ⟨{ h with settled := ⟨hu, ho, hd⟩ }, le_rfl⟩

/-- Slow start, and a window that two packets for every ack account for. -/
structure Bounded (e : Eyenet) : Prop extends Ramping e where
  nack : 0 ≤ e.nack
  bound : e.cwnd ≤ e.nprobe + 2 * e.nack

/-- As long as the acks can be counted, the window is far from `DOUBLE_MAX`. -/
theorem Bounded.lt_doubleMax (h : Bounded e) (hn : e.nack < 2 ^ 31) :
    e.cwnd + 1 < doubleMax := by
  have hbound := h.bound
  have hnack : (e.nack : ℚ) < 2 ^ 31 := by exact_mod_cast hn
  rw [h.nprobe] at hbound
  refine lt_of_lt_of_le ?_ doubleMax_large
  push_cast at hbound
  linarith

theorem Bounded.onAck (h : Bounded e) (hn : e.nack < 2 ^ 31)
    (hok : (e.onAck ack recvTs sendTs).val = .ok e') : Bounded e' := by
  have hnack := onAck_nack hok
  obtain ⟨s, hs, rfl⟩ := onAck_parts hok
  obtain ⟨hat, hδ⟩ := h.toRamping.atUpdate sendTs
  obtain ⟨hc, -⟩ := atUpdate_window e sendTs
  have hmax : (e.atUpdate sendTs).cwnd + 1 < doubleMax := by
    rw [hc]
    exact h.lt_doubleMax hn
  obtain ⟨hmoved, hup⟩ := hat.updateIntersend hδ hmax
  obtain ⟨hsettled, hdown⟩ := (hmoved.sweep hs).settle
  have hswept : s.eyenet.cwnd = (e.atUpdate sendTs).updateIntersend.val.cwnd := by
    obtain ⟨w, hw⟩ := sweep_writes hs
    rw [hw]
    rfl
  refine { hsettled with nack := ?_, bound := ?_ }
  · rw [hnack]
    have h0 := h.nack
    omega
  · have hbound := h.bound
    rw [hsettled.nprobe, hnack]
    rw [h.nprobe] at hbound
    push_cast at hbound ⊢
    linarith

theorem Bounded.step (ht : machine.Takes tr) (hn : tr.src.nack < 2 ^ 31) (h : Bounded tr.src) :
    Bounded tr.dst := by
  rcases takes_cases ht with ⟨-, hd⟩ | ⟨ts, -, hd⟩ | ⟨k, -, hd⟩ | ⟨a, r, s, -, hd⟩
  · have hc : (2 : ℚ) ≤ tr.src.nprobe := by
      rw [h.nprobe]
      norm_num
    have hle : (tr.src.nprobe : ℚ) ≤ tr.src.nprobe + 2 * (0 : ℤ) := by simp
    rw [hd]
    exact
      { settled := ⟨h.settled.utility, rfl, .inl rfl⟩
        ss := rfl
        updateAmt := rfl
        cwnd := hc
        doSs := h.doSs
        nprobe := h.nprobe
        defaultDelta := h.defaultDelta
        nack := le_rfl
        bound := hle }
  · rw [hd]
    exact { h with settled := ⟨h.settled.utility, h.settled.operation, h.settled.delta⟩ }
  · obtain ⟨w, i, r, -, hprobe⟩ := probeOldest_writes (e := tr.src.track k)
    rw [hd, onPktSent, hprobe]
    exact { h with settled := ⟨h.settled.utility, h.settled.operation, h.settled.delta⟩ }
  · exact h.onAck hn hd

theorem bounded_run (hr : machine.Run (new δ).initialise trs e)
    (hn : ∀ tr ∈ trs, tr.dst.nack < 2 ^ 31) : Bounded e ∧ e.nack < 2 ^ 31 := by
  refine hr.invariant (I := fun e => Bounded e ∧ e.nack < 2 ^ 31) hn
    ⟨?_, (by decide : (0 : ℤ) < 2 ^ 31)⟩ ?_
  · exact
      { settled := ⟨rfl, rfl, .inl rfl⟩
        ss := rfl
        updateAmt := rfl
        cwnd := (by norm_num : (2 : ℚ) ≤ (10 : ℤ))
        doSs := rfl
        nprobe := rfl
        defaultDelta := rfl
        nack := le_rfl
        bound := (by norm_num : ((10 : ℤ) : ℚ) ≤ (10 : ℤ) + 2 * (0 : ℤ)) }
  · rintro tr ht hlt ⟨h, hsrc⟩
    exact ⟨h.step ht hsrc, hlt⟩

/-- As long as `nack`, an `int32_t`, can count the acks since the reset, the window grows by two
packets an ack at most, and an ack past the probes moves it towards its target. -/
theorem window_bounded (hr : machine.Run (new δ).initialise trs e)
    (hn : ∀ tr ∈ trs, tr.dst.nack < 2 ^ 31) :
    e.cwnd ≤ e.nprobe + 2 * e.nack ∧
    ∀ ack recvTs sendTs, sendTs ≤ e.currTs → 2 * e.nprobe - 1 ≤ e.nack →
      Directed e.cwnd (e.atUpdate sendTs).targetCwnd.val
        (e.atUpdate sendTs).updateIntersend.val.cwnd ∧
      ∀ e', (e.onAck ack recvTs sendTs).val = .ok e' →
        e'.cwnd = (e.atUpdate sendTs).updateIntersend.val.cwnd ∨
          e'.cwnd = max 2 (8 / 10 * (e.atUpdate sendTs).updateIntersend.val.cwnd) := by
  obtain ⟨h, hlt⟩ := bounded_run hr hn
  refine ⟨h.bound, fun ack recvTs sendTs _ hle => ?_⟩
  obtain ⟨hat, hδ⟩ := h.toRamping.atUpdate sendTs
  obtain ⟨hc, -, -, hnack, hnprobe⟩ := atUpdate_window e sendTs
  have hmoved := hat.move hδ (by rwa [hnack, hnprobe]) (by rw [hc]; exact h.lt_doubleMax hlt)
  rw [hc] at hmoved
  refine ⟨hmoved.1, fun e' hok => ?_⟩
  obtain ⟨s, hs, rfl⟩ := onAck_parts hok
  obtain ⟨w, hw⟩ := sweep_writes hs
  have hswept : s.eyenet.cwnd = (e.atUpdate sendTs).updateIntersend.val.cwnd := by
    rw [hw]
    rfl
  rw [settle_cwnd, hswept, mul_comm]
  split_ifs
  · exact .inr rfl
  · exact .inl rfl

theorem probes_bounded_accepted : (machine.exec (new 1).initialise probes).isSome := by
  decide +kernel

/-- The next ack finds no queue and opens the window by more than one packet. -/
theorem window_bounded_probes :
    ∃ trs e, machine.exec (new 1).initialise probes = some (trs, e) ∧
      e.cwnd + 1 < (e.atUpdate 1).updateIntersend.val.cwnd ∧
      Directed e.cwnd (e.atUpdate 1).targetCwnd.val (e.atUpdate 1).updateIntersend.val.cwnd := by
  have hn : ∀ tr ∈ (Option.get _ probes_bounded_accepted).1, tr.dst.nack < 2 ^ 31 := by
    decide +kernel
  have hlate : 1 ≤ (Option.get _ probes_bounded_accepted).2.currTs := by decide +kernel
  have hpast : 2 * (Option.get _ probes_bounded_accepted).2.nprobe - 1 ≤
      (Option.get _ probes_bounded_accepted).2.nack := by
    decide +kernel
  have hgrows : (Option.get _ probes_bounded_accepted).2.cwnd + 1 <
      ((Option.get _ probes_bounded_accepted).2.atUpdate 1).updateIntersend.val.cwnd := by
    decide +kernel
  have hbounded := window_bounded (Machine.exec_get_run probes_bounded_accepted) hn
  exact ⟨_, _, (Option.some_get probes_bounded_accepted).symm, hgrows,
    (hbounded.2 1 0 1 hlate hpast).1⟩

end TcpEyenet.Eyenet
