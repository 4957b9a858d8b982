import TcpEyenet.Controller.Model

/-! What each part of `on_ack` and the other calls leave alone. -/
namespace TcpEyenet

/-- What `update_intersend` keeps of its own between two acks. -/
structure Steering where
  ss : Bool
  lastUpdateDir : ℤ
  lastUpdateTs : ℚ
  pktsRtt : ℤ
  updateDir : ℤ
  updateAmt : ℚ

/-- What a controller is built with and no call changes. -/
structure Config where
  nprobe : ℤ
  defaultDelta : ℚ
  doSs : Bool
  utilityType : Utility
  weights : ℚ × ℚ × ℚ
  percentile : ℚ

namespace Eyenet

def config (e : Eyenet) : Config :=
  { nprobe := e.nprobe
    defaultDelta := e.defaultDelta
    doSs := e.doSs
    utilityType := e.utilityType
    weights := (e.unackedRtt.a, e.interarrival.a, e.lastDelta.a)
    percentile := e.interarrivalRank.percentile }

def steering (e : Eyenet) : Steering :=
  { ss := e.ss
    lastUpdateDir := e.lastUpdateDir
    lastUpdateTs := e.lastUpdateTs
    pktsRtt := e.pktsRtt
    updateDir := e.updateDir
    updateAmt := e.updateAmt }

variable {e e' : Eyenet} {s s' : Sweep} {tCwnd currRtt recvTs sendTs : ℚ} {loss pending : Bool}
  {ack seqNo k : ℤ} {pkt : PacketInfo} {l : List (ℤ × PacketInfo)}

theorem steer_writes (e : Eyenet) (tCwnd : ℚ) : ∃ c b amt dir ts n d, e.steer tCwnd =
    { e with
      cwnd := c
      ss := b
      updateAmt := amt
      lastUpdateDir := dir
      lastUpdateTs := ts
      pktsRtt := n
      updateDir := d } := by
  unfold steer slowStart velocity reviseAmt
  dsimp only
  split_ifs <;> exact ⟨_, _, _, _, _, _, _, rfl⟩

theorem moveCwnd_writes (e : Eyenet) (tCwnd : ℚ) :
    ∃ c d, (e.moveCwnd tCwnd).val = { e with cwnd := c, updateDir := d } := by
  simp only [moveCwnd, Traced.bind_val, Traced.ite_val, Traced.pure_val]
  split_ifs <;> exact ⟨_, _, rfl⟩

/-- All that `update_intersend` can write. -/
theorem updateIntersend_writes : ∃ c b amt dir ts n d i j, e.updateIntersend.val =
    { e with
      cwnd := c
      ss := b
      updateAmt := amt
      lastUpdateDir := dir
      lastUpdateTs := ts
      pktsRtt := n
      updateDir := d
      currIntersend := i
      intersend := j } := by
  unfold updateIntersend
  split_ifs
  · exact ⟨_, _, _, _, _, _, _, _, _, rfl⟩
  · obtain ⟨c, b, amt, dir, ts, n, d, hsteer⟩ := steer_writes e e.targetCwnd.val
    obtain ⟨c', d', hmove⟩ :=
      moveCwnd_writes (e.steer e.targetCwnd.val).clampAmt e.targetCwnd.val
    simp only [Traced.bind_val, hmove]
    simp only [hsteer]
    exact ⟨_, _, _, _, _, _, _, _, _, rfl⟩

theorem adjustDelta_writes (e : Eyenet) (loss : Bool) (currRtt : ℚ) :
    ∃ d t u, (e.adjustDelta loss currRtt).val =
    { e with delta := d, lastDeltaUpdateTs := t, lastDeltaLossUpdateTs := u } := by
  unfold adjustDelta
  split_ifs <;> exact ⟨_, _, _, rfl⟩

/-- All that `update_delta` can write. -/
theorem updateDelta_writes (e : Eyenet) (loss : Bool) (currRtt : ℚ) :
    ∃ o d t u, (e.updateDelta loss currRtt).val =
    { e with
      operationType := o
      delta := d
      lastDeltaUpdateTs := t
      lastDeltaLossUpdateTs := u } := by
  have hchoose : ∃ o, e.chooseOperation = { e with operationType := o } := by
    unfold chooseOperation
    split_ifs <;> exact ⟨_, rfl⟩
  obtain ⟨o, ho⟩ := hchoose
  simp only [updateDelta, ho, Traced.ite_val, Traced.pure_val]
  split_ifs
  · unfold defaultRule
    split <;> exact ⟨_, _, _, _, rfl⟩
  · have hstart : ∃ d, startDelta { e with operationType := o } =
        { e with operationType := o, delta := d } := by
      unfold startDelta
      split_ifs <;> exact ⟨_, rfl⟩
    obtain ⟨d, hd⟩ := hstart
    obtain ⟨d', t, u, hadj⟩ := adjustDelta_writes { e with operationType := o, delta := d }
      loss currRtt
    simp only [lossRule, Traced.bind_val, Traced.pure_val, hd, hadj]
    exact ⟨_, _, _, _, rfl⟩
  · exact ⟨_, _, _, _, rfl⟩

theorem noteArrival_writes : ∃ (w : Ewma) (d : DataRank) (t : ℚ), w.a = e.interarrival.a ∧
    d.percentile = e.interarrivalRank.percentile ∧ e.noteArrival =
      { e with
        interarrival := w
        interarrivalRank := d
        lastAckTs := t } := by
  unfold noteArrival
  split_ifs
  · exact ⟨e.interarrival.update _, e.interarrivalRank.add _, _, rfl, rfl, rfl⟩
  · exact ⟨e.interarrival, e.interarrivalRank, _, rfl, rfl, rfl⟩

/-- What the loop over `unacked_pkts` can write. -/
structure Swept where
  lastIntersend : ℚ
  lastIntersendRate : ℚ
  lastRtt : ℚ
  lastRttUpdateTs : ℚ
  lastAvgSendRate : ℚ
  unackedPkts : Std.TreeMap ℤ PacketInfo
  nlost : ℤ
  reduceOnLoss : LossReduce

def write (e : Eyenet) (w : Swept) : Eyenet :=
  { e with
    lastIntersend := w.lastIntersend
    lastIntersendRate := w.lastIntersendRate
    lastRtt := w.lastRtt
    lastRttUpdateTs := w.lastRttUpdateTs
    lastAvgSendRate := w.lastAvgSendRate
    unackedPkts := w.unackedPkts
    nlost := w.nlost
    reduceOnLoss := w.reduceOnLoss }

theorem retireOne_writes (seqNo k : ℤ) (pkt : PacketInfo) (s : Sweep) :
    ∃ w, (retireOne seqNo k pkt s).eyenet = s.eyenet.write w := by
  unfold retireOne
  dsimp only
  split_ifs <;> exact ⟨⟨_, _, _, _, _, _, _, _⟩, rfl⟩

theorem retire_writes (h : retire seqNo l s = .ok s') : ∃ w, s'.eyenet = s.eyenet.write w := by
  induction l generalizing s with
  | nil =>
    obtain rfl : s = s' := by simpa [retire] using h
    exact ⟨⟨_, _, _, _, _, _, _, _⟩, rfl⟩
  | cons x l ih =>
    obtain ⟨k, pkt⟩ := x
    simp only [retire] at h
    split_ifs at h
    · obtain rfl : { s with tmpSeq := k } = s' := by simpa using h
      exact ⟨⟨_, _, _, _, _, _, _, _⟩, rfl⟩
    · obtain ⟨w, hw⟩ := retireOne_writes seqNo k pkt s
      obtain ⟨w', hw'⟩ := ih h
      exact ⟨w', by rw [hw', hw]; rfl⟩

theorem sweep_writes (h : e.sweep seqNo = .ok s) : ∃ w, s.eyenet = e.write w := by
  simp only [sweep] at h
  split_ifs at h
  · exact retire_writes h
  · obtain rfl := Except.ok.inj h
    exact ⟨⟨_, _, _, _, _, _, _, _⟩, rfl⟩

/-- All that the loss of a packet can write. -/
theorem punish_writes (s : Sweep) : ∃ o d t u, (punish s).val =
    { s.eyenet with
      operationType := o
      delta := d
      lastDeltaUpdateTs := t
      lastDeltaLossUpdateTs := u } := by
  unfold punish
  split_ifs
  · exact updateDelta_writes _ _ _
  · exact ⟨_, _, _, _, rfl⟩

/-- Whether the window is cut after the loop. -/
def Sweep.cuts (s : Sweep) : Bool :=
  s.reduce || (s.eyenet.reduceOnLoss.update false s.eyenet.currTs s.eyenet.rttSample.currRtt).1

/-- What the last calls of `loss_reduce::update` and the cut come to. -/
theorem settle_eq (s : Sweep) : (settle s).val =
    let e := { (punish s).val with
      reduceOnLoss := (s.eyenet.reduceOnLoss.update false s.eyenet.currTs
        s.eyenet.rttSample.currRtt).2
      nack := s.eyenet.nack + 1 }
    if s.cuts then e.cut.val else e := by
  obtain ⟨o, d, t, u, hp⟩ := punish_writes s
  simp only [settle, reduce, Sweep.cuts, Traced.bind_val, Traced.pure_val, Traced.ite_val, hp]
  split_ifs <;> rfl

/-- All that `on_ack` can write after the loop over `unacked_pkts`. -/
theorem settle_writes : ∃ o d t u r c i j, (settle s).val =
    { s.eyenet with
      operationType := o
      delta := d
      lastDeltaUpdateTs := t
      lastDeltaLossUpdateTs := u
      reduceOnLoss := r
      cwnd := c
      currIntersend := i
      intersend := j
      nack := s.eyenet.nack + 1 } := by
  obtain ⟨o, d, t, u, hp⟩ := punish_writes s
  rw [settle_eq, hp]
  dsimp only
  split_ifs <;> exact ⟨_, _, _, _, _, _, _, _, rfl⟩

/-- The state `update_intersend` starts from in an ack. -/
def atUpdate (e : Eyenet) (sendTs : ℚ) : Eyenet :=
  ((e.sampleRtt (e.currTs - sendTs)).noteArrival.updateDelta false (e.currTs - sendTs)).val

/-- All that an ack can write before `update_intersend`. -/
theorem atUpdate_writes (e : Eyenet) (sendTs : ℚ) : ∃ r m w d t o x y z, e.atUpdate sendTs =
    { e with
      rttSample := r
      rttMin := m
      interarrival := w
      interarrivalRank := d
      lastAckTs := t
      operationType := o
      delta := x
      lastDeltaUpdateTs := y
      lastDeltaLossUpdateTs := z } := by
  obtain ⟨w, d, t, -, -, hn⟩ := noteArrival_writes (e := e.sampleRtt (e.currTs - sendTs))
  obtain ⟨o, x, y, z, h⟩ :=
    updateDelta_writes (e.sampleRtt (e.currTs - sendTs)).noteArrival false (e.currTs - sendTs)
  rw [atUpdate, h, hn]
  exact ⟨_, _, _, _, _, _, _, _, _, rfl⟩

theorem atUpdate_steering : (e.atUpdate sendTs).steering = e.steering := by
  obtain ⟨r, m, w, d, t, o, x, y, z, h⟩ := atUpdate_writes e sendTs
  rw [h]
  rfl

theorem onAck_parts (h : (e.onAck ack recvTs sendTs).val = .ok e') :
    ∃ s, (e.atUpdate sendTs).updateIntersend.val.sweep (ack - 1) = .ok s ∧
      e' = (settle s).val := by
  simp only [onAck, Traced.ite_val, Traced.pure_val] at h
  split_ifs at h
  simp only [absorb, Traced.bind_val] at h
  split at h
  · simp at h
  · rename_i s hs
    exact ⟨s, hs, (Except.ok.inj h).symm⟩

/-- Only `update_intersend` steers. -/
theorem onAck_steering (h : (e.onAck ack recvTs sendTs).val = .ok e') :
    e'.steering = (e.atUpdate sendTs).updateIntersend.val.steering := by
  obtain ⟨s, hs, rfl⟩ := onAck_parts h
  obtain ⟨w, hw⟩ := sweep_writes hs
  obtain ⟨o, d, t, u, r, c, i, j, h⟩ := settle_writes (s := s)
  rw [h, hw]
  rfl

theorem probeOldest_writes : ∃ (w : Ewma) (i r : ℚ), w.a = e.unackedRtt.a ∧ e.probeOldest =
    { e with
      unackedRtt := w
      lastIntersend := i
      lastIntersendRate := r } := by
  unfold probeOldest
  split
  · exact ⟨e.unackedRtt, _, _, rfl, rfl⟩
  · split_ifs
    · exact ⟨e.unackedRtt.update _, _, _, rfl, rfl⟩
    · exact ⟨e.unackedRtt, _, _, rfl, rfl⟩

/-- What the parts of `on_ack` after the sampling of the RTT keep. -/
structure Keeps (e e' : Eyenet) : Prop where
  rttSample : e'.rttSample = e.rttSample
  rttMin : e'.rttMin = e.rttMin
  currTs : e'.currTs = e.currTs
  config : e'.config = e.config

variable {e₁ e₂ e₃ : Eyenet}

theorem Keeps.trans (h₁ : Keeps e₁ e₂) (h₂ : Keeps e₂ e₃) : Keeps e₁ e₃ :=
  ⟨h₂.rttSample.trans h₁.rttSample, h₂.rttMin.trans h₁.rttMin, h₂.currTs.trans h₁.currTs,
    h₂.config.trans h₁.config⟩

theorem updateIntersend_keeps : Keeps e e.updateIntersend.val := by
  obtain ⟨c, b, amt, dir, ts, n, d, i, j, h⟩ := updateIntersend_writes (e := e)
  rw [h]
  exact ⟨rfl, rfl, rfl, rfl⟩

theorem updateDelta_keeps : Keeps e (e.updateDelta loss currRtt).val := by
  obtain ⟨o, d, t, u, h⟩ := updateDelta_writes e loss currRtt
  rw [h]
  exact ⟨rfl, rfl, rfl, rfl⟩

theorem noteArrival_keeps : Keeps e e.noteArrival := by
  obtain ⟨w, d, t, hw, hd, h⟩ := noteArrival_writes (e := e)
  rw [h]
  exact ⟨rfl, rfl, rfl, by simp only [config, hw, hd]⟩

theorem sweep_keeps (h : e.sweep seqNo = .ok s) : Keeps e s.eyenet := by
  obtain ⟨w, hw⟩ := sweep_writes h
  rw [hw]
  exact ⟨rfl, rfl, rfl, rfl⟩

theorem settle_keeps : Keeps s.eyenet (settle s).val := by
  obtain ⟨o, d, t, u, r, c, i, j, h⟩ := settle_writes (s := s)
  rw [h]
  exact ⟨rfl, rfl, rfl, rfl⟩

theorem atUpdate_keeps : Keeps (e.sampleRtt (e.currTs - sendTs)) (e.atUpdate sendTs) :=
  noteArrival_keeps.trans updateDelta_keeps

/-- Past the sampling of the RTT an ack leaves the estimates of the RTT alone. -/
theorem onAck_keeps (h : (e.onAck ack recvTs sendTs).val = .ok e') :
    Keeps (e.sampleRtt (e.currTs - sendTs)) e' := by
  obtain ⟨s, hs, rfl⟩ := onAck_parts h
  exact atUpdate_keeps.trans (updateIntersend_keeps.trans ((sweep_keeps hs).trans settle_keeps))

theorem le_of_onAck (h : (e.onAck ack recvTs sendTs).val = .ok e') : sendTs ≤ e.currTs := by
  by_contra hlt
  simp [onAck, not_le.mp hlt] at h

theorem sampleRtt_config : (e.sampleRtt currRtt).config = e.config := rfl

theorem onPktSent_keeps : Keeps e (e.onPktSent seqNo) := by
  obtain ⟨w, i, r, hw, h⟩ := probeOldest_writes (e := e.track seqNo)
  rw [onPktSent, h]
  exact ⟨rfl, rfl, rfl, by simp only [config, hw]; rfl⟩

theorem onPktSent_steering : (e.onPktSent seqNo).steering = e.steering := by
  obtain ⟨w, i, r, -, h⟩ := probeOldest_writes (e := e.track seqNo)
  rw [onPktSent, h]
  rfl

variable {tr : Transition Eyenet Op ℚ}

/-- All that a call can do. -/
theorem takes_cases (h : machine.Takes tr) :
    (tr.input = .initialise ∧ tr.dst = tr.src.initialise) ∨
    (∃ ts, tr.input = .setTs ts ∧ tr.dst = tr.src.setTs ts) ∨
    (∃ seqNo, tr.input = .onPktSent seqNo ∧ tr.dst = tr.src.onPktSent seqNo) ∨
    ∃ ack recvTs sendTs, tr.input = .onAck ack recvTs sendTs ∧
      (tr.src.onAck ack recvTs sendTs).val = .ok tr.dst := by
  obtain ⟨src, input, out, dst⟩ := tr
  simp only [Machine.Takes, machine] at h
  cases input with
  | initialise => exact .inl ⟨rfl, (congrArg Traced.val (Option.some.inj h)).symm⟩
  | setTs ts => exact .inr (.inl ⟨ts, rfl, (congrArg Traced.val (Option.some.inj h)).symm⟩)
  | onPktSent k =>
    exact .inr (.inr (.inl ⟨k, rfl, (congrArg Traced.val (Option.some.inj h)).symm⟩))
  | onAck a r s => exact .inr (.inr (.inr ⟨a, r, s, rfl, (Traced.accept_eq_some.mp h).1⟩))

theorem takes_config (h : machine.Takes tr) : tr.dst.config = tr.src.config := by
  rcases takes_cases h with ⟨-, hd⟩ | ⟨ts, -, hd⟩ | ⟨k, -, hd⟩ | ⟨a, r, s, -, hd⟩
  · rw [hd]
    rfl
  · rw [hd]
    rfl
  · rw [hd, onPktSent_keeps.config]
  · rw [(onAck_keeps hd).config, sampleRtt_config]

end Eyenet

end TcpEyenet
