import TcpEyenet.Controller.Estimates

/-! What a reset leaves behind and why nothing after it can tell. -/
namespace TcpEyenet

/-- The validity flags of the averages, which no reset clears and no call reads. -/
structure Leftover where
  unackedRtt : Bool
  interarrival : Bool
  lastDelta : Bool

namespace Eyenet

def leave (e : Eyenet) (l : Leftover) : Eyenet :=
  { e with
    unackedRtt := { e.unackedRtt with isValid := l.unackedRtt }
    interarrival := { e.interarrival with isValid := l.interarrival }
    lastDelta := { e.lastDelta with isValid := l.lastDelta } }

/-- `curr_rtt` survives a reset too, and only the next ack replaces it. -/
def stale (e : Eyenet) (currRtt : ℚ) : Eyenet :=
  { e with rttSample := { e.rttSample with currRtt := currRtt } }

def Alike (s t : Eyenet) : Prop := ∃ l currRtt, t = (s.leave l).stale currRtt

variable {e s t : Eyenet} {l : Leftover} {tCwnd currRtt recvTs sendTs δ δ₁ δ₂ : ℚ} {ack seqNo k : ℤ}
  {loss pending : Bool} {trs trs₁ trs₂ : List (Transition Eyenet Op ℚ)}

@[simp] theorem leave_ite (p : Prop) [Decidable p] :
    (if p then s else t).leave l = if p then s.leave l else t.leave l :=
  apply_ite (leave · l) p s t

theorem slowStart_leave : (e.leave l).slowStart tCwnd = (e.slowStart tCwnd).leave l := by
  simp only [slowStart, leave_ite]
  rfl

theorem reviseAmt_leave : (e.leave l).reviseAmt = e.reviseAmt.leave l := by
  simp only [reviseAmt, leave_ite]
  rfl

theorem velocity_leave : (e.leave l).velocity = e.velocity.leave l := by
  simp only [velocity, reviseAmt_leave]
  rfl

theorem steer_leave : (e.leave l).steer tCwnd = (e.steer tCwnd).leave l := by
  simp only [steer, leave_ite, slowStart_leave, velocity_leave]
  rfl

theorem clampAmt_leave : (e.leave l).clampAmt = e.clampAmt.leave l := rfl

theorem moveCwnd_leave : ((e.leave l).moveCwnd tCwnd).val = (e.moveCwnd tCwnd).val.leave l := by
  simp only [moveCwnd, leave_ite, Traced.bind_val, Traced.ite_val, Traced.pure_val]
  rfl

theorem pace_leave : (e.leave l).pace.val = e.pace.val.leave l := rfl

theorem targetCwnd_leave : (e.leave l).targetCwnd = e.targetCwnd := rfl

theorem updateIntersend_leave :
    (e.leave l).updateIntersend.val = e.updateIntersend.val.leave l := by
  simp only [updateIntersend, leave_ite, Traced.ite_val, Traced.bind_val, Traced.pure_val,
    targetCwnd_leave, steer_leave, clampAmt_leave, moveCwnd_leave, pace_leave]
  rfl

theorem chooseOperation_leave : (e.leave l).chooseOperation = e.chooseOperation.leave l := by
  simp only [chooseOperation, leave_ite]
  rfl

theorem defaultRule_leave : (e.leave l).defaultRule currRtt = (e.defaultRule currRtt).leave l := by
  simp only [defaultRule, leave_ite]
  rfl

theorem adjustDelta_leave :
    ((e.leave l).adjustDelta loss currRtt).val = (e.adjustDelta loss currRtt).val.leave l := by
  simp only [adjustDelta, leave_ite, Traced.ite_val, Traced.bind_val, Traced.pure_val]
  rfl

theorem startDelta_leave : (e.leave l).startDelta = e.startDelta.leave l := by
  simp only [startDelta, leave_ite]
  rfl

theorem capDelta_leave : (e.leave l).capDelta = e.capDelta.leave l := rfl

theorem lossRule_leave :
    ((e.leave l).lossRule loss currRtt).val = (e.lossRule loss currRtt).val.leave l := by
  simp only [lossRule, Traced.bind_val, Traced.pure_val, startDelta_leave, adjustDelta_leave,
    capDelta_leave]

theorem updateDelta_leave :
    ((e.leave l).updateDelta loss currRtt).val = (e.updateDelta loss currRtt).val.leave l := by
  simp only [updateDelta, leave_ite, Traced.ite_val, Traced.pure_val, chooseOperation_leave,
    defaultRule_leave, lossRule_leave]
  rfl

theorem noteArrival_leave : ∃ l', (e.leave l).noteArrival = e.noteArrival.leave l' := by
  simp only [noteArrival, leave_ite]
  by_cases h : e.lastAckTs ≠ 0
  · refine ⟨{ l with interarrival := true }, ?_⟩
    rw [if_pos h]
    exact if_pos h
  · refine ⟨l, ?_⟩
    rw [if_neg h]
    exact if_neg h

def Sweep.leave (s : Sweep) (l : Leftover) : Sweep := { s with eyenet := s.eyenet.leave l }

theorem retireOne_leave {pkt : PacketInfo} {s : Sweep} :
    retireOne seqNo k pkt (s.leave l) = (retireOne seqNo k pkt s).leave l := by
  simp only [retireOne, apply_ite (Sweep.leave · l)]
  rfl

theorem retire_leave {es : List (ℤ × PacketInfo)} {s : Sweep} :
    retire seqNo es (s.leave l) = (retire seqNo es s).map (Sweep.leave · l) := by
  induction es generalizing s with
  | nil => rfl
  | cons x es ih =>
    obtain ⟨k, pkt⟩ := x
    simp only [retire, retireOne_leave, ih, apply_ite (Except.map (Sweep.leave · l))]
    rfl

theorem sweep_leave : (e.leave l).sweep seqNo = (e.sweep seqNo).map (Sweep.leave · l) := by
  simp only [sweep, apply_ite (Except.map (Sweep.leave · l))]
  rw [← retire_leave]
  rfl

theorem punish_leave {s : Sweep} : (punish (s.leave l)).val = (punish s).val.leave l := by
  simp only [punish, leave_ite, Traced.ite_val, Traced.pure_val, ← updateDelta_leave]
  rfl

theorem cut_leave : (e.leave l).cut.val = e.cut.val.leave l := rfl

theorem reduce_leave : ((e.leave l).reduce pending).val = (e.reduce pending).val.leave l := by
  simp only [reduce, leave_ite, Traced.ite_val, Traced.pure_val, ← cut_leave]
  rfl

theorem settle_leave {s : Sweep} : (settle (s.leave l)).val = (settle s).val.leave l := by
  simp only [settle, Traced.bind_val, Traced.pure_val, punish_leave, reduce_leave]
  rfl

theorem absorb_leave :
    ((e.leave l).absorb seqNo currRtt).val = (e.absorb seqNo currRtt).val.map (leave · l) := by
  simp only [absorb, Traced.bind_val, updateDelta_leave, updateIntersend_leave, sweep_leave]
  generalize (e.updateDelta false currRtt).val.updateIntersend.val.sweep seqNo = r
  cases r with
  | error x => rfl
  | ok s => exact congrArg Except.ok settle_leave

theorem onAck_leave (e : Eyenet) (l : Leftover) (ack : ℤ) (recvTs sendTs : ℚ) :
    ∃ l', ((e.leave l).onAck ack recvTs sendTs).val =
      (e.onAck ack recvTs sendTs).val.map (leave · l') := by
  obtain ⟨l', hl'⟩ := noteArrival_leave (e := e.sampleRtt (e.currTs - sendTs)) (l := l)
  refine ⟨l', ?_⟩
  simp only [onAck, Traced.ite_val, Traced.pure_val, apply_ite (Except.map (leave · l')),
    ← absorb_leave, ← hl']
  rfl

/-- An ack samples the RTT before it reads the last sample. -/
theorem onAck_stale : (e.stale currRtt).onAck ack recvTs sendTs = e.onAck ack recvTs sendTs := rfl

theorem probeOldest_leave (hl : l.unackedRtt = true) :
    (e.leave l).probeOldest = e.probeOldest.leave l := by
  obtain ⟨_, _, _⟩ := l
  subst hl
  simp only [probeOldest]
  rw [show (e.leave _).unackedPkts = e.unackedPkts from rfl]
  cases e.unackedPkts.toList.head? with
  | none => rfl
  | some x =>
    simp only [leave_ite]
    rfl

theorem onPktSent_leave (e : Eyenet) (l : Leftover) (seqNo : ℤ) :
    ∃ l', (e.leave l).onPktSent seqNo = (e.onPktSent seqNo).leave l' := by
  refine ⟨{ l with unackedRtt := true }, ?_⟩
  have htrack : (e.leave l).track seqNo = (e.track seqNo).leave { l with unackedRtt := true } := rfl
  simp only [onPktSent, htrack, probeOldest_leave]
  rfl

theorem probeOldest_stale : (e.stale currRtt).probeOldest = e.probeOldest.stale currRtt := by
  simp only [probeOldest]
  rw [show (e.stale currRtt).unackedPkts = e.unackedPkts from rfl]
  cases e.unackedPkts.toList.head? with
  | none => rfl
  | some x =>
    simp only [apply_ite (stale · currRtt)]
    rfl

theorem onPktSent_stale :
    (e.stale currRtt).onPktSent seqNo = (e.onPktSent seqNo).stale currRtt := by
  have htrack : (e.stale currRtt).track seqNo = (e.track seqNo).stale currRtt := rfl
  simp only [onPktSent, htrack, probeOldest_stale]
  rfl

theorem Alike.refl (e : Eyenet) : Alike e e :=
  ⟨⟨e.unackedRtt.isValid, e.interarrival.isValid, e.lastDelta.isValid⟩, e.rttSample.currRtt, rfl⟩

theorem Alike.cwnd (h : Alike s t) : s.cwnd = t.cwnd := by
  obtain ⟨l, currRtt, rfl⟩ := h
  rfl

theorem Alike.intersend (h : Alike s t) : s.intersend = t.intersend := by
  obtain ⟨l, currRtt, rfl⟩ := h
  rfl

theorem Alike.rto (h : Alike s t) : s.rto = t.rto := by
  obtain ⟨l, currRtt, rfl⟩ := h
  rfl

theorem Alike.setTs (h : Alike s t) (ts : ℚ) : Alike (s.setTs ts) (t.setTs ts) := by
  obtain ⟨l, currRtt, rfl⟩ := h
  exact ⟨l, currRtt, rfl⟩

theorem Alike.initialise (h : Alike s t) : Alike s.initialise t.initialise := by
  obtain ⟨l, currRtt, rfl⟩ := h
  exact ⟨l, currRtt, rfl⟩

theorem Alike.onPktSent (h : Alike s t) (seqNo : ℤ) :
    Alike (s.onPktSent seqNo) (t.onPktSent seqNo) := by
  obtain ⟨l, currRtt, rfl⟩ := h
  obtain ⟨l', hl'⟩ := onPktSent_leave s l seqNo
  exact ⟨l', currRtt, onPktSent_stale.trans (congrArg (stale · currRtt) hl')⟩

theorem alike_lockstep :
    machine.Lockstep (fun _ => True) (fun _ => (none : Option Unit)) Alike := by
  rintro s t op - h
  cases op with
  | initialise => exact .some ⟨h.initialise, rfl⟩
  | setTs ts => exact .some ⟨h.setTs ts, rfl⟩
  | onPktSent k => exact .some ⟨h.onPktSent k, rfl⟩
  | onAck ack recvTs sendTs =>
    obtain ⟨l, currRtt, rfl⟩ := h
    obtain ⟨l', hl'⟩ := onAck_leave s l ack recvTs sendTs
    simp only [machine, onAck_stale, Traced.accept, hl']
    generalize (s.onAck ack recvTs sendTs).val = r
    cases r with
    | error x => exact .none
    | ok e => exact .some ⟨⟨l', e.rttSample.currRtt, rfl⟩, by simp⟩

/-- After a reset only the clock and what was fixed at construction are left. -/
theorem initialise_alike (hc : s.config = t.config) (hts : s.currTs = t.currTs)
    (hs : s.rttSample.Inv) (ht : t.rttSample.Inv) (hu : s.utilityType = .constant) :
    Alike s.initialise t.initialise := by
  have hu' : t.utilityType = .constant := (congrArg Config.utilityType hc).symm.trans hu
  obtain ⟨hprobe, hdef, hss, -, hw, hrank⟩ := Config.mk.inj hc
  obtain ⟨hw₁, hw₂, hw₃⟩ := by simpa only [Prod.mk.injEq] using hw
  refine ⟨⟨t.unackedRtt.isValid, t.interarrival.isValid, t.lastDelta.isValid⟩,
    t.rttSample.currRtt, ?_⟩
  simp only [initialise, leave, stale, Ewma.clear, RttWin.clear, Win.clear, DataRank.clear,
    LossReduce.clear, hs.isMin, ht.isMin, hs.isMax, ht.isMax, hprobe, hdef, hss, hw₁, hw₂, hw₃,
    hrank, hts, hu, hu', if_true]

theorem config_run {u : Utility} (hr : machine.Run (newWith δ u) trs e) :
    e.config = (newWith δ u).config :=
  hr.invariant (I := fun e => e.config = (newWith δ u).config) (C := fun _ => True) (by simp) rfl
    fun _ ht _ h => (takes_config ht).trans h

/-- Whatever two controllers did before, a reset at one time makes them alike. -/
theorem reset_alike (h₁ : machine.Run (new δ₁) trs₁ s) (h₂ : machine.Run (new δ₂) trs₂ t) (ts : ℚ) :
    Alike (s.setTs ts).initialise (t.setTs ts).initialise := by
  have hs : s.config = (new δ₁).config := config_run (u := .constant) h₁
  have ht : t.config = (new δ₂).config := config_run (u := .constant) h₂
  have hrs : s.rttSample.Inv := rtt_run (u := .constant) h₁
  have hrt : t.rttSample.Inv := rtt_run (u := .constant) h₂
  exact initialise_alike (s := s.setTs ts) (t := t.setTs ts) (hs.trans ht.symm) rfl hrs hrt
    (congrArg Config.utilityType hs)

/-- Two controllers cannot be told apart after a reset at one time, whatever they did before. -/
theorem reset_forgets (h₁ : machine.Run (new δ₁) trs₁ s) (h₂ : machine.Run (new δ₂) trs₂ t)
    (ts : ℚ) (ops : List Op) :
    machine.observe (fun e => (e.cwnd, e.intersend, e.rto)) (s.setTs ts).initialise ops =
      machine.observe (fun e => (e.cwnd, e.intersend, e.rto)) (t.setTs ts).initialise ops := by
  refine alike_lockstep.observe_eq ?_ (by simp) (reset_alike h₁ h₂ ts)
  intro s t h
  simp only [h.cwnd, h.intersend, h.rto]

/-- One flow on a fresh controller. -/
def oneFlow : List Op :=
  [.setTs 1, .initialise, .onPktSent 0, .setTs 40, .onAck 1 0 1]

theorem oneFlow_accepted : (machine.exec (new 1) oneFlow).isSome := by
  decide +kernel

theorem reset_forgets_oneFlow :
    machine.observe (fun e => (e.cwnd, e.intersend, e.rto))
        (((machine.exec (new 1) oneFlow).get oneFlow_accepted).2.setTs 7).initialise oneFlow =
      machine.observe (fun e => (e.cwnd, e.intersend, e.rto)) ((new 3).setTs 7).initialise
        oneFlow :=
  reset_forgets (Machine.exec_get_run oneFlow_accepted) .refl 7 oneFlow

end Eyenet

end TcpEyenet
