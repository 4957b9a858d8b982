import TcpEyenet.Controller.Frame
import TcpEyenet.RttOrder

/-! The order among the estimates of the RTT, as the controller meets it. -/
namespace TcpEyenet.Eyenet

variable {e : Eyenet} {currRtt recvTs sendTs δ : ℚ} {ack : ℤ} {u : Utility}
  {trs : List (Transition Eyenet Op ℚ)} {tr : Transition Eyenet Op ℚ}

theorem not_rttBelowMin (h : (e.sampleRtt currRtt).rttSample.Inv) :
    ¬ (e.sampleRtt currRtt).rttSample.virginRtt.tail < (e.sampleRtt currRtt).rttMin :=
  not_lt.mpr (RttWin.min_le_virgin h)

theorem qd_nonneg {e' : Eyenet} (h : (e.sampleRtt currRtt).rttSample.Inv)
    (hk : Keeps (e.sampleRtt currRtt) e') : 0 ≤ e'.qd := by
  rw [qd, hk.rttSample, hk.rttMin]
  exact sub_nonneg.mpr (RttWin.min_le_virgin h)

theorem rtt_step (ht : machine.Takes tr) (h : tr.src.rttSample.Inv) : tr.dst.rttSample.Inv := by
  rcases takes_cases ht with ⟨-, hd⟩ | ⟨ts, -, hd⟩ | ⟨k, -, hd⟩ | ⟨a, r, s, -, hd⟩
  · rw [hd]
    exact RttWin.inv_clear h
  · rw [hd]
    exact h
  · rwa [hd, onPktSent_keeps.rttSample]
  · rw [(onAck_keeps hd).rttSample]
    exact RttWin.inv_add h (sub_nonneg.mpr (le_of_onAck hd))

theorem rtt_run (hr : machine.Run (newWith δ u) trs e) : e.rttSample.Inv :=
  hr.invariant (I := fun e => e.rttSample.Inv) (C := fun _ => True) (by simp) RttWin.inv_new
    fun _ ht _ => rtt_step ht

theorem retire_error {seqNo : ℤ} {l : List (ℤ × PacketInfo)} {s : Sweep} {x : Exit}
    (h : retire seqNo l s = .error x) : x = .malformedUnacked := by
  induction l generalizing s with
  | nil => simp [retire] at h
  | cons y l ih =>
    obtain ⟨k, pkt⟩ := y
    simp only [retire] at h
    split_ifs at h
    · exact (Except.error.inj h).symm
    · exact ih h

theorem sweep_error {seqNo : ℤ} {x : Exit} (h : e.sweep seqNo = .error x) :
    x = .malformedUnacked := by
  simp only [sweep] at h
  split_ifs at h
  exact retire_error h

theorem absorb_ne_rttBelowMin {seqNo : ℤ} :
    (e.absorb seqNo currRtt).val ≠ .error .rttBelowMin := by
  intro hval
  simp only [absorb, Traced.bind_val] at hval
  split at hval
  · rename_i x hsweep
    obtain rfl := sweep_error hsweep
    simp at hval
  · simp at hval

theorem onAck_ne_rttBelowMin (h : e.rttSample.Inv) :
    (e.onAck ack recvTs sendTs).val ≠ .error .rttBelowMin := by
  intro hval
  simp only [onAck, Traced.ite_val, Traced.pure_val] at hval
  split_ifs at hval with hlt hexit
  · simp at hval
  · exact not_rttBelowMin (RttWin.inv_add h (sub_nonneg.mpr (not_lt.mp hlt))) hexit
  · exact absorb_ne_rttBelowMin hval

/-- The first part is about the estimator alone, the second about any run of a controller. -/
theorem estimates_ordered :
    (∀ (ops : List RttWin.Op) (v ts : ℚ), (∀ op ∈ ops, op.Nonneg) → 0 ≤ v →
      ((ops ++ [RttWin.Op.add v ts]).foldl RttWin.apply RttWin.new).Ordered) ∧
    ∀ (δ : ℚ) (u : Utility) (trs : List (Transition Eyenet Op ℚ)) (e : Eyenet),
      machine.Run (newWith δ u) trs e → ∀ (ack : ℤ) (recvTs sendTs : ℚ),
        (e.onAck ack recvTs sendTs).val ≠ .error .rttBelowMin ∧
        (sendTs ≤ e.currTs →
          0 ≤ ((e.sampleRtt (e.currTs - sendTs)).noteArrival.updateDelta false
            (e.currTs - sendTs)).val.qd) := by
  refine ⟨?_, ?_⟩
  · intro ops v ts hops hv
    rw [List.foldl_append]
    exact RttWin.add_ordered (RttWin.inv_ops RttWin.inv_new hops) hv
  · intro δ u trs e hr ack recvTs sendTs
    refine ⟨onAck_ne_rttBelowMin (rtt_run hr), fun hle => ?_⟩
    exact qd_nonneg (RttWin.inv_add (rtt_run hr) (sub_nonneg.mpr hle))
      (noteArrival_keeps.trans updateDelta_keeps)

/-- The clock of the samples goes back, and a reset lies between them. -/
theorem estimates_ordered_twoSamples :
    ([RttWin.Op.add 7 3, .clear, .add 5 1].foldl RttWin.apply RttWin.new).Ordered :=
  estimates_ordered.1 [.add 7 3, .clear] 5 1 (by simp [RttWin.Op.Nonneg]) (by norm_num)

end TcpEyenet.Eyenet
