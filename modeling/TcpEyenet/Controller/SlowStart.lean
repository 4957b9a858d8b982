import TcpEyenet.Controller.Reset

/-! When slow start ends. -/
namespace TcpEyenet.Eyenet

variable {e e' : Eyenet} {δ recvTs sendTs : ℚ} {ack : ℤ} {u : Utility}
  {trs : List (Transition Eyenet Op ℚ)} {tr : Transition Eyenet Op ℚ}

/-- The target of a window with a queue. -/
def queueTarget (e : Eyenet) : ℚ := e.rttSample.virginRtt.tail / (e.qd * e.delta)

theorem targetCwnd_of_qd (h : e.qd ≠ 0) : e.targetCwnd.val = e.queueTarget := by
  unfold targetCwnd
  rw [if_neg h]
  rfl

/-- An ack past the probes that finds a queue and the window at its target or above. -/
def Overshoots (e : Eyenet) (sendTs : ℚ) : Prop :=
  2 * e.nprobe - 1 ≤ e.nack ∧ (e.atUpdate sendTs).qd ≠ 0 ∧
    (e.atUpdate sendTs).queueTarget ≤ (e.atUpdate sendTs).cwnd

instance (e : Eyenet) (sendTs : ℚ) : Decidable (e.Overshoots sendTs) :=
  inferInstanceAs (Decidable (_ ∧ _ ∧ _))

/-- No call short of a reset brings slow start back. -/
def SlowStartOver (e : Eyenet) : Prop :=
  ∀ trs e', machine.Run e trs e' → (∀ tr ∈ trs, tr.input ≠ .initialise) → e'.ss = false

theorem updateIntersend_ss (h : ¬ e.nack < 2 * e.nprobe - 1) :
    e.updateIntersend.val.ss = (e.steer e.targetCwnd.val).ss := by
  obtain ⟨c, d, hmove⟩ :=
    moveCwnd_writes (e.steer e.targetCwnd.val).clampAmt e.targetCwnd.val
  simp only [updateIntersend, if_neg h, Traced.bind_val, hmove]
  rfl

theorem steer_ss_false (h : e.ss = false) (tCwnd : ℚ) : (e.steer tCwnd).ss = false := by
  rw [steer, if_neg (by simp [h])]
  unfold velocity reviseAmt
  split_ifs <;> exact h

theorem updateIntersend_ss_false (h : e.ss = false) : e.updateIntersend.val.ss = false := by
  by_cases hn : e.nack < 2 * e.nprobe - 1
  · simpa [updateIntersend, hn] using h
  · rw [updateIntersend_ss hn]
    exact steer_ss_false h _

theorem onAck_ss (h : (e.onAck ack recvTs sendTs).val = .ok e') :
    e'.ss = (e.atUpdate sendTs).updateIntersend.val.ss :=
  congrArg Steering.ss (onAck_steering h)

theorem atUpdate_ss : (e.atUpdate sendTs).ss = e.ss := congrArg Steering.ss atUpdate_steering

/-- Only a reset starts slow start. -/
theorem takes_ss (ht : machine.Takes tr) (hi : tr.input ≠ .initialise) (h : tr.src.ss = false) :
    tr.dst.ss = false := by
  rcases takes_cases ht with ⟨hin, -⟩ | ⟨ts, -, hd⟩ | ⟨k, -, hd⟩ | ⟨a, r, s, -, hd⟩
  · exact absurd hin hi
  · rw [hd]
    exact h
  · rw [hd]
    exact (congrArg Steering.ss onPktSent_steering).trans h
  · rw [onAck_ss hd]
    exact updateIntersend_ss_false (atUpdate_ss.trans h)

theorem slowStartOver_iff : e.SlowStartOver ↔ e.ss = false := by
  constructor
  · intro h
    exact h [] e .refl (by simp)
  · intro h trs e' hr hi
    exact hr.invariant (I := fun e => e.ss = false) hi h fun _ => takes_ss

/-- The guard of `do_ss` lets only the target that stands for an empty queue end slow start. -/
theorem overshoot_ss (hd : e.doSs = false) (hn : ¬ e.nack < 2 * e.nprobe - 1) (hq : e.qd ≠ 0)
    (hle : e.queueTarget ≤ e.cwnd) :
    e.updateIntersend.val.ss = false ↔ e.ss = false ∨ e.queueTarget = doubleMax := by
  cases hss : e.ss with
  | false => simp [updateIntersend_ss_false hss]
  | true =>
    have hge : e.cwnd + 1 ≥ e.queueTarget := by linarith
    rw [updateIntersend_ss hn, targetCwnd_of_qd hq, steer, if_pos hss, slowStart]
    by_cases hmax : e.queueTarget = doubleMax
    · rw [if_pos (.inr hmax)]
      dsimp only
      rw [if_pos hge]
      simp [hmax]
    · rw [if_neg (by simp [hd, hmax])]
      simp [hmax, hss]

/-- An ack that finds the window at its target ends slow start only if it was over before, or if
the target is the very number that stands for an empty queue. -/
theorem slowStart_ends_iff (hr : machine.Run (newWith δ u) trs e) (ho : e.Overshoots sendTs)
    (h : (e.onAck ack recvTs sendTs).val = .ok e') :
    e'.SlowStartOver ↔ e.ss = false ∨ (e.atUpdate sendTs).queueTarget = doubleMax := by
  obtain ⟨hn, hq, hle⟩ := ho
  obtain ⟨r, m, w, d, t, o, x, y, z, hat⟩ := atUpdate_writes e sendTs
  have hcfg : e.doSs = false := congrArg Config.doSs (config_run hr)
  have hd : (e.atUpdate sendTs).doSs = false := by
    rw [hat]
    exact hcfg
  have hnack : ¬ (e.atUpdate sendTs).nack < 2 * (e.atUpdate sendTs).nprobe - 1 := by
    rw [hat]
    exact not_lt.mpr hn
  rw [slowStartOver_iff, onAck_ss h, overshoot_ss hd hnack hq hle, atUpdate_ss]

/-- Nineteen acks after the reset, all but the first of them delayed. -/
def queueBuilds : List Op :=
  [.setTs 1, .initialise, .onAck 1 0 0, .setTs 100] ++ List.replicate 18 (.onAck 1 0 90)

theorem queueBuilds_accepted : (machine.exec (new 1) queueBuilds).isSome := by
  decide +kernel

/-- The window of 10 packets is far above the target when the next delayed ack comes. -/
theorem queueBuilds_overshoots :
    ∃ trs e e', machine.exec (new 1) queueBuilds = some (trs, e) ∧ e.Overshoots 90 ∧
      (e.onAck 1 0 90).val = .ok e' ∧ e'.ss = true := by
  have ho : (Option.get _ queueBuilds_accepted).2.Overshoots 90 := by decide +kernel
  have hss : ((Option.get _ queueBuilds_accepted).2.onAck 1 0 90).val.toOption.map Eyenet.ss =
      some true := by
    decide +kernel
  obtain ⟨⟨trs, e⟩, hx⟩ := Option.isSome_iff_exists.mp queueBuilds_accepted
  simp only [hx, Option.get_some] at ho hss
  cases hv : (e.onAck 1 0 90).val with
  | error x => simp [hv, Except.toOption] at hss
  | ok e' => exact ⟨trs, e, e', hx, ho, hv, by simpa [hv, Except.toOption] using hss⟩

theorem slowStart_stays :
    ∃ trs e e', machine.exec (new 1) queueBuilds = some (trs, e) ∧ e.Overshoots 90 ∧
      (e.onAck 1 0 90).val = .ok e' ∧ ¬ e'.SlowStartOver := by
  obtain ⟨trs, e, e', hx, ho, h, hss⟩ := queueBuilds_overshoots
  refine ⟨trs, e, e', hx, ho, h, ?_⟩
  rw [slowStartOver_iff, hss]
  decide

theorem slowStart_ends_iff_queueBuilds :
    ∃ trs e e', machine.exec (new 1) queueBuilds = some (trs, e) ∧
      (e.onAck 1 0 90).val = .ok e' ∧
      (e'.SlowStartOver ↔ e.ss = false ∨ (e.atUpdate 90).queueTarget = doubleMax) := by
  obtain ⟨trs, e, e', hx, ho, h, -⟩ := queueBuilds_overshoots
  exact ⟨trs, e, e', hx, h, slowStart_ends_iff (u := .constant) (Machine.exec_run hx) ho h⟩

end TcpEyenet.Eyenet
