import TcpEyenet.Controller.Cwnd

/-! How often losses cut the window. -/
namespace TcpEyenet

namespace LossReduce

variable {l l₁ l₂ : LossReduce} {ts rtt : ℚ} {f g : Bool}

/-- All that calls at one time with one RTT do to the window of the losses: it stays open and
nothing fires, or it is closed at that time, two RTTs after it was closed last. -/
def Closes (ts rtt : ℚ) (l l' : LossReduce) (fired : Bool) : Prop :=
  (l'.lastWinTs = l.lastWinTs ∧ fired = false) ∨
    (l'.lastWinTs = ts ∧ l.lastWinTs + 2 * rtt < ts)

theorem Closes.refl : Closes ts rtt l l false := .inl ⟨rfl, rfl⟩

theorem closes_update (l : LossReduce) (loss : Bool) (ts rtt : ℚ) :
    Closes ts rtt l (l.update loss ts rtt).2 (l.update loss ts rtt).1 := by
  unfold update
  dsimp only
  generalize (if loss then l.nloss + 1 else l.nloss) = n
  split_ifs with hdue
  · exact .inr ⟨rfl, hdue.1⟩
  · exact .inl ⟨rfl, rfl⟩

theorem Closes.trans (h₁ : Closes ts rtt l l₁ f) (h₂ : Closes ts rtt l₁ l₂ g) :
    Closes ts rtt l l₂ (f || g) := by
  rcases h₁ with ⟨h₁, rfl⟩ | ⟨h₁, hlt⟩
  · rcases h₂ with ⟨h₂, rfl⟩ | ⟨h₂, hlt⟩
    · exact .inl ⟨h₂.trans h₁, rfl⟩
    · exact .inr ⟨h₂, h₁ ▸ hlt⟩
  · refine .inr ⟨?_, hlt⟩
    rcases h₂ with ⟨h₂, -⟩ | ⟨h₂, -⟩
    · exact h₂.trans h₁
    · exact h₂

end LossReduce

namespace Eyenet

open LossReduce

variable {e e' e₀ : Eyenet} {s s' : Sweep} {recvTs sendTs : ℚ} {ack seqNo k : ℤ}
  {pkt : PacketInfo} {l : List (ℤ × PacketInfo)} {trs : List (Transition Eyenet Op ℚ)}
  {tr : Transition Eyenet Op ℚ}

/-- From one state of the loop to another the calls of `loss_reduce::update` have closed, and
`reduce` has kept whether one of them fired. -/
def SweepCloses (s s' : Sweep) : Prop :=
  ∃ f, s'.reduce = (s.reduce || f) ∧ Closes s.eyenet.currTs s.eyenet.rttSample.currRtt
    s.eyenet.reduceOnLoss s'.eyenet.reduceOnLoss f

theorem retireOne_closes (seqNo k : ℤ) (pkt : PacketInfo) (s : Sweep) :
    SweepCloses s (retireOne seqNo k pkt s) := by
  unfold retireOne
  dsimp only
  split_ifs
  · exact ⟨_, rfl, closes_update _ _ _ _⟩
  · exact ⟨false, by simp, .refl⟩

theorem retire_closes (h : retire seqNo l s = .ok s') : SweepCloses s s' := by
  induction l generalizing s with
  | nil =>
    obtain rfl : s = s' := by simpa [retire] using h
    exact ⟨false, by simp, .refl⟩
  | cons x l ih =>
    obtain ⟨k, pkt⟩ := x
    simp only [retire] at h
    split_ifs at h
    · obtain rfl : { s with tmpSeq := k } = s' := by simpa using h
      exact ⟨false, by simp, .refl⟩
    · obtain ⟨f, hf, hone⟩ := retireOne_closes seqNo k pkt s
      obtain ⟨g, hg, hrest⟩ := ih h
      obtain ⟨w, hw⟩ := retireOne_writes seqNo k pkt s
      have hts : (retireOne seqNo k pkt s).eyenet.currTs = s.eyenet.currTs := by
        rw [hw]
        rfl
      have hrtt : (retireOne seqNo k pkt s).eyenet.rttSample = s.eyenet.rttSample := by
        rw [hw]
        rfl
      rw [hts, hrtt] at hrest
      exact ⟨f || g, by rw [hg, hf, Bool.or_assoc], hone.trans hrest⟩

theorem sweep_closes (h : e.sweep seqNo = .ok s) :
    Closes e.currTs e.rttSample.currRtt e.reduceOnLoss s.eyenet.reduceOnLoss s.reduce := by
  simp only [sweep] at h
  split_ifs at h
  · obtain ⟨f, hf, hcl⟩ := retire_closes h
    rw [hf, Bool.false_or]
    exact hcl
  · obtain rfl := Except.ok.inj h
    exact .refl

theorem settle_reduceOnLoss (s : Sweep) : (settle s).val.reduceOnLoss =
    (s.eyenet.reduceOnLoss.update false s.eyenet.currTs s.eyenet.rttSample.currRtt).2 := by
  obtain ⟨o, d, t, u, hp⟩ := punish_writes s
  rw [settle_eq, hp]
  dsimp only
  split_ifs <;> rfl

/-- Whether a call is an ack that cuts the window. -/
def cuts (tr : Transition Eyenet Op ℚ) : Bool :=
  match tr.input with
  | .onAck ack _ sendTs =>
    match (tr.src.atUpdate sendTs).updateIntersend.val.sweep (ack - 1) with
    | .ok s => s.cuts
    | .error _ => false
  | _ => false

/-- The state in which an ack gets to the loop over `unacked_pkts`. -/
theorem updated_keeps : Keeps (e.sampleRtt (e.currTs - sendTs))
    (e.atUpdate sendTs).updateIntersend.val :=
  atUpdate_keeps.trans updateIntersend_keeps

theorem updated_reduceOnLoss :
    (e.atUpdate sendTs).updateIntersend.val.reduceOnLoss = e.reduceOnLoss := by
  obtain ⟨c, b, amt, dir, ts, n, d, i, j, hupd⟩ :=
    updateIntersend_writes (e := e.atUpdate sendTs)
  obtain ⟨r, m, w, d, t, o, x, y, z, hat⟩ := atUpdate_writes e sendTs
  rw [hupd, hat]

/-- The cut goes with a call that fires, and is made once whatever the number of losses. -/
theorem onAck_cuts (h : (e.onAck ack recvTs sendTs).val = .ok e') :
    ∃ s, (e.atUpdate sendTs).updateIntersend.val.sweep (ack - 1) = .ok s ∧
      Closes e.currTs (e.currTs - sendTs) e.reduceOnLoss e'.reduceOnLoss s.cuts ∧
      e'.cwnd = if s.cuts then max 2 ((e.atUpdate sendTs).updateIntersend.val.cwnd * (8 / 10))
        else (e.atUpdate sendTs).updateIntersend.val.cwnd := by
  obtain ⟨s, hs, rfl⟩ := onAck_parts h
  obtain ⟨w, hw⟩ := sweep_writes hs
  have hkeep := sweep_keeps hs
  have hts : s.eyenet.currTs = e.currTs := hkeep.currTs.trans updated_keeps.currTs
  have hrtt : s.eyenet.rttSample.currRtt = e.currTs - sendTs :=
    congrArg RttWin.currRtt (hkeep.rttSample.trans updated_keeps.rttSample)
  have hloop := sweep_closes hs
  rw [updated_reduceOnLoss, updated_keeps.currTs, updated_keeps.rttSample] at hloop
  have hlast := closes_update s.eyenet.reduceOnLoss false s.eyenet.currTs
    s.eyenet.rttSample.currRtt
  refine ⟨s, hs, ?_, ?_⟩
  · rw [settle_reduceOnLoss, Sweep.cuts]
    rw [hts, hrtt] at hlast ⊢
    exact Closes.trans hloop hlast
  · rw [settle_cwnd, hw]
    rfl

theorem takes_ack (ht : machine.Takes tr) (hi : tr.input = .onAck ack recvTs sendTs) :
    (tr.src.onAck ack recvTs sendTs).val = .ok tr.dst := by
  rcases takes_cases ht with ⟨h, -⟩ | ⟨ts, h, -⟩ | ⟨k, h, -⟩ | ⟨a, r, s, h, hd⟩
  all_goals rw [hi] at h
  · simp at h
  · simp at h
  · simp at h
  · obtain ⟨rfl, rfl, rfl⟩ := Op.onAck.inj h
    exact hd

theorem cuts_ack (ht : machine.Takes tr) (hi : tr.input = .onAck ack recvTs sendTs) :
    Closes tr.src.currTs (tr.src.currTs - sendTs) tr.src.reduceOnLoss tr.dst.reduceOnLoss
        (cuts tr) ∧
      tr.dst.cwnd =
        if cuts tr then max 2 ((tr.src.atUpdate sendTs).updateIntersend.val.cwnd * (8 / 10))
        else (tr.src.atUpdate sendTs).updateIntersend.val.cwnd := by
  obtain ⟨s, hs, hcl, hc⟩ := onAck_cuts (takes_ack ht hi)
  have hcuts : cuts tr = s.cuts := by simp only [cuts, hi, hs]
  rw [hcuts]
  exact ⟨hcl, hc⟩

/-- Between two resets only an ack touches the window of the losses. -/
theorem takes_closes (ht : machine.Takes tr) (hi : tr.input ≠ .initialise) :
    (cuts tr = false ∧ tr.dst.reduceOnLoss = tr.src.reduceOnLoss) ∨
      ∃ ack recvTs sendTs, tr.input = .onAck ack recvTs sendTs := by
  rcases takes_cases ht with ⟨h, -⟩ | ⟨ts, h, hd⟩ | ⟨k, h, hd⟩ | ⟨a, r, s, h, -⟩
  · exact absurd h hi
  · left
    rw [hd]
    exact ⟨by simp [cuts, h], rfl⟩
  · left
    obtain ⟨w, i, r, -, hprobe⟩ := probeOldest_writes (e := tr.src.track k)
    rw [hd, onPktSent, hprobe]
    exact ⟨by simp [cuts, h], rfl⟩
  · exact .inr ⟨a, r, s, h⟩

/-- The window of the losses has been closed since every cut so far. -/
def ClosedSince (trs : List (Transition Eyenet Op ℚ)) (e : Eyenet) : Prop :=
  ∀ tr ∈ trs, cuts tr → tr.src.currTs ≤ e.reduceOnLoss.lastWinTs ∧ tr.src.currTs ≤ e.currTs

theorem closedSince_step (ht : machine.Takes tr) (hi : tr.input ≠ .initialise)
    (hts : tr.src.currTs ≤ tr.dst.currTs) (h : ClosedSince trs tr.src) :
    ClosedSince (trs ++ [tr]) tr.dst := by
  intro tr' hm hcut
  rcases takes_closes ht hi with ⟨hnot, hd⟩ | ⟨a, r, s, hin⟩
  · rcases List.mem_append.mp hm with hm | hm
    · obtain ⟨hwin, hclock⟩ := h tr' hm hcut
      exact ⟨hd ▸ hwin, hclock.trans hts⟩
    · rw [List.mem_singleton.mp hm, hnot] at hcut
      simp at hcut
  · obtain ⟨hcl, -⟩ := cuts_ack ht hin
    rcases List.mem_append.mp hm with hm | hm
    · obtain ⟨hwin, hclock⟩ := h tr' hm hcut
      refine ⟨?_, hclock.trans hts⟩
      rcases hcl with ⟨heq, -⟩ | ⟨heq, -⟩
      · exact heq ▸ hwin
      · exact heq ▸ hclock
    · obtain rfl := List.mem_singleton.mp hm
      rcases hcl with ⟨-, hnot⟩ | ⟨heq, -⟩
      · simp [hnot] at hcut
      · exact ⟨heq.ge, hts⟩

/-- Two cuts between two resets lie two RTTs apart, and an ack makes one at most. -/
theorem cuts_apart (hr : machine.Run e₀ trs e) (hi : ∀ tr ∈ trs, tr.input ≠ .initialise)
    (hts : ∀ tr ∈ trs, tr.src.currTs ≤ tr.dst.currTs) :
    (∀ pre tr₁ mid tr₂ post, trs = pre ++ tr₁ :: (mid ++ tr₂ :: post) → cuts tr₁ → cuts tr₂ →
      ∀ ack recvTs sendTs, tr₂.input = .onAck ack recvTs sendTs →
        tr₁.src.currTs + 2 * (tr₂.src.currTs - sendTs) < tr₂.src.currTs) ∧
    ∀ tr ∈ trs, ∀ ack recvTs sendTs, tr.input = .onAck ack recvTs sendTs →
      tr.dst.cwnd =
        if cuts tr then max 2 ((tr.src.atUpdate sendTs).updateIntersend.val.cwnd * (8 / 10))
        else (tr.src.atUpdate sendTs).updateIntersend.val.cwnd := by
  refine ⟨?_, fun tr hm ack recvTs sendTs hin => (cuts_ack (hr.takes hm) hin).2⟩
  intro pre tr₁ mid tr₂ post he hcut₁ hcut₂ ack recvTs sendTs hin
  have hsplit : trs = (pre ++ tr₁ :: mid) ++ tr₂ :: post := by simp [he]
  obtain ⟨hpre, ht⟩ := hr.split hsplit
  have hsince : ClosedSince (pre ++ tr₁ :: mid) tr₂.src := by
    refine hpre.history (I := ClosedSince)
      (C := fun tr => tr.input ≠ .initialise ∧ tr.src.currTs ≤ tr.dst.currTs) ?_
      (by simp [ClosedSince]) fun ts tr ht hC h => closedSince_step ht hC.1 hC.2 h
    intro tr hm
    have hm' : tr ∈ trs := by
      rw [hsplit]
      exact List.mem_append_left _ hm
    exact ⟨hi tr hm', hts tr hm'⟩
  obtain ⟨hwin, -⟩ := hsince tr₁ (by simp) hcut₁
  rcases (cuts_ack ht hin).1 with ⟨-, hnot⟩ | ⟨-, hlt⟩
  · simp [hnot] at hcut₂
  · linarith

def sendFrom (k : ℤ) (n : ℕ) : List Op := (List.range n).map fun i => .onPktSent (k + i)

/-- Three times packets are lost but for the last ones. The first loss cuts the window, the
second only closes the window of the losses, and the third cuts again. -/
def threeLosses : List Op :=
  sendFrom 0 22 ++ [.setTs 10, .onAck 22 0 9] ++ sendFrom 22 20 ++ [.setTs 20, .onAck 42 0 19] ++
    sendFrom 42 22 ++ [.setTs 30, .onAck 64 0 29]

theorem threeLosses_accepted : (machine.exec (new 1).initialise threeLosses).isSome := by
  decide +kernel

theorem cuts_apart_threeLosses :
    ∃ trs e, machine.exec (new 1).initialise threeLosses = some (trs, e) ∧
      trs.countP cuts = 2 ∧
      ∀ pre tr₁ mid tr₂ post, trs = pre ++ tr₁ :: (mid ++ tr₂ :: post) → cuts tr₁ → cuts tr₂ →
        ∀ ack recvTs sendTs, tr₂.input = .onAck ack recvTs sendTs →
          tr₁.src.currTs + 2 * (tr₂.src.currTs - sendTs) < tr₂.src.currTs := by
  have hcuts : (Option.get _ threeLosses_accepted).1.countP cuts = 2 := by decide +kernel
  have hi : ∀ tr ∈ (Option.get _ threeLosses_accepted).1, tr.input ≠ .initialise := by
    decide +kernel
  have hts : ∀ tr ∈ (Option.get _ threeLosses_accepted).1, tr.src.currTs ≤ tr.dst.currTs := by
    decide +kernel
  obtain ⟨⟨trs, e⟩, hx⟩ := Option.isSome_iff_exists.mp threeLosses_accepted
  simp only [hx, Option.get_some] at hcuts hi hts
  exact ⟨trs, e, hx, hcuts, (cuts_apart (Machine.exec_run hx) hi hts).1⟩

end Eyenet

end TcpEyenet
