import TcpEyenet.Controller.Estimates
import TcpEyenet.Controller.Sweep

/-! The controller invariant, carried through every part of `on_ack`. -/
namespace TcpEyenet.Eyenet

open Traced

/-- What holds between any two calls and parts of calls; `p` is what may excuse a `delta`
above its default. -/
structure Sound (p : Prop) (e : Eyenet) : Prop where
  cwnd : 2 ≤ e.cwnd
  updateAmt : 1 ≤ e.updateAmt
  delta : 0 < e.delta
  paced : e.intersend = e.currIntersend
  intersend : 0 ≤ e.intersend
  defaultDelta : 0 < e.defaultDelta
  operation : e.operationType ≠ .tcp
  rtt : e.rttSample.Inv
  keys : ∀ k ∈ e.unackedPkts, 0 ≤ k
  capped : p ∨ e.delta ≤ e.defaultDelta

variable {p : Prop} {e : Eyenet} {loss : Bool} {currRtt tCwnd ts c : ℚ} {seqNo k d : ℤ}

theorem Sound.mono {q : Prop} (h : Sound p e) (hpq : p → q) : Sound q e :=
  { h with capped := h.capped.imp_left hpq }

theorem one_le_raiseAmt {x : ℚ} (h : 1 ≤ x) : 1 ≤ raiseAmt x := by
  unfold raiseAmt
  split
  · exact h.trans (by norm_num [updateAmtStep])
  · have htr : 1 ≤ truncate x := by simpa [truncate] using truncate_mono h
    exact_mod_cast (by omega : 1 ≤ truncate x * 2)

theorem Sound.slowStart (h : Sound p e) : Sound p (e.slowStart tCwnd) := by
  have hc : 2 ≤ e.cwnd + 1 := by linarith [h.cwnd]
  unfold Eyenet.slowStart
  dsimp only
  split_ifs
  · exact { h with cwnd := hc }
  · exact { h with cwnd := hc }
  · exact h

theorem Sound.reviseAmt (h : Sound p e) : Sound p e.reviseAmt := by
  unfold Eyenet.reviseAmt
  split_ifs
  · exact { h with updateAmt := one_le_raiseAmt h.updateAmt }
  · exact h
  · exact { h with updateAmt := le_rfl }

theorem Sound.velocity (h : Sound p e) : Sound p e.velocity := { h.reviseAmt with }

theorem Sound.steer (h : Sound p e) : Sound p (e.steer tCwnd) := by
  unfold Eyenet.steer
  split_ifs
  · exact h.slowStart
  · exact h.velocity

theorem Sound.clampAmt (h : Sound p e) : Sound p e.clampAmt :=
  { h with updateAmt := le_max_right _ _ }

theorem Sound.moveCwnd (h : Sound p e) :
    Sat (0 < ·) (fun e' => ∃ c d, e' = { e with cwnd := c, updateDir := d })
      (e.moveCwnd tCwnd) := by
  have hdiv : 0 < e.delta * e.cwnd := mul_pos h.delta (by linarith [h.cwnd])
  refine sat_bind (Q := fun _ => True) ⟨by simpa [div] using hdiv, trivial⟩ ?_
  intro step _
  split_ifs
  · exact sat_pure ⟨_, _, rfl⟩
  · exact sat_pure ⟨_, _, rfl⟩

/-- Pacing repairs any window. -/
theorem Sound.pace (h : Sound p e) :
    Sat (0 < ·) (Sound p) (pace { e with cwnd := c, updateDir := d }) := by
  have hc : 2 ≤ max 2 c := le_max_left _ _
  refine sat_bind (Q := (0 ≤ ·)) ⟨by simp [div], ?_⟩ ?_
  · have hrtt := RttWin.virgin_nonneg h.rtt
    exact div_nonneg (by linarith) (by linarith)
  · intro i hi
    exact sat_pure { h with cwnd := hc, paced := rfl, intersend := hi }

theorem targetCwnd_sat (h : Sound p e) (hq : 0 ≤ e.qd) :
    Sat (0 < ·) (fun _ => True) e.targetCwnd := by
  unfold targetCwnd
  split_ifs with h0
  · exact sat_pure trivial
  · have hpos : 0 < e.qd * e.delta := mul_pos (lt_of_le_of_ne hq (Ne.symm h0)) h.delta
    exact ⟨by simpa [div] using hpos, trivial⟩

theorem Sound.updateIntersend (h : Sound p e) (hq : 0 ≤ e.qd) :
    Sat (0 < ·) (Sound p) e.updateIntersend := by
  unfold Eyenet.updateIntersend
  split_ifs
  · exact sat_pure h
  · apply sat_bind (targetCwnd_sat h hq)
    intro tCwnd _
    apply sat_bind h.steer.clampAmt.moveCwnd
    rintro _ ⟨c, d, rfl⟩
    exact h.steer.clampAmt.pace

theorem Sound.chooseOperation (h : Sound p e) : Sound p e.chooseOperation := by
  unfold Eyenet.chooseOperation
  split_ifs
  · exact { h with operation := (by decide : Operations.loss ≠ .tcp) }
  · exact { h with operation := (by decide : Operations.default ≠ .tcp) }
  · exact h

@[simp] theorem chooseOperation_lastDeltaUpdateTs :
    e.chooseOperation.lastDeltaUpdateTs = e.lastDeltaUpdateTs := by
  unfold Eyenet.chooseOperation
  split_ifs <;> rfl

theorem Sound.defaultRule (h : Sound (e.lastDeltaUpdateTs = 0) e) :
    Sound False (e.defaultRule currRtt) := by
  unfold Eyenet.defaultRule
  split
  · refine { h with delta := ?_, capped := .inr (min_le_right _ _) }
    refine lt_min ?_ h.defaultDelta
    split
    · exact h.defaultDelta
    · exact h.delta
  · rename_i hskip
    exact h.mono fun h0 => hskip (.inl h0)

theorem Sound.adjustDelta (h : Sound p e) :
    Sat (0 < ·) (Sound True) (e.adjustDelta loss currRtt) := by
  unfold Eyenet.adjustDelta
  split_ifs
  · exact sat_pure { h with delta := mul_pos h.delta two_pos, capped := .inl trivial }
  · have hinv : 0 < 1 / e.delta := one_div_pos.mpr h.delta
    refine sat_bind (Q := (0 < ·)) ⟨by simpa [div] using h.delta, hinv⟩ ?_
    intro inv hi
    refine sat_bind (Q := (0 < ·)) ⟨?_, ?_⟩ ?_
    · simpa [div] using add_pos hi one_pos
    · exact one_div_pos.mpr (add_pos hi one_pos)
    · intro delta hd
      exact sat_pure { h with delta := hd, capped := .inl trivial }
  · exact sat_pure (h.mono fun _ => trivial)

theorem Sound.startDelta (h : Sound p e) : Sound True e.startDelta := by
  unfold Eyenet.startDelta
  split_ifs
  · exact { h with delta := h.defaultDelta, capped := .inl trivial }
  · exact h.mono fun _ => trivial

theorem Sound.capDelta (h : Sound p e) : Sound False e.capDelta :=
  { h with delta := lt_min h.delta h.defaultDelta, capped := .inr (min_le_right _ _) }

theorem Sound.lossRule (h : Sound p e) :
    Sat (0 < ·) (Sound False) (e.lossRule loss currRtt) :=
  sat_bind h.startDelta.adjustDelta fun _ h' => sat_pure h'.capDelta

/-- Whatever `delta` was, one update brings it under its default. -/
theorem Sound.updateDelta (h : Sound (e.lastDeltaUpdateTs = 0) e) :
    Sat (0 < ·) (Sound False) (e.updateDelta loss currRtt) := by
  have hop := h.chooseOperation
  rw [← chooseOperation_lastDeltaUpdateTs] at hop
  simp only [Eyenet.updateDelta]
  split_ifs with hd hl
  · exact sat_pure hop.defaultRule
  · exact hop.lossRule
  · obtain ⟨hnot, hcoop⟩ := not_or.mp hl
    have htcp := hop.operation
    cases hc : e.chooseOperation.operationType with
    | default => exact absurd ⟨hc, hcoop⟩ hd
    | tcp => exact absurd hc htcp
    | loss => exact absurd hc hnot

theorem Sound.sampleRtt (h : Sound p e) (hr : 0 ≤ currRtt) : Sound p (e.sampleRtt currRtt) :=
  { h with rtt := RttWin.inv_add h.rtt hr }

theorem Sound.noteArrival (h : Sound p e) : Sound p e.noteArrival := by
  unfold Eyenet.noteArrival
  split_ifs
  · exact { h with }
  · exact { h with }

@[simp] theorem noteArrival_lastDeltaUpdateTs :
    e.noteArrival.lastDeltaUpdateTs = e.lastDeltaUpdateTs := by
  unfold Eyenet.noteArrival
  split_ifs <;> rfl

theorem Sound.retireOne {s : Sweep} {pkt : PacketInfo} (h : Sound p s.eyenet) :
    Sound p (retireOne seqNo k pkt s).eyenet := by
  have hkeys : ∀ j ∈ s.eyenet.unackedPkts.erase k, 0 ≤ j := by
    intro j hj
    exact h.keys j (Std.TreeMap.mem_of_mem_erase hj)
  unfold Eyenet.retireOne
  dsimp only
  split_ifs
  · exact { h with keys := hkeys }
  · exact { h with keys := hkeys }

theorem Sound.retire {l : List (ℤ × PacketInfo)} {s s' : Sweep} (h : Sound p s.eyenet)
    (hs : Eyenet.retire seqNo l s = .ok s') : Sound p s'.eyenet := by
  induction l generalizing s with
  | nil =>
    obtain rfl : s = s' := by simpa [Eyenet.retire] using hs
    exact h
  | cons x l ih =>
    obtain ⟨k, pkt⟩ := x
    simp only [Eyenet.retire] at hs
    split_ifs at hs
    · obtain rfl : { s with tmpSeq := k } = s' := by simpa using hs
      exact h
    · exact ih h.retireOne hs

theorem Sound.sweep (h : Sound p e) (seqNo : ℤ) :
    ∃ s, e.sweep seqNo = .ok s ∧ Sound p s.eyenet := by
  obtain ⟨s, hs, -⟩ := sweep_ok h.keys seqNo
  refine ⟨s, hs, ?_⟩
  simp only [Eyenet.sweep] at hs
  split_ifs at hs
  · exact Sound.retire h hs
  · obtain rfl := Except.ok.inj hs
    exact h

theorem Sound.punish {s : Sweep} (h : Sound False s.eyenet) :
    Sat (0 < ·) (Sound False) (punish s) := by
  unfold Eyenet.punish
  split_ifs
  · exact (h.mono False.elim).updateDelta
  · exact sat_pure h

theorem Sound.reduce {pending : Bool} (h : Sound p e) :
    Sat (0 < ·) (Sound p) (e.reduce pending) := by
  have hl : Sound p { e with
      reduceOnLoss := (e.reduceOnLoss.update false e.currTs e.rttSample.currRtt).2 } :=
    { h with }
  simp only [Eyenet.reduce]
  split_ifs
  · exact hl.pace
  · exact sat_pure hl

theorem Sound.settle {s : Sweep} (h : Sound False s.eyenet) :
    Sat (0 < ·) (Sound False) (settle s) :=
  sat_bind h.punish fun _ h₁ => sat_bind h₁.reduce fun _ h₂ => sat_pure { h₂ with }

theorem Sound.absorb (h : Sound (e.lastDeltaUpdateTs = 0) e)
    (hq : ∀ e', Keeps e e' → 0 ≤ e'.qd) :
    Sat (0 < ·) (fun r => ∃ e', r = .ok e' ∧ Sound False e') (e.absorb seqNo currRtt) := by
  apply sat_bind (h.updateDelta.and updateDelta_keeps)
  rintro e₁ ⟨h₁, hk₁⟩
  apply sat_bind (h₁.updateIntersend (hq e₁ hk₁))
  intro e₂ h₂
  obtain ⟨s, hsweep, hs⟩ := h₂.sweep seqNo
  rw [hsweep]
  exact sat_bind hs.settle fun e₃ h₃ => sat_pure ⟨e₃, rfl, h₃⟩

/-- An ack that is not from the future returns and divides by positive numbers only. -/
theorem Sound.onAck {sendTs : ℚ} (h : Sound (e.lastDeltaUpdateTs = 0) e) (ack : ℤ) (recvTs : ℚ)
    (hs : sendTs ≤ e.currTs) :
    Sat (0 < ·) (fun r => ∃ e', r = .ok e' ∧ Sound False e') (e.onAck ack recvTs sendTs) := by
  have hsample := h.sampleRtt (sub_nonneg.mpr hs)
  simp only [Eyenet.onAck, if_neg (not_lt.mpr hs), if_neg (not_rttBelowMin hsample.rtt)]
  refine Sound.absorb ?_ fun e' hk => qd_nonneg hsample.rtt (noteArrival_keeps.trans hk)
  rw [noteArrival_lastDeltaUpdateTs]
  exact hsample.noteArrival

/-- The reset needs little of the state it finds. -/
theorem initialise_sound (hn : 2 ≤ e.nprobe) (hd : 0 < e.delta) (hdef : 0 < e.defaultDelta)
    (hr : e.rttSample.Inv) : Sound True e.initialise := by
  have hcwnd : (2 : ℚ) ≤ e.nprobe := by exact_mod_cast hn
  refine
    { cwnd := hcwnd
      updateAmt := le_rfl
      delta := ?_
      paced := rfl
      intersend := le_rfl
      defaultDelta := hdef
      operation := (by decide : Operations.default ≠ .tcp)
      rtt := RttWin.inv_clear hr
      keys := fun k hk => absurd hk Std.TreeMap.not_mem_emptyc
      capped := .inl trivial }
  show 0 < if e.utilityType = .constant then 1 else e.delta
  split_ifs
  · exact one_pos
  · exact hd

theorem Sound.probeOldest (h : Sound p e) : Sound p e.probeOldest := by
  unfold Eyenet.probeOldest
  split
  · exact h
  · split_ifs
    · exact { h with }
    · exact h

theorem Sound.track (h : Sound p e) (hk : 0 ≤ seqNo) : Sound p (e.track seqNo) := by
  refine { h with keys := ?_ }
  intro k hmem
  rcases Std.TreeMap.mem_insert.mp hmem with heq | hmem
  · rwa [← compare_eq_iff_eq.mp heq]
  · exact h.keys k hmem

theorem Sound.onPktSent (h : Sound p e) (hk : 0 ≤ seqNo) : Sound p (e.onPktSent seqNo) := by
  have hprobed := (h.track hk).probeOldest
  have hi := hprobed.intersend
  rw [hprobed.paced] at hi
  exact { hprobed with paced := rfl, intersend := hi }

@[simp] theorem probeOldest_lastDeltaUpdateTs :
    e.probeOldest.lastDeltaUpdateTs = e.lastDeltaUpdateTs := by
  unfold Eyenet.probeOldest
  split
  · rfl
  · split_ifs <;> rfl

@[simp] theorem onPktSent_lastDeltaUpdateTs :
    (e.onPktSent seqNo).lastDeltaUpdateTs = e.lastDeltaUpdateTs :=
  probeOldest_lastDeltaUpdateTs.trans rfl

theorem Sound.setTs (h : Sound p e) : Sound p (e.setTs ts) := { h with }

/-- The calls a run may make. The clock need not be monotone. -/
def Admissible (tr : Transition Eyenet Op ℚ) : Prop :=
  match tr.input with
  | .initialise => True
  | .setTs ts => 0 ≤ ts
  | .onPktSent seqNo => 0 ≤ seqNo
  | .onAck _ _ sendTs => sendTs ≤ tr.src.currTs

instance : DecidablePred Admissible := by
  intro tr
  unfold Admissible
  split <;> infer_instance

def ackedAfter (acked : Bool) (tr : Transition Eyenet Op ℚ) : Bool :=
  match tr.input with
  | .initialise => false
  | .onAck _ _ _ => true
  | _ => acked

/-- Whether an ack came since the last reset. -/
def acked (ts : List (Transition Eyenet Op ℚ)) : Bool := ts.foldl ackedAfter false

@[simp] theorem acked_concat (ts : List (Transition Eyenet Op ℚ)) (tr : Transition Eyenet Op ℚ) :
    acked (ts ++ [tr]) = ackedAfter (acked ts) tr := by
  simp [acked]

structure Inv (ts : List (Transition Eyenet Op ℚ)) (e : Eyenet) : Prop where
  sound : Sound (acked ts = false ∧ e.lastDeltaUpdateTs = 0) e
  nprobe : 2 ≤ e.nprobe

variable {trs : List (Transition Eyenet Op ℚ)} {tr : Transition Eyenet Op ℚ} {δ : ℚ} {u : Utility}

theorem newWith_sound (hδ : 0 < δ) : Sound True (newWith δ u).initialise :=
  initialise_sound (by decide : (2 : ℤ) ≤ 10) hδ (by norm_num : (0 : ℚ) < 1 / 2) RttWin.inv_new

theorem inv_start (hδ : 0 < δ) : Inv [] (newWith δ u).initialise :=
  ⟨(newWith_sound hδ).mono fun _ => ⟨rfl, rfl⟩, (by decide : (2 : ℤ) ≤ 10)⟩

theorem inv_step (ht : machine.Takes tr) (ha : Admissible tr) (h : Inv trs tr.src) :
    Inv (trs ++ [tr]) tr.dst := by
  obtain ⟨hs, hn⟩ := h
  refine ⟨?_, ?_⟩
  · rcases takes_cases ht with ⟨hi, hd⟩ | ⟨ts, hi, hd⟩ | ⟨k, hi, hd⟩ | ⟨a, r, s, hi, hd⟩ <;>
      simp only [acked_concat, ackedAfter, Admissible, hi] at ha ⊢
    · rw [hd]
      exact (initialise_sound hn hs.delta hs.defaultDelta hs.rtt).mono fun _ => ⟨trivial, rfl⟩
    · rw [hd]
      exact hs.setTs
    · rw [hd, onPktSent_lastDeltaUpdateTs]
      exact hs.onPktSent ha
    · obtain ⟨-, e', he', hsound⟩ := (hs.mono And.right).onAck a r ha
      rw [hd] at he'
      rw [Except.ok.inj he']
      exact hsound.mono False.elim
  · have hcfg := congrArg Config.nprobe (takes_config ht)
    rwa [show tr.dst.nprobe = tr.src.nprobe from hcfg]

theorem inv_run {e : Eyenet} (hδ : 0 < δ) (hr : machine.Run (newWith δ u).initialise trs e)
    (hadm : ∀ tr ∈ trs, Admissible tr) : Inv trs e :=
  hr.history (I := Inv) hadm (inv_start hδ) fun _ _ => inv_step

theorem controller_invariant {e : Eyenet} (hδ : 0 < δ)
    (hr : machine.Run (newWith δ u).initialise trs e) (hadm : ∀ tr ∈ trs, Admissible tr) :
    (2 ≤ e.cwnd ∧ 1 ≤ e.updateAmt ∧ 0 < e.delta ∧ e.intersend = e.currIntersend ∧
      0 ≤ e.currIntersend ∧ (acked trs → e.delta ≤ e.defaultDelta)) ∧
    ∀ ack recvTs sendTs, sendTs ≤ e.currTs →
      (∃ e', (e.onAck ack recvTs sendTs).val = .ok e') ∧
      ∀ d ∈ (e.onAck ack recvTs sendTs).log, 0 < d := by
  obtain ⟨hs, hn⟩ := inv_run hδ hr hadm
  refine ⟨⟨hs.cwnd, hs.updateAmt, hs.delta, hs.paced, hs.paced ▸ hs.intersend, ?_⟩, ?_⟩
  · intro hacked
    exact hs.capped.resolve_left fun hp => by simp [hacked] at hp
  · intro ack recvTs sendTs hle
    obtain ⟨hdiv, e', he', -⟩ := (hs.mono And.right).onAck ack recvTs hle
    exact ⟨⟨e', he'⟩, hdiv⟩

/-- Two packets go out and the second is acked twice. -/
def firstAck : List Op :=
  [.setTs 1, .onPktSent 0, .onPktSent 1, .setTs 5, .onAck 2 0 1, .setTs 9, .onAck 2 0 1]

theorem firstAck_accepted :
    (machine.exec (newWith (1 / 3) .auto).initialise firstAck).isSome := by
  decide +kernel

theorem controller_invariant_firstAck :
    ∃ trs e, machine.exec (newWith (1 / 3) .auto).initialise firstAck = some (trs, e) ∧
      acked trs ∧ 2 ≤ e.cwnd ∧ e.delta ≤ e.defaultDelta := by
  have hacked : acked (Option.get _ firstAck_accepted).1 := by decide +kernel
  have hinv := controller_invariant (by norm_num) (Machine.exec_get_run firstAck_accepted)
    (by decide +kernel)
  exact ⟨_, _, (Option.some_get firstAck_accepted).symm, hacked, hinv.1.1,
    hinv.1.2.2.2.2.2 hacked⟩

end TcpEyenet.Eyenet
