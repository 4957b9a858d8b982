import TcpEyenet.Transport.Isolation

/-! What one call of `send_data` does learn from the calls before it: how many packets were acked
in all of them, which shows where a byte-switched call ends. -/
namespace TcpEyenet

open TcpTransport

variable {z : Double} {tcp a b : TcpTransport Eyenet} {s t : Sender Eyenet} {call : Call}
  {l : Locals} {trs₁ trs₂ : List (Action Eyenet)} {δ : ℚ} {bnTrain n m : ℤ}

/-- The top of the loop, no packet sent, with a last send that the clock never gets back to. -/
structure Waiting (call : Call) (bnTrain n : ℤ) (tcp : TcpTransport Eyenet) (l : Locals) :
    Prop where
  call : l.call = call
  seqNum : l.seqNum = 0
  bnTrain : tcp.bnTrain = bnTrain
  npkts : tcp.npkts = n
  largestAck : tcp.largestAck = -1
  lastSTs : 0 < tcp.lastSTs
  lastAckTs : 0 ≤ tcp.lastAckTs
  cwnd : tcp.cong.cwnd = 10
  intersend : tcp.cong.intersend = 0

def WaitingAt (call : Call) (bnTrain n : ℤ) (s : Sender Eyenet) : Prop :=
  ∃ tcp l, s = ⟨tcp, .top l⟩ ∧ Waiting call bnTrain n tcp l

/-- A handshake that works at once, and a clock that stands at 1 ms until the loop. -/
def opening : List (Input Recv) := [.handshake ⟨0⟩ (.datagram hello.bytes), .start oneMs oneMs]

/-- The ack of a packet that was never sent, which leaves `largest_ack` at -1. -/
def ghost (call : Call) : PacketHeader := createHeader (-2) call.fid call.sid ⟨0⟩

/-- One iteration of the loop with a clock that stands at `z`. -/
def linger (z : Double) (call : Call) : List (Input Recv) :=
  [.top z, .recv z (.datagram (ghost call).bytes) z]

theorem oneMs_pos : 0 < oneMs.val := Double.val_pos (by decide) (by decide) (by decide)

theorem shake_hello (tcp : TcpTransport Eyenet) (call : Call) (buf : Buf) (lastSTs : ℚ)
    (c : Double) : (tcp.shake call buf lastSTs c (.datagram hello.bytes)).val =
      ⟨tcp, .connected call⟩ := by
  have hhello : hello.isHello = true := by decide
  have hrecv := recvData_bytes pktSz (by decide) hello
  simp only [shake, Traced.bind_val, hrecv, hhello, ne_eq, not_false_eq_true, and_self, if_true]
  rfl

theorem final_opening (tcp : TcpTransport Eyenet) (call : Call) :
    Sender.machine.final ⟨tcp, .idle⟩ (.sendData call :: opening) =
      some (({ tcp with largestAck := -1 } : TcpTransport Eyenet).start call oneMs oneMs).val := by
  rw [Machine.final_cons, opening]
  change (Sender.machine.final ⟨{ tcp with largestAck := -1 }, _⟩ _ : Option (Sender Eyenet)) = _
  rw [Machine.final_cons]
  change Sender.machine.final (TcpTransport.shake _ call _ _ _ _).val _ = _
  rw [shake_hello]
  rfl

theorem start_waits (tcp : TcpTransport Eyenet) (call : Call) (h : tcp.cong.nprobe = 10)
    {t : Double} (ht : 0 < t.val) :
    WaitingAt call tcp.bnTrain tcp.npkts
      (({ tcp with largestAck := -1 } : TcpTransport Eyenet).start call t t).val := by
  have hc : ((10 : ℤ) : ℚ) = 10 := by norm_num
  exact ⟨_, _, rfl,
    { call := rfl
      seqNum := rfl
      bnTrain := rfl
      npkts := rfl
      largestAck := rfl
      lastSTs := ht
      lastAckTs := ht.le
      cwnd := (congrArg Int.cast h).trans hc
      intersend := rfl }⟩

theorem opening_waits (call : Call) (hbn : tcp.bnTrain = bnTrain) (h : tcp.cong.nprobe = 10) :
    ∃ s, Sender.machine.final ⟨tcp, .idle⟩ (.sendData call :: opening) = some s ∧
      WaitingAt call bnTrain tcp.npkts s :=
  ⟨_, final_opening tcp call, hbn ▸ start_waits tcp call h oneMs_pos⟩

theorem Waiting.switchSz_lt_iff (h : Waiting call bnTrain n tcp l) (hb : call.byteSwitcher = true) :
    tcp.switchSz l < l.call.fsz ↔ n * payload < call.fsz := by
  simp only [switchSz, h.call, hb, if_true, h.npkts]

/-- The clock has gone back, so the reset does not come and no window opens. -/
theorem Waiting.giveUp (h : Waiting call bnTrain n tcp l) (hz : z.val = 0) :
    (tcp.giveUp { l with currTs := z }).val = tcp := by
  have hlate : ¬ (z : Double).val - tcp.lastAckTs > 2000 := by
    have hack := h.lastAckTs
    rw [hz]
    linarith
  exact congrArg Traced.val (if_neg hlate)

theorem Waiting.windowOpen (h : Waiting call bnTrain n tcp l) (hz : z.val = 0) :
    tcp.windowOpen { l with currTs := z } = false := by
  have hi : Controller.intersend tcp.cong = 0 := h.intersend
  have hs := h.lastSTs
  simp only [TcpTransport.windowOpen, hi, hz, decide_eq_false_iff_not]
  intro hopen
  linarith [hopen.2]

theorem Waiting.snap (h : Waiting call bnTrain n tcp l) (hz : z.val = 0) :
    tcp.snap { l with currTs := z } = tcp := by
  have hi : Controller.intersend tcp.cong = 0 := h.intersend
  have hc : Controller.cwnd tcp.cong = 10 := h.cwnd
  have hs := h.lastSTs
  apply if_neg
  simp only [hi, hc, h.seqNum, h.largestAck, hz]
  rintro (hlate | hfull)
  · linarith
  · norm_num at hfull

/-- As the clock has gone back nothing is sent, and only a train of no packets does not wait. -/
theorem Waiting.test (h : Waiting call bnTrain n tcp l) (hz : z.val = 0) :
    (tcp.test { l with currTs := z }).val = if bnTrain = 0 then none else some false := by
  have hw : ¬ tcp.windowOpen { l with currTs := z } = true := by simp [h.windowOpen hz]
  unfold TcpTransport.test
  rw [if_neg hw, h.bnTrain, Traced.bind_val]
  simp only [rem, h.seqNum]
  split_ifs <;> simp

theorem final_top (h : Waiting call bnTrain n tcp l) (hz : z.val = 0)
    (hb : call.byteSwitcher = true) (hn : n * payload < call.fsz) (is : List (Input Recv)) :
    Sender.machine.final ⟨tcp, .top l⟩ (.top z :: is) =
      Sender.machine.final ⟨tcp, .sending { l with currTs := z }⟩ is := by
  have hsz : tcp.switchSz l < l.call.fsz := (h.switchSz_lt_iff hb).mpr hn
  have hstep : Sender.machine.step ⟨tcp, .top l⟩ (.top z) = some (tcp.enter l z) :=
    congrArg some (if_pos hsz)
  have hval : (tcp.enter l z).val = ⟨tcp, .sending { l with currTs := z }⟩ :=
    congrArg (Sender.mk · _) (h.giveUp hz)
  rw [Machine.final_cons, hstep, Option.bind_some, hval]

/-- With nothing left to do, the call ends at the top of the loop and takes nothing after it. -/
theorem final_done (h : Waiting call bnTrain n tcp l) (hb : call.byteSwitcher = true)
    (hn : ¬ n * payload < call.fsz) {i : Input Recv} (hi : i.isCall = false) :
    Sender.machine.final ⟨tcp, .top l⟩ [.top z, i] = none := by
  have hsz : ¬ tcp.switchSz l < l.call.fsz := mt (h.switchSz_lt_iff hb).mp hn
  have hstep : Sender.machine.step ⟨tcp, .top l⟩ (.top z) = some (tcp.finish z) :=
    congrArg some (if_neg hsz)
  rw [Machine.final_cons, hstep, Option.bind_some]
  cases i with
  | sendData => simp [Input.isCall] at hi
  | _ => rfl

/-- In such an iteration only the counters move. -/
theorem Waiting.receive (h : Waiting call bnTrain n tcp l) (hbn : bnTrain ≠ 0) (hz : z.val = 0) :
    WaitingAt call bnTrain (n + 1) (tcp.receive { l with currTs := z } z
      (.datagram (ghost call).bytes) z).val := by
  have htcp : tcp.bnTrain ≠ 0 := h.bnTrain ▸ hbn
  have hrecv := recvData_bytes pktSz (by decide) (ghost call)
  have hacc : l.call.accepts (ghost call) = true := by
    simp [Call.accepts, ghost, createHeader, h.call]
  have hseq : (ghost call).seqNum.toInt = -2 := by
    change (Int32.ofInt (-2)).toInt = -2
    decide
  obtain ⟨-, -, -, hv⟩ := receive_cases htcp { l with currTs := z } z
    (.datagram (ghost call).bytes) z
  rw [h.snap hz] at hv
  obtain ⟨-, -, cong, rateEst, hn, hv⟩ :=
    (hv.resolve_left fun hv => (hrecv _).1 hv.1).resolve_left fun hv => by
      simp [(hrecv _).2, hacc] at hv
  rw [hv, (hrecv _).2, Eyenet.eq_of_nudged hn]
  exact ⟨_, _, rfl,
    { call := h.call
      seqNum := h.seqNum
      bnTrain := h.bnTrain
      npkts := congrArg (· + 1) h.npkts
      largestAck := by
        rw [setCong_largestAck, credited_largestAck, hseq, h.largestAck]
        rfl
      lastSTs := h.lastSTs
      lastAckTs := hz.ge
      cwnd := h.cwnd
      intersend := h.intersend }⟩

theorem final_linger (h : WaitingAt call bnTrain n s) (hz : z.val = 0)
    (hb : call.byteSwitcher = true) (hn : n * payload < call.fsz)
    (hbn : bnTrain ≠ 0) : ∃ s', WaitingAt call bnTrain (n + 1) s' ∧ ∀ is,
      Sender.machine.final s (linger z call ++ is) = Sender.machine.final s' is := by
  obtain ⟨tcp, l, rfl, h⟩ := h
  have htest := h.test hz
  rw [if_neg hbn] at htest
  refine ⟨_, h.receive hbn hz, fun is => ?_⟩
  rw [linger, List.cons_append, List.cons_append, List.nil_append, final_top h hz hb hn,
    Machine.final_cons]
  simp only [Sender.machine, Sender.step, tryReceive, htest, if_true, Option.bind_some]

/-- One iteration more for each ack that is still missing, and only the flow with fewer acks from
earlier calls goes on. -/
theorem told_apart (hz : z.val = 0) (hb : call.byteSwitcher = true) (hbn : bnTrain ≠ 0) (k : ℕ)
    {n m : ℤ} (hlt : n < m) (hn : n * payload < call.fsz) (hm : call.fsz ≤ (m + k : ℤ) * payload)
    (hs : WaitingAt call bnTrain n s) (ht : WaitingAt call bnTrain m t) :
    ∃ env : List (Input Recv), (∀ i ∈ env, i.isCall = false) ∧
      (Sender.machine.final s env).isSome ∧ Sender.machine.final t env = none := by
  induction k generalizing n m s t with
  | zero =>
    obtain ⟨s', hs', hfin⟩ := final_linger hs hz hb hn hbn
    obtain ⟨tcp, l, rfl, ht⟩ := ht
    have hdone : ¬ m * payload < call.fsz := by simpa using hm
    refine ⟨linger z call, by simp [linger, Input.isCall], ?_, final_done ht hb hdone rfl⟩
    rw [← List.append_nil (linger z call), hfin]
    rfl
  | succ k ih =>
    by_cases hdone : m * payload < call.fsz
    · obtain ⟨s', hs', hfs⟩ := final_linger hs hz hb hn hbn
      obtain ⟨t', ht', hft⟩ := final_linger ht hz hb hdone hbn
      have hle : ((n + 1 : ℤ) : ℚ) ≤ m := by exact_mod_cast hlt
      have hn' : ((n + 1 : ℤ) : ℚ) * payload < call.fsz :=
        (mul_le_mul_of_nonneg_right hle payload.cast_nonneg).trans_lt hdone
      have hm' : call.fsz ≤ ((m + 1 + k : ℤ) : ℚ) * payload := by
        push_cast at hm ⊢
        linarith
      obtain ⟨env, henv, hsome, hnone⟩ := ih (by omega) hn' hm' hs' ht'
      refine ⟨linger z call ++ env, ?_, ?_, ?_⟩
      · simpa [linger, Input.isCall] using henv
      · rwa [hfs]
      · rwa [hft]
    · obtain ⟨s', hs', hfin⟩ := final_linger hs hz hb hn hbn
      obtain ⟨tcp, l, rfl, ht⟩ := ht
      refine ⟨linger z call, by simp [linger, Input.isCall], ?_, final_done ht hb hdone rfl⟩
      rw [← List.append_nil (linger z call), hfin]
      rfl

/-- With trains of no packets, a flow that has anything left to do dies at its first send. -/
theorem told_apart_dead (hz : z.val = 0) (hb : call.byteSwitcher = true)
    (hn : n * payload < call.fsz) (hm : call.fsz ≤ m * payload) (hs : WaitingAt call 0 n s)
    (ht : WaitingAt call 0 m t) :
    ∃ env : List (Input Recv), (∀ i ∈ env, i.isCall = false) ∧
      (Sender.machine.final s env).isSome ∧ Sender.machine.final t env = none := by
  obtain ⟨tcp, l, rfl, hs⟩ := hs
  obtain ⟨tcp', l', rfl, ht⟩ := ht
  refine ⟨[.top z, .send], by simp [Input.isCall], ?_, final_done ht hb hm.not_gt rfl⟩
  have htest := hs.test hz
  rw [if_pos rfl] at htest
  rw [final_top hs hz hb hn, Machine.final_cons]
  simp only [Sender.machine, Sender.step, trySend, htest]
  rfl

/-- The first packet of the loop, or the last ack that was missing, gives the difference away. -/
theorem not_sameFlow (hb : call.byteSwitcher = true) (ha₀ : a.bnTrain = bnTrain)
    (hb₀ : b.bnTrain = bnTrain) (ha₁ : a.cong.nprobe = 10) (hb₁ : b.cong.nprobe = 10)
    (hlt : a.npkts < b.npkts) (hn : a.npkts * payload < call.fsz)
    (hm : bnTrain ≠ 0 ∨ Done call b) : ¬ SameFlow ⟨a, .idle⟩ ⟨b, .idle⟩ call := by
  obtain ⟨s, hfs, hs⟩ := opening_waits call ha₀ ha₁
  obtain ⟨t, hft, ht⟩ := opening_waits call hb₀ hb₁
  have hz : (⟨0⟩ : Double).val = 0 := Double.val_of_toNat_eq_zero rfl
  obtain ⟨env, henv, hsome, hnone⟩ : ∃ env : List (Input Recv), (∀ i ∈ env, i.isCall = false) ∧
      (Sender.machine.final s env).isSome ∧ Sender.machine.final t env = none := by
    by_cases hzero : bnTrain = 0
    · subst hzero
      exact told_apart_dead hz hb hn (hm.resolve_left (· rfl)) hs ht
    · obtain ⟨k, hk⟩ := exists_nat_ge (call.fsz / payload - b.npkts)
      have hk' : call.fsz / payload ≤ b.npkts + k := by linarith
      have hpay : (0 : ℚ) < payload := by decide
      have hle := (div_le_iff₀ hpay).mp hk'
      exact told_apart hz hb hzero k hlt hn (by exact_mod_cast hle) hs ht
  intro hsame
  have hcall : ∀ i ∈ opening ++ env, i.isCall = false := by
    simpa [opening, Input.isCall] using henv
  have hshown := congrArg Option.isSome (hsame _ hcall).1
  simp only [Machine.isSome_shown, ← List.cons_append, Machine.final_append, hfs, hft,
    Option.bind_some, hnone, hsome] at hshown
  exact absurd hshown (by decide)

theorem Agree.symm (hbn : a.bnTrain = b.bnTrain) (h : Agree call a b) : Agree call b a := by
  rcases h with h | h | h | ⟨h, ha, hb⟩
  · exact .inl h
  · exact .inr (.inl h.symm)
  · exact .inr (.inr (.inl h.symm))
  · exact .inr (.inr (.inr ⟨hbn ▸ h, hb, ha⟩))

theorem SameFlow.symm (h : SameFlow s t call) : SameFlow t s call :=
  fun env henv => ⟨(h env henv).1.symm, (h env henv).2.symm⟩

theorem nprobe_run (hr : Sender.machine.Run ⟨new (Eyenet.new δ) bnTrain, .idle⟩ trs₁ s) :
    s.tcp.cong.nprobe = 10 := by
  obtain ⟨ops, h⟩ := run_calls hr
  exact congrArg (·.nprobe) (Eyenet.config_run (u := .constant) h)

/-- Where two states do not agree, the one with fewer acks has something left to do. -/
theorem of_not_agree (hno : ¬ Agree call a b) (hlt : a.npkts < b.npkts) :
    call.byteSwitcher = true ∧ a.npkts * payload < call.fsz ∧ (a.bnTrain ≠ 0 ∨ Done call b) := by
  have hle : (a.npkts : ℚ) * payload ≤ b.npkts * payload :=
    mul_le_mul_of_nonneg_right (by exact_mod_cast hlt.le) payload.cast_nonneg
  have hn : ¬ Done call a := fun ha => hno (.inr (.inr (.inl ⟨ha, le_trans ha hle⟩)))
  refine ⟨Bool.eq_true_of_not_eq_false fun hbyte => hno (.inl hbyte), not_le.mp hn, ?_⟩
  by_contra hm
  obtain ⟨hbn, hb⟩ := not_or.mp hm
  exact hno (.inr (.inr (.inr ⟨not_not.mp hbn, hn, hb⟩)))

/-- Two calls from states reached before go the same way in every environment exactly if they
agree on `npkts`, or do not look at it, or both find it done already. -/
theorem flows_isolated_iff
    (ha : Sender.machine.Run ⟨new (Eyenet.new δ) bnTrain, .idle⟩ trs₁ ⟨a, .idle⟩)
    (hb : Sender.machine.Run ⟨new (Eyenet.new δ) bnTrain, .idle⟩ trs₂ ⟨b, .idle⟩) (call : Call) :
    SameFlow ⟨a, .idle⟩ ⟨b, .idle⟩ call ↔ Agree call a b := by
  have hbna : a.bnTrain = bnTrain := bnTrain_run ha
  have hbnb : b.bnTrain = bnTrain := bnTrain_run hb
  have hbn : a.bnTrain = b.bnTrain := hbna.trans hbnb.symm
  constructor
  · intro hsame
    by_contra hno
    have hne : a.npkts ≠ b.npkts := fun heq => hno (.inr (.inl heq))
    rcases lt_or_gt_of_ne hne with hlt | hlt
    · obtain ⟨hbyte, hn, hm⟩ := of_not_agree hno hlt
      rw [hbna] at hm
      exact not_sameFlow hbyte hbna hbnb (nprobe_run ha) (nprobe_run hb) hlt hn hm hsame
    · obtain ⟨hbyte, hn, hm⟩ := of_not_agree (fun h => hno (h.symm hbn.symm)) hlt
      rw [hbnb] at hm
      exact not_sameFlow hbyte hbnb hbna (nprobe_run hb) (nprobe_run ha) hlt hn hm hsame.symm
  · exact sameFlow_of_agree hbn (resettable ha hb)

theorem eq_idle (h : s.idle = true) : s = ⟨s.tcp, .idle⟩ := by
  obtain ⟨tcp, phase⟩ := s
  cases phase with
  | idle => rfl
  | _ => simp [Sender.idle] at h

/-- A flow of one packet. -/
def onePacket (fid : Int32) : Call := ⟨payload, true, fid, 7⟩

/-- A window of packets goes out, the first one is acked, and the call returns. -/
def oneCycle : List (Input Recv) :=
  .sendData (onePacket 1) :: (opening ++ .top oneMs :: (List.replicate 10 .send ++
    [.recv oneMs (echo 0) oneMs, .top oneMs]))

theorem oneCycle_accepted : (Sender.machine.exec (freshSender 1) oneCycle).isSome := by
  decide +kernel

/-- The transport after that cycle. -/
def secondHand : TcpTransport Eyenet := (Option.get _ oneCycle_accepted).2.tcp

theorem oneCycle_run :
    Sender.machine.Run (freshSender 1) (Option.get _ oneCycle_accepted).1 ⟨secondHand, .idle⟩ := by
  have hidle : (Option.get _ oneCycle_accepted).2.idle = true := by decide +kernel
  exact eq_idle hidle ▸ Machine.exec_get_run oneCycle_accepted

/-- After one cycle a flow of one packet returns before it sends anything. -/
theorem flow_not_isolated :
    ∃ trs₁ trs₂ a b call, Sender.machine.Run (freshSender 1) trs₁ ⟨a, .idle⟩ ∧
      Sender.machine.Run (freshSender 1) trs₂ ⟨b, .idle⟩ ∧
      ¬ SameFlow ⟨a, .idle⟩ ⟨b, .idle⟩ call := by
  have hn : (0 : ℤ) * (payload : ℚ) < (onePacket 2).fsz := by decide +kernel
  have hm : (onePacket 2).fsz ≤ secondHand.npkts * payload := by decide +kernel
  have hlt : (0 : ℤ) < secondHand.npkts := by decide +kernel
  have hbn := bnTrain_run oneCycle_run
  have hprobe := nprobe_run oneCycle_run
  exact ⟨_, _, _, secondHand, onePacket 2, .refl, oneCycle_run,
    not_sameFlow rfl rfl hbn (nprobe_run .refl) hprobe hlt hn (.inr hm)⟩

theorem flows_isolated_iff_oneCycle :
    SameFlow ⟨new (Eyenet.new 1) 1, .idle⟩ ⟨secondHand, .idle⟩ (onePacket 2) ↔
      Agree (onePacket 2) (new (Eyenet.new 1) 1) secondHand :=
  flows_isolated_iff .refl oneCycle_run (onePacket 2)

end TcpEyenet
