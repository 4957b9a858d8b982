import TcpEyenet.Transport.Recovery

/-! The bytes that the sender counts and the throughput it prints. -/
namespace TcpEyenet

open TcpTransport

variable {T : Type} [Controller T] {tcp : TcpTransport T} {s : Sender T} {i : Input Recv}
  {trs pre post : List (Action T)} {tr : Action T} {l : Locals} {cong : T} {bn : ℤ} {n k : ℕ}

/-- How many acks were accepted. -/
def acked (trs : List (Action T)) : ℕ :=
  trs.countP fun tr => (ackIn tr.src tr.input).isSome

/-- How long the call was that ends with a step. -/
def endedIn (s : Sender T) (i : Input Recv) : ℚ :=
  match s.phase, i with
  | .top l, .top c => if s.tcp.switchSz l < l.call.fsz then 0 else c.val
  | _, _ => 0

/-- The summed durations of the calls. -/
def elapsed (trs : List (Action T)) : ℚ := (trs.map fun tr => endedIn tr.src tr.input).sum

/-- The count of a step and the throughput it may print are those of the acks accepted so far. -/
structure Exact (pre : List (Action T)) (tr : Action T) : Prop where
  nbytes : tr.dst.tcp.nbytes.toInt = payload * acked (pre ++ [tr])
  tput : ∀ tput delay, .stats tput delay ∈ tr.out →
    tput = payload * acked (pre ++ [tr]) / (elapsed (pre ++ [tr]) / 1000)
  nonneg : ∀ tput delay, .stats tput delay ∈ tr.out → 0 ≤ elapsed (pre ++ [tr]) → 0 ≤ tput

def Tallied (trs : List (Action T)) : Prop := ∀ pre tr post, trs = pre ++ tr :: post → Exact pre tr

omit [Controller T] in
@[simp] theorem acked_append : acked (pre ++ post) = acked pre + acked post := by
  simp [acked]

omit [Controller T] in
theorem acked_singleton : acked [tr] = (ackIn tr.src tr.input).toList.length := by
  cases h : ackIn tr.src tr.input <;> simp [acked, h]

omit [Controller T] in
@[simp] theorem elapsed_concat : elapsed (pre ++ [tr]) = elapsed pre + endedIn tr.src tr.input := by
  simp [elapsed]

theorem giveUp_nbytes : (tcp.giveUp l).val.nbytes = tcp.nbytes := by
  unfold giveUp
  split_ifs <;> rfl

theorem snap_nbytes : (tcp.snap l).nbytes = tcp.nbytes := by
  obtain ⟨ts, h⟩ := snap_eq tcp l
  rw [h]

theorem sendOne_nbytes : (tcp.sendOne l).val.tcp.nbytes = tcp.nbytes := by
  obtain ⟨cong, ts, h⟩ := sendOne_tcp tcp l
  rw [h]

/-- Each accepted ack adds a payload, in 32 bits. -/
theorem move_nbytes {r : Traced Event (Sender T)} (h : Move s i r) :
    r.val.tcp.nbytes = s.tcp.nbytes + Int32.ofNat (payload * (ackIn s i).toList.length) := by
  cases h with
  | handshake tcp => simp [shake_tcp, ackIn]
  | enter tcp l c => simp [ackIn, enter, giveUp_nbytes]
  | send tcp l => simp [ackIn, sendOne_nbytes]
  | receive tcp l c₂ out c₃ ht =>
    obtain ⟨log, -, -, h | h | h⟩ := receive_cases (test_eq_false ht).2.1 l c₂ out c₃
    · obtain ⟨hrc, cong, -, hv⟩ := h
      simp [hv, ackIn, hrc, setCong, snap_nbytes]
    · obtain ⟨-, hacc, hv⟩ := h
      simp [hv, ackIn, hacc, snap_nbytes]
    · obtain ⟨hrc, hacc, cong, rateEst, -, hv⟩ := h
      simp [hv, ackIn, hrc, hacc, setCong, credited, raiseAck, credit, heard, snap_nbytes]
  | _ => simp [ackIn, start, finish]

theorem giveUp_transTimeAggr : (tcp.giveUp l).val.transTimeAggr = tcp.transTimeAggr := by
  unfold giveUp
  split_ifs <;> rfl

theorem snap_transTimeAggr : (tcp.snap l).transTimeAggr = tcp.transTimeAggr := by
  obtain ⟨ts, h⟩ := snap_eq tcp l
  rw [h]

theorem sendOne_transTimeAggr : (tcp.sendOne l).val.tcp.transTimeAggr = tcp.transTimeAggr := by
  obtain ⟨cong, ts, h⟩ := sendOne_tcp tcp l
  rw [h]

theorem move_transTimeAggr {r : Traced Event (Sender T)} (h : Move s i r) :
    r.val.tcp.transTimeAggr = s.tcp.transTimeAggr + endedIn s i := by
  cases h with
  | handshake tcp => simp [shake_tcp, endedIn]
  | enter tcp l c hsz => simp [endedIn, hsz, enter, giveUp_transTimeAggr]
  | finish tcp l c hsz => simp [endedIn, hsz, finish]
  | send tcp l => simp [endedIn, sendOne_transTimeAggr]
  | receive tcp l c₂ out c₃ ht =>
    obtain ⟨log, -, -, h | h | h⟩ := receive_cases (test_eq_false ht).2.1 l c₂ out c₃
    · obtain ⟨hrc, cong, -, hv⟩ := h
      simp [hv, endedIn, setCong, snap_transTimeAggr]
    · simp [h.2.2, endedIn, snap_transTimeAggr]
    · obtain ⟨hrc, hacc, cong, rateEst, -, hv⟩ := h
      simp [hv, endedIn, setCong, credited, raiseAck, credit, heard, snap_transTimeAggr]
  | _ => simp [endedIn, start]

theorem test_stats {tput delay : ℚ} : .stats tput delay ∉ (tcp.test l).log := by
  unfold test
  split_ifs <;> simp [rem]

/-- Statistics are printed at the end of a call, from the counters as they are there. -/
theorem move_stats {r : Traced Event (Sender T)} {tput delay : ℚ} (h : Move s i r)
    (hm : .stats tput delay ∈ r.log) :
    tput = r.val.tcp.nbytes.toInt / (r.val.tcp.transTimeAggr / 1000) := by
  cases h with
  | sendData => simp at hm
  | handshake tcp call buf lastSTs c out =>
    simp only [shake, greet] at hm
    split_ifs at hm <;> simp at hm
  | start tcp call t₀ t₁ => simp [start] at hm
  | enter tcp l c =>
    simp only [enter, giveUp] at hm
    split_ifs at hm <;> simp at hm
  | finish tcp l c =>
    simp only [finish, Traced.bind_log, Traced.report_log, Traced.pure_log, List.mem_append,
      List.mem_singleton, List.not_mem_nil, or_false, reduceCtorEq, false_or] at hm
    exact (Event.stats.inj hm).1
  | crash => exact absurd hm test_stats
  | send tcp l =>
    obtain ⟨log, hlog, hsend⟩ := sendOne_log tcp l
    rw [hsend, List.mem_append, List.mem_cons] at hm
    rcases hm with hm | hm | hm
    · exact absurd hm test_stats
    · simp at hm
    · exact (hlog _ hm).elim
  | receive tcp l c₂ out c₃ ht =>
    obtain ⟨log, hlog, hrecv, -⟩ := receive_cases (test_eq_false ht).2.1 l c₂ out c₃
    rw [hrecv, List.mem_append, List.mem_cons] at hm
    rcases hm with hm | hm | hm
    · exact absurd hm test_stats
    · simp at hm
    · exact (hlog _ hm).elim

theorem counters_run (hr : Sender.machine.Run ⟨new cong bn, .idle⟩ trs s) :
    s.tcp.nbytes = Int32.ofNat (payload * acked trs) ∧ s.tcp.transTimeAggr = elapsed trs := by
  refine hr.history (I := fun trs s => s.tcp.nbytes = Int32.ofNat (payload * acked trs) ∧
    s.tcp.transTimeAggr = elapsed trs) (C := fun _ => True) (by simp) ⟨rfl, rfl⟩ ?_
  rintro pre tr ht - ⟨hnbytes, htime⟩
  have hmove := takes_move ht
  have hbytes := move_nbytes hmove
  have hdur := move_transTimeAggr hmove
  simp only at hbytes hdur
  rw [acked_append, acked_singleton, elapsed_concat, hbytes, hdur, hnbytes, htime, mul_add]
  exact ⟨(Int32.ofNat_add _ _).symm, rfl⟩

theorem toInt_ofNat_eq_iff : (Int32.ofNat n).toInt = n ↔ n < 2 ^ 31 := by
  constructor
  · intro h
    have hlt := Int32.toInt_lt (Int32.ofNat n)
    omega
  · intro h
    exact Int32.toInt_ofNat_of_lt h

theorem exact_of_lt (hr : Sender.machine.Run ⟨new cong bn, .idle⟩ pre tr.src)
    (ht : Sender.machine.Takes tr) (h : payload * acked (pre ++ [tr]) < 2 ^ 31) :
    Exact pre tr := by
  obtain ⟨hnbytes, htime⟩ := counters_run (.snoc hr ht)
  have hint : tr.dst.tcp.nbytes.toInt = payload * acked (pre ++ [tr]) := by
    rw [hnbytes, toInt_ofNat_eq_iff.mpr h]
    push_cast
    rfl
  have htput : ∀ tput delay, .stats tput delay ∈ tr.out →
      tput = payload * acked (pre ++ [tr]) / (elapsed (pre ++ [tr]) / 1000) := by
    intro tput delay hm
    have hst := move_stats (takes_move ht) hm
    simp only at hst
    rw [hst, hint, htime]
    push_cast
    rfl
  refine ⟨hint, htput, fun tput delay hm hpos => ?_⟩
  rw [htput tput delay hm]
  positivity

theorem lt_of_tallied (hr : Sender.machine.Run ⟨new cong bn, .idle⟩ trs s) (h : Tallied trs) :
    payload * acked trs < 2 ^ 31 := by
  rcases List.eq_nil_or_concat trs with rfl | ⟨pre, tr, rfl⟩
  · exact Nat.two_pow_pos 31
  · rw [List.concat_eq_append] at h ⊢
    have hbytes := (h pre tr [] rfl).nbytes
    have hlt := Int32.toInt_lt tr.dst.tcp.nbytes
    rw [hbytes] at hlt
    exact_mod_cast hlt

/-- The count and the throughput are true in just the runs whose acked bytes fit 32 bits. -/
theorem tallied_iff (hr : Sender.machine.Run ⟨new cong bn, .idle⟩ trs s) :
    Tallied trs ↔ payload * acked trs < 2 ^ 31 := by
  refine ⟨lt_of_tallied hr, ?_⟩
  rintro hlt pre tr post rfl
  obtain ⟨hpre, ht⟩ := hr.split rfl
  refine exact_of_lt hpre ht (lt_of_le_of_lt ?_ hlt)
  refine Nat.mul_le_mul_left _ ?_
  have hsum : acked (pre ++ tr :: post) = acked (pre ++ [tr]) + acked post := by
    rw [List.append_cons]
    exact acked_append
  omega

/-- A flow whose packets are acked one by one, `n` of them so far, while the clock stands still. -/
structure Flowing (n : ℕ) (tcp : TcpTransport Eyenet) (l : Locals) : Prop where
  call : l.call = ⟨5000, false, 1, 7⟩
  bnTrain : tcp.bnTrain = 1
  largestAck : tcp.largestAck = n
  lastSTs : tcp.lastSTs = 0
  lastAckTs : tcp.lastAckTs = 0
  cong : Unpaced tcp.cong
  seqNum : l.seqNum = n + 11
  currTs : l.currTs = ⟨0⟩

section Flow

variable {tcp : TcpTransport Eyenet}

theorem zero_val : (⟨0⟩ : Double).val = 0 := Double.val_of_toNat_eq_zero rfl

theorem credited_marks (tcp : TcpTransport Eyenet) (h : PacketHeader) (c : Double)
    (cong : Eyenet) : ((tcp.credited h c).setCong cong).lastSTs = tcp.lastSTs ∧
      ((tcp.credited h c).setCong cong).lastAckTs = c.val := ⟨rfl, rfl⟩

theorem Flowing.test (h : Flowing n tcp l) : (tcp.test l).val = some false := by
  have hcwnd : Controller.cwnd tcp.cong = 10 := h.cong.cwnd
  have hclosed : ¬ tcp.windowOpen l = true := by
    simp only [windowOpen, hcwnd, h.largestAck, h.seqNum, decide_eq_true_eq]
    push_cast
    rintro ⟨hlt, -⟩
    linarith
  rw [TcpTransport.test, if_neg hclosed, h.bnTrain]
  simp [rem]

/-- The ack of packet `n` comes in. -/
theorem Flowing.receive (h : Flowing n tcp l) (hn : n < 2 ^ 31) :
    ∃ tcp' l', (tcp.receive l ⟨0⟩ (echo n) ⟨0⟩).val = ⟨tcp', .top l'⟩ ∧
      tcp'.largestAck = n + 1 ∧ tcp'.bnTrain = 1 ∧ tcp'.lastSTs = 0 ∧ tcp'.lastAckTs = 0 ∧
      tcp'.cong = tcp.cong ∧ l'.call = l.call ∧ l'.seqNum = l.seqNum ∧ l'.currTs = ⟨0⟩ ∧
      ackIn ⟨tcp, .sending l⟩ (.recv ⟨0⟩ (echo n) ⟨0⟩) = some (createHeader n 1 7 ⟨0⟩) := by
  obtain ⟨hne, hread⟩ := recvData_bytes pktSz (by decide) (createHeader n 1 7 ⟨0⟩) l.buf
  have hacc : l.call.accepts (createHeader n 1 7 ⟨0⟩) = true := by
    simp [Call.accepts, createHeader, h.call]
  have hseq : (createHeader n 1 7 ⟨0⟩).seqNum.toInt = n :=
    Int32.toInt_ofInt_of_le (by omega) (by exact_mod_cast hn)
  have hsnap : (tcp.snap l).lastSTs = 0 := by
    unfold snap
    split_ifs
    · exact (congrArg Double.val h.currTs).trans zero_val
    · exact h.lastSTs
  obtain ⟨-, -, -, hv⟩ := receive_cases (by rw [h.bnTrain]; decide) l ⟨0⟩ (echo n) ⟨0⟩
  obtain ⟨-, -, cong, rateEst, hnudged, hv⟩ :=
    (hv.resolve_left fun hv => hne hv.1).resolve_left fun hv => by
      rw [echo, hread, hacc] at hv
      simp at hv
  rw [echo, hread] at hv
  obtain ⟨hlast, hheard⟩ :=
    credited_marks (tcp.snap l) (createHeader n 1 7 ⟨0⟩) ⟨0⟩ cong
  rw [hsnap] at hlast
  rw [zero_val] at hheard
  refine ⟨_, _, hv, ?_, ?_, hlast, hheard, Eyenet.eq_of_nudged hnudged, rfl, rfl, rfl, ?_⟩
  · rw [setCong_largestAck, credited_largestAck, snap_largestAck, hseq, h.largestAck]
    exact max_eq_right (by omega)
  · rw [setCong_bnTrain, credited_bnTrain, snap_bnTrain, h.bnTrain]
  · simp only [ackIn, echo, hread, hacc, hne, ne_eq, not_false_eq_true, and_self, if_true]

/-- Packet `n + 11` goes out, for which that ack has opened the window. -/
theorem Flowing.send (hcall : l.call = ⟨5000, false, 1, 7⟩) (hbn : tcp.bnTrain = 1)
    (hack : tcp.largestAck = n + 1) (hlast : tcp.lastSTs = 0) (hheard : tcp.lastAckTs = 0)
    (hcong : Unpaced tcp.cong) (hseq : l.seqNum = n + 11) (hts : l.currTs = ⟨0⟩)
    (hn : n < 2 ^ 30) :
    (tcp.test l).val = some true ∧ ∃ tcp' l', (tcp.sendOne l).val = ⟨tcp', .sending l'⟩ ∧
      Flowing (n + 1) tcp' l' := by
  have hne : tcp.bnTrain ≠ 0 := by omega
  have hopen : tcp.windowOpen l = true := by
    have hc : Controller.cwnd tcp.cong = 10 := hcong.cwnd
    have hi : Controller.intersend tcp.cong = 0 := hcong.intersend
    simp only [windowOpen, hc, hi, hack, hlast, hseq, hts, zero_val, decide_eq_true_eq]
    push_cast
    exact ⟨by linarith, by simp⟩
  refine ⟨congrArg Traced.val (if_pos hopen), ?_⟩
  obtain ⟨tcp', -, ⟨-, hv⟩ | ⟨hfit, -⟩⟩ := sendOne_cases hne l
  · have htcp : (tcp.sendOne l).val.tcp = tcp' := congrArg Sender.tcp hv
    have hbn' : (tcp.sendOne l).val.tcp.bnTrain = tcp.bnTrain := sendOne_bnTrain
    have hack' : (tcp.sendOne l).val.tcp.largestAck = tcp.largestAck := sendOne_largestAck
    have hlast' := sendOne_lastSTs tcp l
    have hcong' := hcong.sendOne hne l
    obtain ⟨cong, ts, hrest⟩ := sendOne_tcp tcp l
    rw [htcp] at hbn' hack' hlast' hcong' hrest
    refine ⟨tcp', _, hv, ?_⟩
    exact
      { call := hcall
        bnTrain := hbn'.trans hbn
        largestAck := by simpa using hack'.trans hack
        lastSTs := by rw [hlast', hlast, hcong.intersend, add_zero]
        lastAckTs := (congrArg TcpTransport.lastAckTs hrest).trans hheard
        cong := hcong'
        seqNum := by
          simp only [hseq]
          push_cast
          ring
        currTs := hts }
  · omega

theorem Flowing.next (h : Flowing n tcp l) (hn : n < 2 ^ 30) :
    ∃ trs tcp' l', Sender.machine.Run ⟨tcp, .sending l⟩ trs ⟨tcp', .sending l'⟩ ∧
      Flowing (n + 1) tcp' l' ∧ acked trs = 1 := by
  obtain ⟨tcp₁, l₁, hv, hack, hbn, hlast, hheard, hcong, hcall, hseq, hts, hin⟩ :=
    h.receive (by omega)
  have hrecv : Sender.machine.step ⟨tcp, .sending l⟩ (.recv ⟨0⟩ (echo n) ⟨0⟩) =
      some ⟨⟨tcp₁, .top l₁⟩, (tcp.test l).log ++ (tcp.receive l ⟨0⟩ (echo n) ⟨0⟩).log⟩ := by
    simp only [Sender.machine, Sender.step, tryReceive, h.test, if_true, hv]
  have hmore : tcp₁.switchSz l₁ < l₁.call.fsz := by
    simp only [switchSz, hcall, h.call, hts, zero_val]
    norm_num
  have hkept : tcp₁.giveUp { l₁ with currTs := ⟨0⟩ } = pure tcp₁ := by
    apply if_neg
    rw [hheard, zero_val]
    norm_num
  have htop : Sender.machine.step ⟨tcp₁, .top l₁⟩ (.top ⟨0⟩) =
      some ⟨⟨tcp₁, .sending { l₁ with currTs := ⟨0⟩ }⟩, []⟩ := by
    simp only [Sender.machine, Sender.step, hmore, if_true, enter, hkept]
    rfl
  obtain ⟨ht, tcp₂, l₂, hsent, hflow⟩ := Flowing.send (l := { l₁ with currTs := ⟨0⟩ })
    (hcall.trans h.call) hbn hack hlast hheard (hcong ▸ h.cong) (hseq.trans h.seqNum) rfl hn
  have hsend : Sender.machine.step ⟨tcp₁, .sending { l₁ with currTs := ⟨0⟩ }⟩ .send =
      some ⟨⟨tcp₂, .sending l₂⟩, (tcp₁.test { l₁ with currTs := ⟨0⟩ }).log ++
        (tcp₁.sendOne { l₁ with currTs := ⟨0⟩ }).log⟩ := by
    simp only [Sender.machine, Sender.step, trySend, ht, hsent]
  have hend : Sender.machine.exec ⟨tcp₂, .sending l₂⟩ [] = some ([], ⟨tcp₂, .sending l₂⟩) := rfl
  have hexec := Machine.exec_cons hrecv (Machine.exec_cons htop (Machine.exec_cons hsend hend))
  refine ⟨_, tcp₂, l₂, Machine.exec_run hexec, hflow, ?_⟩
  simp only [acked, List.countP_cons, hin]
  simp [ackIn]

/-- One packet after the other is acked. -/
theorem Flowing.run (h : Flowing n tcp l) (k : ℕ) (hk : n + k ≤ 2 ^ 30) :
    ∃ trs tcp' l', Sender.machine.Run ⟨tcp, .sending l⟩ trs ⟨tcp', .sending l'⟩ ∧
      Flowing (n + k) tcp' l' ∧ acked trs = k := by
  induction k with
  | zero => exact ⟨[], tcp, l, .refl, h, rfl⟩
  | succ k ih =>
    obtain ⟨trs, tcp₁, l₁, hr, hflow, hacc⟩ := ih (by omega)
    obtain ⟨trs', tcp₂, l₂, hr', hflow', hacc'⟩ := hflow.next (by omega)
    exact ⟨_, tcp₂, l₂, hr.append hr', hflow', by rw [acked_append, hacc, hacc']⟩

end Flow

/-- Packet 0 is acked, and two packets go out for it. -/
theorem secondWindow_flows :
    ∃ trs tcp l, Sender.machine.Run (freshSender 1) trs ⟨tcp, .sending l⟩ ∧ Flowing 1 tcp l ∧
      acked trs = 1 := by
  have hflow : (Option.get _ secondWindow_accepted).2.sending?.any fun l =>
      let tcp := (Option.get _ secondWindow_accepted).2.tcp
      (l.call = ⟨5000, false, 1, 7⟩ ∧ tcp.bnTrain = 1 ∧ tcp.largestAck = 1 ∧ tcp.lastSTs = 0 ∧
        tcp.lastAckTs = 0) ∧ tcp.cong.cwnd = 10 ∧ tcp.cong.currIntersend = 0 ∧
        tcp.cong.intersend = 0 ∧ l.seqNum = 12 ∧ l.currTs = ⟨0⟩ := by
    decide +kernel
  have hacc : acked (Option.get _ secondWindow_accepted).1 = 1 := by decide +kernel
  obtain ⟨⟨trs, s⟩, hx⟩ := Option.isSome_iff_exists.mp secondWindow_accepted
  simp only [hx, Option.get_some] at hflow hacc
  obtain ⟨l, hl, hfacts⟩ := (Option.any_eq_true ..).mp hflow
  obtain ⟨⟨hcall, hbn, hack, hlast, hheard⟩, hcwnd, hcurr, hinter, hseq, hts⟩ :=
    of_decide_eq_true hfacts
  exact ⟨trs, s.tcp, l, eq_sending hl ▸ Machine.exec_run hx,
    ⟨hcall, hbn, hack, hlast, hheard, ⟨hcwnd, hcurr, hinter⟩, hseq, hts⟩, hacc⟩

/-- After 1525202 packets that were acked one by one the count is negative. -/
theorem count_wraps :
    ∃ trs s, Sender.machine.Run (freshSender 1) trs s ∧ acked trs = 1525202 ∧
      s.tcp.nbytes.toInt = -2147482880 ∧ ¬ Tallied trs := by
  obtain ⟨trs, tcp, l, hr, hflow, hacc⟩ := secondWindow_flows
  obtain ⟨trs', tcp', l', hr', -, hacc'⟩ := hflow.run 1525201 (by decide)
  have hrun := hr.append hr'
  have hall : acked (trs ++ trs') = 1525202 := by rw [acked_append, hacc, hacc']
  refine ⟨_, _, hrun, hall, ?_, fun h => ?_⟩
  · rw [(counters_run hrun).1, hall]
    decide +kernel
  · have hlt := lt_of_tallied hrun h
    rw [hall] at hlt
    exact absurd hlt (by decide)

theorem tallied_iff_secondWindow :
    ∃ trs s, Sender.machine.Run (freshSender 1) trs s ∧
      (Tallied trs ↔ payload * acked trs < 2 ^ 31) :=
  ⟨_, _, Machine.exec_get_run secondWindow_accepted,
    tallied_iff (Machine.exec_get_run secondWindow_accepted)⟩

end TcpEyenet
