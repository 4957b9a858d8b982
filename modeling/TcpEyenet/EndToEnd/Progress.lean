import TcpEyenet.EndToEnd.Greeting
import TcpEyenet.Transport.FixedWindow
import TcpEyenet.Transport.Polls

/-! No call is ever stuck: wherever a network has brought it, it can still come to its end. -/
namespace TcpEyenet

open TcpTransport PacketHeader

/-- The datagram that a turn hands to the receiver, by its place. -/
def Turn.toReceiver : Turn → Option ℕ
  | .receiver out _ => out
  | .sender _ => none

/-- The reply that a turn hands to the sender, by its place. -/
def Turn.toSender : Turn → Option ℕ
  | .sender (.handshake _ out) | .sender (.recv _ out _) => out
  | _ => none

section Hands

variable {T : Type} [Controller T] {s t u : System T} {base m n : ℕ} {i : Input (Option ℕ)}
  {i' : Input Recv} {r : Traced Event (Sender T)} {d : List UInt8}

/-- A receive to which nothing is handed over comes back: with a negative timeout `poll` would wait
for a datagram as long as it takes. -/
def ComesBack (tr : Transition (System T) Turn Event) : Prop :=
  tr.input.toSender = none → ∀ ms, .poll ms ∈ tr.out → 0 ≤ ms

/-- The network hands over the `n` datagrams from place `base` on and their `n` replies, each once
and in order, and no others, and the sender does not wait for ever. -/
def Hands (s : System T) (base n : ℕ) (t : System T) : Prop :=
  ∃ us, System.machine.Run s us t ∧
    us.filterMap (fun tr => tr.input.toReceiver) = List.range' base n ∧
    us.filterMap (fun tr => tr.input.toSender) = List.range' s.replies.length n ∧
    t.replies.length = s.replies.length + n ∧ ∀ tr ∈ us, ComesBack tr

theorem Hands.refl (s : System T) : Hands s 0 0 s := ⟨[], .refl, rfl, rfl, rfl, by simp⟩

theorem Hands.rebase (h : Hands s 0 0 t) (base : ℕ) : Hands s base 0 t := h

theorem Hands.trans (h : Hands s base m t) (h' : Hands t (base + m) n u) :
    Hands s base (m + n) u := by
  obtain ⟨us, hus, hrcv, hsnd, hlen, hback⟩ := h
  obtain ⟨vs, hvs, hrcv', hsnd', hlen', hback'⟩ := h'
  refine ⟨us ++ vs, hus.append hvs, ?_, ?_, by omega, List.forall_mem_append.mpr ⟨hback, hback'⟩⟩
  · rw [List.filterMap_append, hrcv, hrcv', List.range'_append_1]
  · rw [List.filterMap_append, hsnd, hsnd', hlen, List.range'_append_1]

/-- Nothing is handed over first. -/
theorem Hands.after (h : Hands s 0 0 t) (h' : Hands t base n u) : Hands s base n u := by
  have hboth := (h.rebase base).trans h'
  rwa [zero_add] at hboth

/-- The system after a step of the sender. -/
def System.moved (s : System T) (r : Traced Event (Sender T)) : System T :=
  { s with sender := r.val, sent := s.sent ++ r.log.filterMap Event.datagram? }

omit [Controller T] in
theorem System.sent_moved (h : r.log.filterMap Event.datagram? = []) :
    (s.moved r).sent = s.sent := by
  simp [System.moved, h]

theorem System.takes_moved (hres : i.resolve (Reply.arrival s.replies) = some i')
    (hstep : s.sender.step i' = some r) :
    System.machine.Takes ⟨s, .sender i, r.log, s.moved r⟩ := by
  simp only [Machine.Takes, System.machine, System.step, System.senderStep, hres, bind,
    Option.bind_some, hstep]
  rfl

/-- A step of the sender to which nothing is handed over. -/
theorem Hands.own (hres : i.resolve (Reply.arrival s.replies) = some i')
    (hnone : (Turn.sender i).toSender = none) (hstep : s.sender.step i' = some r)
    (hwait : ∀ ms ∈ pollIn s.sender i', 0 ≤ ms) : Hands s 0 0 (s.moved r) := by
  refine ⟨_, .snoc .refl (System.takes_moved hres hstep), rfl, ?_, rfl, ?_⟩
  · simp [hnone]
  · simp only [List.nil_append, List.mem_singleton, forall_eq]
    exact fun _ ms hm => hwait ms (move_poll (step_move hstep) hm)

/-- The system after the receiver has answered the datagram at `n` with `ack`. -/
def System.answered (s : System T) (rx : Buf) (n : ℕ) (ack : List UInt8) : System T :=
  { s with receiver := rx, replies := s.replies ++ [⟨n, ack⟩] }

/-- A datagram goes to the receiver, and what it is answered with to the sender. -/
theorem Hands.echo (hd : s.sent[base]? = some d) (hlen : hdrSz ≤ d.length) (c : Double) :
    ∃ rx ack, ack.length = hdrSz ∧ ofBytes ack = { ofBytes d with recvTs := c } ∧
      ∀ i i' r, (Turn.sender i).toSender = some s.replies.length →
        i.resolve (Reply.arrival (s.answered rx base ack).replies) = some i' →
        s.sender.step i' = some r → Hands s base 1 ((s.answered rx base ack).moved r) := by
  obtain ⟨ack, hlog, hack, hbytes⟩ := ackPackets_datagram hlen s.receiver c
  refine ⟨(ackPackets s.receiver (.datagram d) c).val, ack, hack, hbytes, ?_⟩
  intro i i' r hto hres hstep
  have hrcv : System.machine.Takes ⟨s, .receiver (some base) c, [],
      s.answered (ackPackets s.receiver (.datagram d) c).val base ack⟩ := by
    simp only [Machine.Takes, System.machine, System.step, System.receiverStep, hd, bind,
      Option.bind_some, hlog]
    rfl
  have hsnd := System.takes_moved hres hstep
  refine ⟨_, .snoc (.snoc .refl hrcv) hsnd, ?_, ?_, ?_, ?_⟩
  · rfl
  · have hnone : (Turn.receiver (some base) c).toSender = none := rfl
    simp [hnone, hto]
  · simp [System.moved, System.answered]
  · simp [ComesBack, hto]

end Hands

variable {s t : System Eyenet} {tcp : TcpTransport Eyenet} {l : Locals} {call : Call}
  {c : Double} {q B npkts : ℤ} {base d n : ℕ} {sent : List (List UInt8)}

/-- How many acks a call still needs: one that is switched by time needs none. -/
def missing (call : Call) (npkts : ℤ) : ℕ :=
  if call.byteSwitcher then (⌈call.fsz / payload⌉ - npkts).toNat else 0

theorem missing_of_time (htime : call.byteSwitcher = false) : missing call npkts = 0 := by
  simp [missing, htime]

theorem missing_succ (hmiss : missing call npkts = n + 1) : missing call (npkts + 1) = n := by
  unfold missing at hmiss ⊢
  split_ifs at hmiss ⊢
  omega

theorem more_iff (hbyte : l.call.byteSwitcher = true) :
    tcp.switchSz l < l.call.fsz ↔ missing l.call tcp.npkts ≠ 0 := by
  have hpos : (0 : ℚ) < payload := by
    have hone : 0 < payload := by decide
    exact_mod_cast hone
  have hlt : (tcp.npkts : ℚ) * payload < l.call.fsz ↔ tcp.npkts < ⌈l.call.fsz / payload⌉ := by
    rw [Int.lt_ceil, lt_div_iff₀ hpos]
  simp only [switchSz, hbyte, if_true, hlt, missing]
  omega

/-- A call that is switched by time goes on until its time has come. -/
theorem not_more (htime : l.call.byteSwitcher = false) (hfsz : l.call.fsz ≤ l.currTs.val) :
    ¬ tcp.switchSz l < l.call.fsz := by
  rw [switchSz, htime]
  simpa using hfsz

/-- The packets from `q` on have gone out at `c` and lie in the network from place `base` on. -/
structure Streams (call : Call) (c : Double) (q : ℤ) (base : ℕ) (sent : List (List UInt8))
    (tcp : TcpTransport Eyenet) (l : Locals) : Prop where
  bnTrain : 1 ≤ tcp.bnTrain
  nprobe : tcp.cong.nprobe = 10
  cong : Unpaced tcp.cong
  ofCall : l.call = call
  currTs : l.currTs = c
  nonneg : 0 ≤ q
  length : (sent.length : ℤ) = base + (l.seqNum - q)
  posted : ∀ k : ℕ, q + k < l.seqNum → ∃ d ∈ sent[base + k]?, hdrSz ≤ d.length ∧
    ofBytes d = createHeader (q + k) call.fid call.sid c

theorem Streams.start (hst : Steady ⟨tcp, .sending l⟩) (hnn : 0 ≤ l.seqNum)
    (sent : List (List UInt8)) :
    Streams l.call l.currTs l.seqNum sent.length sent tcp l := by
  refine ⟨hst.bnTrain, hst.nprobe, hst.inside l (.inr rfl), rfl, rfl, hnn, by simp, ?_⟩
  intro k hk
  omega

theorem Streams.steady (h : Streams call c q base sent tcp l) (ph : Phase) : Steady ⟨tcp, ph⟩ :=
  ⟨h.bnTrain, h.nprobe, fun _ _ => h.cong⟩

/-- The packet with the next number lies at the next place. -/
theorem Streams.post (h : Streams call c q base sent tcp l) {cong : Eyenet} {l' : Locals}
    {data : List UInt8} (hst : Steady ⟨tcp.setCong cong, .sending l'⟩) (hcall : l'.call = l.call)
    (hts : l'.currTs = l.currTs) (hseq : l'.seqNum = l.seqNum + 1) (hdata : hdrSz ≤ data.length)
    (hhdr : ofBytes data = createHeader l.seqNum l.call.fid l.call.sid l.currTs) :
    Streams call c q base (sent ++ [data]) (tcp.setCong cong) l' := by
  have hlen := h.length
  refine ⟨h.bnTrain, hst.nprobe, hst.inside l' (.inr rfl), hcall.trans h.ofCall,
    hts.trans h.currTs, h.nonneg, ?_, ?_⟩
  · rw [List.length_append, List.length_singleton]
    push_cast
    omega
  · intro k hk
    by_cases hlt : q + k < l.seqNum
    · obtain ⟨d, hd, hd'⟩ := h.posted k hlt
      refine ⟨d, ?_, hd'⟩
      rw [List.getElem?_append_left (by omega)]
      exact hd
    · have hlast : q + k = l.seqNum := by omega
      have hplace : base + k = sent.length := by omega
      refine ⟨data, by simp [hplace], hdata, ?_⟩
      rw [hhdr, hlast, h.ofCall, h.currTs]

/-- Without spacing a send changes the controller and nothing else. -/
theorem Unpaced.sendOne_tcp (h : Unpaced tcp.cong) (l : Locals) :
    ∃ cong, (tcp.sendOne l).val.tcp = tcp.setCong cong := by
  obtain ⟨cong, ts, htcp⟩ := TcpTransport.sendOne_tcp tcp l
  have hlast := sendOne_lastSTs tcp l
  rw [h.intersend, add_zero, htcp] at hlast
  obtain rfl : ts = tcp.lastSTs := hlast
  exact ⟨cong, htcp⟩

/-- One more packet. -/
theorem Streams.send (h : Streams call c q base s.sent tcp l) (hs : s.sender = ⟨tcp, .sending l⟩)
    (ht : (tcp.test l).val = some true) (hfit : l.seqNum < 2 ^ 31 - 1) :
    ∃ t cong l', Hands s 0 0 t ∧ t.sender = ⟨tcp.setCong cong, .sending l'⟩ ∧
      l'.seqNum = l.seqNum + 1 ∧ Streams call c q base t.sent (tcp.setCong cong) l' := by
  have hne : tcp.bnTrain ≠ 0 := by
    have hbn := h.bnTrain
    omega
  obtain ⟨cong, htcp⟩ := h.cong.sendOne_tcp l
  obtain ⟨tcp', -, ⟨-, hv⟩ | ⟨hno, -⟩⟩ := sendOne_cases hne l
  · rw [hv] at htcp
    obtain rfl : tcp' = tcp.setCong cong := htcp
    have hstep : s.sender.step .send =
        some ⟨⟨tcp.setCong cong, .sending { l with buf := stamped l, seqNum := l.seqNum + 1 }⟩,
          (tcp.test l).log ++ (tcp.sendOne l).log⟩ := by
      rw [hs, ← hv]
      simp [Sender.step, trySend, ht]
    have hdata : ((tcp.test l).log ++ (tcp.sendOne l).log).filterMap Event.datagram? =
        [(stamped l).load 0 pktSz] := by
      rw [List.filterMap_append, filterMap_quiet (test_log tcp l), sendOne_datagrams]
      rfl
    refine ⟨_, cong, _, Hands.own (i := .send) rfl rfl hstep (by simp [hs, pollIn]), rfl, rfl, ?_⟩
    simp only [System.moved, hdata]
    exact h.post (move_steady (step_move hstep) (hs ▸ h.steady _)) rfl rfl rfl
      (by simp [hdrSz, pktSz]) (ofBytes_load_store _ _ (by decide))
  · exact absurd hfit hno

/-- A train ends by `B` at the latest. -/
theorem lt_of_test (hu : Unpaced tcp.cong) (hdvd : tcp.bnTrain ∣ B)
    (hle : l.seqNum ≤ B) (hack : tcp.largestAck + 11 ≤ B) (ht : (tcp.test l).val = some true) :
    l.seqNum < B := by
  rcases test_eq_true ht with hopen | ⟨-, hmod⟩
  · have hcwnd : Controller.cwnd tcp.cong = 10 := hu.cwnd
    simp only [windowOpen, hcwnd, decide_eq_true_eq] at hopen
    have hlt : l.seqNum < tcp.largestAck + 10 + 1 := by exact_mod_cast hopen.1
    omega
  · refine lt_of_le_of_ne hle fun heq => hmod (Int.tmod_eq_zero_of_dvd ?_)
    rwa [heq]

/-- The inner loop, up to its end. -/
theorem Streams.drain (h : Streams call c q base s.sent tcp l)
    (hs : s.sender = ⟨tcp, .sending l⟩) (hdvd : tcp.bnTrain ∣ B) (hle : l.seqNum ≤ B)
    (hack : tcp.largestAck + 11 ≤ B) (hfit : B < 2 ^ 31) :
    ∃ t cong l', Hands s 0 0 t ∧ t.sender = ⟨tcp.setCong cong, .sending l'⟩ ∧
      l.seqNum ≤ l'.seqNum ∧ l'.seqNum ≤ B ∧ ((tcp.setCong cong).test l').val = some false ∧
      Streams call c q base t.sent (tcp.setCong cong) l' := by
  -- each packet takes `seq_num` closer to `B`
  induction hm : (B - l.seqNum).toNat using Nat.strong_induction_on generalizing s tcp l with
  | _ m ih =>
    cases ht : (tcp.test l).val with
    | none =>
      have hbn := h.bnTrain
      have hzero := test_eq_none ht
      omega
    | some more =>
      cases more with
      | false => exact ⟨s, tcp.cong, l, .refl s, hs, le_rfl, hle, ht, h⟩
      | true =>
        have hlt := lt_of_test h.cong hdvd hle hack ht
        obtain ⟨t, cong, l₁, hhands, ht₁, hseq, hstreams⟩ := h.send hs ht (by omega)
        obtain ⟨u, cong', l₂, hhands', ht₂, hseq', hle₂, hend, hstreams'⟩ :=
          ih _ (by omega) hstreams ht₁ hdvd (by omega) hack rfl
        exact ⟨u, cong', l₂, hhands.after hhands', ht₂, by omega, hle₂, hend, hstreams'⟩

/-- All that is known of the acks: the first `d` packets from `q` on are acked, at `c`. -/
structure Acked (c : Double) (q : ℤ) (d : ℕ) (tcp : TcpTransport Eyenet) : Prop where
  lastSTs : tcp.lastSTs ≤ c.val
  lastAckTs : tcp.lastAckTs = c.val
  lower : q + d - 1 ≤ tcp.largestAck
  upper : tcp.largestAck ≤ q + d

/-- After the inner loop there is a packet that is not yet acked. -/
theorem Acked.unacked (ha : Acked c q d tcp) (h : Streams call c q base sent tcp l)
    (ht : (tcp.test l).val = some false) : q + d < l.seqNum := by
  have hclosed := (test_eq_false ht).1
  by_contra hle
  have hcwnd : Controller.cwnd tcp.cong = 10 := h.cong.cwnd
  have hintersend : Controller.intersend tcp.cong = 0 := h.cong.intersend
  have hlower := ha.lower
  have hlt : l.seqNum < tcp.largestAck + 10 + 1 := by omega
  have hclock : tcp.lastSTs ≤ l.currTs.val := h.currTs ▸ ha.lastSTs
  simp only [windowOpen, hcwnd, hintersend, zero_mul, add_zero, hclock, and_true,
    decide_eq_false_iff_not] at hclosed
  exact hclosed (by exact_mod_cast hlt)

/-- An ack of the call, which the controller never hears of. -/
theorem receive_accepts {ack : List UInt8} (hbn : tcp.bnTrain ≠ 0) (hu : Unpaced tcp.cong)
    (hclock : tcp.lastSTs ≤ l.currTs.val) (hlen : hdrSz ≤ ack.length)
    (hacc : l.call.accepts (ofBytes ack) = true) (c₂ c₃ : Double) :
    ∃ buf rateEst, (tcp.receive l c₂ (.datagram ack) c₃).val =
      ⟨{ tcp with lastSTs := l.currTs.val }.credited (ofBytes ack) c₃,
        .top { l with buf := buf, currTs := c₃, rateEst := rateEst }⟩ := by
  have hclean : Recv.datagram ack = .timeout ∨ (Recv.datagram ack).whole = true :=
    .inr (decide_eq_true hlen)
  have hrc := rc_clean hclean l.buf
  have hread := read_clean hclean l.buf rfl
  obtain ⟨log, -, -, ⟨hno, -⟩ | ⟨-, hno, -⟩ | ⟨-, -, cong, rateEst, hnud, hv⟩⟩ :=
    receive_cases hbn l c₂ (.datagram ack) c₃
  · exact absurd (hrc.mp hno) (by simp [Recv.header?])
  · rw [hread, hacc] at hno
    simp at hno
  · rw [hread, snap_slide hu hclock, Eyenet.eq_of_nudged hnud] at hv
    exact ⟨_, rateEst, hv⟩

/-- The first packet that is not yet acked goes to the receiver, and its ack to the sender. -/
theorem Acked.answer (ha : Acked c q d tcp) (h : Streams call c q base s.sent tcp l)
    (hs : s.sender = ⟨tcp, .sending l⟩) (ht : (tcp.test l).val = some false)
    (hfit : l.seqNum ≤ 2 ^ 31) :
    ∃ t tcp' l', Hands s (base + d) 1 t ∧ t.sender = ⟨tcp', .top l'⟩ ∧
      tcp'.npkts = tcp.npkts + 1 ∧ tcp'.bnTrain = tcp.bnTrain ∧ l'.seqNum = l.seqNum ∧
      Acked c q (d + 1) tcp' ∧ Streams call c q base t.sent tcp' l' := by
  obtain ⟨data, hdata, hlen, hhdr⟩ := h.posted d (ha.unacked h ht)
  obtain ⟨rx, ack, hack, hbytes, hecho⟩ := Hands.echo hdata hlen c
  have hseq : (ofBytes ack).seqNum.toInt = q + d := by
    have hnn := h.nonneg
    have hlt := ha.unacked h ht
    rw [hbytes, hhdr]
    exact Int32.toInt_ofInt_of_le (by omega) (by omega)
  have hacc : l.call.accepts (ofBytes ack) = true := by
    rw [hbytes, hhdr, h.ofCall]
    simp [Call.accepts, createHeader]
  obtain ⟨buf, rateEst, hv⟩ := receive_accepts (test_eq_false ht).2.1 h.cong
    (h.currTs ▸ ha.lastSTs) hack.ge hacc c c
  have hstep : s.sender.step (.recv c (.datagram ack) c) =
      some ⟨(tcp.receive l c (.datagram ack) c).val,
        (tcp.test l).log ++ (tcp.receive l c (.datagram ack) c).log⟩ := by
    rw [hs]
    simp [Sender.step, tryReceive, ht]
  have hquiet := move_datagrams (step_move hstep) (by rw [hs]; rfl)
  refine ⟨_, _, _, hecho (.recv c (some s.replies.length) c) _ _ rfl
    (by simp [Input.resolve, Reply.arrival, System.answered]) hstep, hv, rfl, rfl, rfl, ?_, ?_⟩
  · have hlower := ha.lower
    have hupper := ha.upper
    refine ⟨(congrArg Double.val h.currTs).le, rfl, ?_, ?_⟩
    · simp only [credited_largestAck, hseq]
      push_cast
      omega
    · simp only [credited_largestAck, hseq]
      push_cast
      omega
  · rw [System.sent_moved hquiet]
    exact ⟨h.bnTrain, h.nprobe, h.cong, h.ofCall, rfl, h.nonneg, h.length, h.posted⟩

/-- The call is over. -/
theorem Hands.finish (hs : s.sender = ⟨tcp, .top l⟩) (hdone : ¬ tcp.switchSz l < l.call.fsz)
    (c : Double) : ∃ t, Hands s 0 0 t ∧ t.sender.phase = .idle := by
  have hstep : s.sender.step (.top c) = some (tcp.finish c) := by
    rw [hs]
    simp [Sender.step, hdone]
  exact ⟨_, Hands.own (i := .top c) rfl rfl hstep (by simp [hs, pollIn]), rfl⟩

/-- The loop goes on. -/
theorem Hands.enter (hs : s.sender = ⟨tcp, .top l⟩) (hmore : tcp.switchSz l < l.call.fsz)
    (c : Double) :
    ∃ t, Hands s 0 0 t ∧ t.sent = s.sent ∧ (Steady s.sender → Steady t.sender) ∧
      t.sender = ⟨(tcp.giveUp { l with currTs := c }).val, .sending { l with currTs := c }⟩ := by
  have hstep : s.sender.step (.top c) = some (tcp.enter l c) := by
    rw [hs]
    simp [Sender.step, hmore]
  have hquiet := move_datagrams (.enter tcp l c hmore) rfl
  exact ⟨_, Hands.own (i := .top c) rfl rfl hstep (by simp [hs, pollIn]),
    System.sent_moved hquiet, move_steady (step_move hstep), rfl⟩

/-- One iteration of the outer loop, up to the ack of the next packet. -/
theorem Acked.round (ha : Acked c q d tcp) (h : Streams call c q base s.sent tcp l)
    (hs : s.sender = ⟨tcp, .sending l⟩) (hdvd : tcp.bnTrain ∣ B) (hle : l.seqNum ≤ B)
    (hroom : q + d + 11 ≤ B) (hfit : B < 2 ^ 31) :
    ∃ t tcp' l', Hands s (base + d) 1 t ∧ t.sender = ⟨tcp', .top l'⟩ ∧
      tcp'.npkts = tcp.npkts + 1 ∧ tcp'.bnTrain = tcp.bnTrain ∧ l'.seqNum ≤ B ∧
      Acked c q (d + 1) tcp' ∧ Streams call c q base t.sent tcp' l' := by
  have hupper := ha.upper
  obtain ⟨t, cong, l₁, hhands, ht, -, hle₁, hend, hstreams⟩ :=
    h.drain hs hdvd hle (by omega) hfit
  have ha' : Acked c q d (tcp.setCong cong) := ⟨ha.lastSTs, ha.lastAckTs, ha.lower, ha.upper⟩
  obtain ⟨u, tcp', l₂, hhands', hu, hnpkts, hbn, hseq, hacked, hstreams'⟩ :=
    ha'.answer hstreams ht hend (by omega)
  exact ⟨u, tcp', l₂, hhands.after hhands', hu, hnpkts, hbn, by omega, hacked, hstreams'⟩

/-- Right after an ack there is nothing to give up. -/
theorem giveUp_of_eq (h : tcp.lastAckTs = l.currTs.val) : (tcp.giveUp l).val = tcp := by
  rw [TcpTransport.giveUp, h, if_neg (by norm_num)]
  rfl

/-- Packet for packet and ack for ack, up to the end. -/
theorem Acked.complete (ha : Acked c q d tcp) (h : Streams call c q base s.sent tcp l)
    (hs : s.sender = ⟨tcp, .sending l⟩) (hbyte : call.byteSwitcher = true)
    (hmiss : missing call tcp.npkts = n + 1) (hdvd : tcp.bnTrain ∣ B) (hle : l.seqNum ≤ B)
    (hroom : q + d + n + 11 ≤ B) (hfit : B < 2 ^ 31) :
    ∃ t, Hands s (base + d) (n + 1) t ∧ t.sender.phase = .idle := by
  -- the induction is on the acks that are missing after the next one
  induction n generalizing s tcp l d with
  | zero =>
    obtain ⟨t, tcp', l', hhands, ht, hnpkts, -, -, -, hstreams⟩ :=
      ha.round h hs hdvd hle (by omega) hfit
    have hdone : ¬ tcp'.switchSz l' < l'.call.fsz := by
      rw [more_iff (hstreams.ofCall ▸ hbyte), hstreams.ofCall, hnpkts, missing_succ hmiss]
      simp
    obtain ⟨u, hhands', hidle⟩ := Hands.finish ht hdone c
    exact ⟨u, hhands.trans (hhands'.rebase _), hidle⟩
  | succ n ih =>
    push_cast at hroom
    obtain ⟨t, tcp', l', hhands, ht, hnpkts, hbn, hle', hacked, hstreams⟩ :=
      ha.round h hs hdvd hle (by omega) hfit
    have hmiss' : missing call tcp'.npkts = n + 1 := by rw [hnpkts, missing_succ hmiss]
    have hmore : tcp'.switchSz l' < l'.call.fsz := by
      rw [more_iff (hstreams.ofCall ▸ hbyte), hstreams.ofCall, hmiss']
      simp
    obtain ⟨u, hhands', hsent, -, hu⟩ := Hands.enter ht hmore c
    rw [giveUp_of_eq (l := { l' with currTs := c }) hacked.lastAckTs] at hu
    have hstreams' : Streams call c q base u.sent tcp' { l' with currTs := c } := by
      rw [hsent]
      exact ⟨hstreams.bnTrain, hstreams.nprobe, hstreams.cong, hstreams.ofCall, rfl,
        hstreams.nonneg, hstreams.length, hstreams.posted⟩
    obtain ⟨v, hhands'', hidle⟩ := ih hacked hstreams' hu hmiss' (hbn ▸ hdvd) hle'
      (by push_cast; omega)
    have hall := hhands.trans (hhands'.after hhands'')
    rw [add_comm 1] at hall
    exact ⟨v, hall, hidle⟩

theorem exists_dvd_between {bn : ℤ} (hbn : 1 ≤ bn) (x : ℤ) :
    ∃ B, bn ∣ B ∧ x ≤ B ∧ B < x + bn := by
  have hnn := Int.emod_nonneg (-x) (by omega : bn ≠ 0)
  have hlt := Int.emod_lt_of_pos (-x) (by omega : 0 < bn)
  refine ⟨(-x) % bn - (-x), Int.dvd_emod_sub_self, by omega, by omega⟩

/-- From a window whose first packet has not gone out. -/
theorem Hands.flow (hs : s.sender = ⟨tcp, .sending l⟩) (hst : Steady s.sender)
    (hnn : 0 ≤ l.seqNum) (hack : tcp.largestAck = l.seqNum - 1)
    (hlast : tcp.lastSTs ≤ l.currTs.val) (hacked : tcp.lastAckTs = l.currTs.val)
    (hbyte : l.call.byteSwitcher = true) (hmiss : missing l.call tcp.npkts = n + 1)
    (hroom : l.seqNum + n + 11 + tcp.bnTrain ≤ 2 ^ 31) :
    ∃ t, Hands s s.sent.length (n + 1) t ∧ t.sender.phase = .idle := by
  rw [hs] at hst
  obtain ⟨B, hdvd, hle, hlt⟩ := exists_dvd_between hst.bnTrain (l.seqNum + n + 11)
  have hbelow : B < 2 ^ 31 := hlt.trans_le hroom
  have ha : Acked l.currTs l.seqNum 0 tcp :=
    ⟨hlast, hacked, by simp [hack], by simp [hack]⟩
  exact ha.complete (Streams.start hst hnn s.sent) hs hbyte hmiss hdvd (by omega)
    (by simpa using hle) hbelow

/-- From the top of the loop, where the next iteration opens a window from `seq_num` on. -/
theorem Hands.window (hs : s.sender = ⟨tcp, .top l⟩) (hst : Steady s.sender)
    (hnn : 0 ≤ l.seqNum) (hbyte : l.call.byteSwitcher = true)
    (hack : (tcp.giveUp { l with currTs := c }).val.largestAck = l.seqNum - 1)
    (hlast : (tcp.giveUp { l with currTs := c }).val.lastSTs ≤ c.val)
    (hacked : (tcp.giveUp { l with currTs := c }).val.lastAckTs = c.val)
    (hroom : l.seqNum + missing l.call tcp.npkts + 11 + tcp.bnTrain ≤ 2 ^ 31) :
    ∃ t, Hands s s.sent.length (missing l.call tcp.npkts) t ∧ t.sender.phase = .idle := by
  have hmore : tcp.switchSz l < l.call.fsz ↔ missing l.call tcp.npkts ≠ 0 := more_iff hbyte
  cases hmiss : missing l.call tcp.npkts with
  | zero =>
    obtain ⟨t, hhands, hidle⟩ := Hands.finish hs (by simp [hmore, hmiss]) c
    exact ⟨t, hhands.rebase _, hidle⟩
  | succ n =>
    rw [hmiss] at hroom
    push_cast at hroom
    obtain ⟨t, hhands, hsent, hnext, ht⟩ := Hands.enter hs (hmore.mpr (by simp [hmiss])) c
    have hmiss' : missing l.call (tcp.giveUp { l with currTs := c }).val.npkts = n + 1 := by
      rw [giveUp_npkts, hmiss]
    have hroom' : l.seqNum + n + 11 + (tcp.giveUp { l with currTs := c }).val.bnTrain ≤
        2 ^ 31 := by
      rw [giveUp_bnTrain]
      omega
    obtain ⟨u, hhands', hidle⟩ :=
      Hands.flow ht (hnext hst) hnn hack hlast hacked hbyte hmiss' hroom'
    rw [hsent] at hhands'
    exact ⟨u, hhands.after hhands', hidle⟩

/-- From the top of the loop, where the last ack is too old. -/
theorem Hands.resume (hs : s.sender = ⟨tcp, .top l⟩) (hst : Steady s.sender)
    (hnn : 0 ≤ l.seqNum) (hlate : c.val - tcp.lastAckTs > 2000)
    (hbyte : l.call.byteSwitcher = true)
    (hroom : l.seqNum + missing l.call tcp.npkts + 11 + tcp.bnTrain ≤ 2 ^ 31) :
    ∃ t, Hands s s.sent.length (missing l.call tcp.npkts) t ∧ t.sender.phase = .idle := by
  have hreset : (tcp.giveUp { l with currTs := c }).val =
      { tcp with
        cong := (tcp.cong.setTs c.val).initialise
        largestAck := l.seqNum - 1
        lastSTs := c.val
        lastAckTs := c.val } := by
    rw [TcpTransport.giveUp, if_pos hlate]
    rfl
  exact Hands.window hs hst hnn hbyte (by rw [hreset]) (by rw [hreset]) (by rw [hreset]) hroom

/-- A sender that polls at the reading of its iteration does not wait for ever. -/
theorem poll_at_once (hu : Unpaced tcp.cong) (l : Locals) :
    0 ≤ truncate ((tcp.snap l).timeout l.currTs) := by
  have hcwnd : Controller.cwnd tcp.cong = 10 := hu.cwnd
  have hintersend : Controller.intersend tcp.cong = 0 := hu.intersend
  have hlast : l.currTs.val ≤ (tcp.snap l).lastSTs := by
    unfold snap
    rw [hintersend, zero_mul]
    split_ifs with hif
    · exact le_rfl
    · have hlate := (not_or.mp hif).1
      linarith
  rw [truncate_nonneg, timeout, snap_cong, hcwnd, hintersend, zero_mul, add_zero,
    if_pos (by norm_num), lt_min_iff]
  exact ⟨by norm_num, by linarith⟩

/-- Nothing comes in time, to a poll at the reading of the iteration. -/
theorem Hands.timeout (hs : s.sender = ⟨tcp, .sending l⟩) (hu : Unpaced tcp.cong)
    (ht : (tcp.test l).val = some false) (c : Double) :
    ∃ t buf ts, Hands s 0 0 t ∧ t.sent = s.sent ∧ (Steady s.sender → Steady t.sender) ∧
      t.sender = ⟨{ tcp with lastSTs := ts }, .top { l with buf := buf, currTs := c }⟩ := by
  have hstep : s.sender.step (.recv l.currTs .timeout c) =
      some ⟨(tcp.receive l l.currTs .timeout c).val,
        (tcp.test l).log ++ (tcp.receive l l.currTs .timeout c).log⟩ := by
    rw [hs]
    simp [Sender.step, tryReceive, ht]
  have hquiet := move_datagrams (step_move hstep) (by rw [hs]; rfl)
  have hnext := move_steady (step_move hstep)
  obtain ⟨log, -, -, ⟨-, cong, hnud, hv⟩ | ⟨hrc, -⟩ | ⟨hrc, -⟩⟩ :=
    receive_cases (test_eq_false ht).2.1 l l.currTs .timeout c
  · obtain ⟨ts, hsnap⟩ := snap_eq tcp l
    rw [hsnap, Eyenet.eq_of_nudged hnud] at hv
    have hwait : ∀ ms ∈ pollIn s.sender (.recv l.currTs .timeout c), 0 ≤ ms := by
      rw [hs]
      rintro ms hms
      obtain rfl := Option.some.inj hms
      exact poll_at_once hu l
    exact ⟨_, _, ts, Hands.own (i := .recv l.currTs none c) rfl rfl hstep hwait,
      System.sent_moved hquiet, hnext, hv⟩
  · exact absurd rfl hrc
  · exact absurd rfl hrc

/-- The rest of an iteration in which nothing comes. -/
theorem Hands.idle (hs : s.sender = ⟨tcp, .sending l⟩) (hst : Steady s.sender)
    (hnn : 0 ≤ l.seqNum) (hroom : max l.seqNum tcp.largestAck + 11 + tcp.bnTrain ≤ 2 ^ 31)
    (c : Double) :
    ∃ t tcp' l', Hands s 0 0 t ∧ s.sent.length ≤ t.sent.length ∧ Steady t.sender ∧
      t.sender = ⟨tcp', .top l'⟩ ∧ tcp'.npkts = tcp.npkts ∧ tcp'.lastAckTs = tcp.lastAckTs ∧
      tcp'.bnTrain = tcp.bnTrain ∧ l'.call = l.call ∧ l'.currTs = c ∧ l.seqNum ≤ l'.seqNum ∧
      l'.seqNum < max l.seqNum tcp.largestAck + 11 + tcp.bnTrain := by
  rw [hs] at hst
  have hbn : 1 ≤ tcp.bnTrain := hst.bnTrain
  obtain ⟨B, hdvd, hle, hlt⟩ := exists_dvd_between hbn (max l.seqNum tcp.largestAck + 11)
  obtain ⟨t, cong, l', hhands, ht, hseq, hle', hend, hstreams⟩ :=
    (Streams.start hst hnn s.sent).drain hs hdvd (by omega) (by omega) (by omega)
  obtain ⟨u, buf, ts, hhands', hsent, hnext, hu⟩ := Hands.timeout ht hstreams.cong hend c
  have hlen := hstreams.length
  exact ⟨u, _, _, hhands.after hhands', by rw [hsent]; omega, hnext (ht ▸ hstreams.steady _), hu,
    rfl, rfl, rfl, hstreams.ofCall, rfl, hseq, by simp; omega⟩

/-- From the inner loop, once the last ack is too old. -/
theorem Hands.recover (hs : s.sender = ⟨tcp, .sending l⟩) (hst : Steady s.sender)
    (hnn : 0 ≤ l.seqNum) (hlate : c.val - tcp.lastAckTs > 2000)
    (hbyte : l.call.byteSwitcher = true)
    (hroom : max l.seqNum tcp.largestAck + missing l.call tcp.npkts + 2 * (tcp.bnTrain + 11) <
      2 ^ 31) :
    ∃ base t, s.sent.length ≤ base ∧ Hands s base (missing l.call tcp.npkts) t ∧
      t.sender.phase = .idle := by
  have hbn : 1 ≤ tcp.bnTrain := by
    rw [hs] at hst
    exact hst.bnTrain
  obtain ⟨t, tcp', l', hhands, hlen, hst', ht, hnpkts, hlast, hbn', hcall, -, hseq, hlt⟩ :=
    Hands.idle hs hst hnn (by omega) c
  rw [← hcall] at hbyte hroom ⊢
  rw [← hnpkts] at hroom ⊢
  obtain ⟨u, hhands', hidle⟩ := Hands.resume ht hst' (hnn.trans hseq) (hlast ▸ hlate) hbyte
    (by omega)
  exact ⟨t.sent.length, u, hlen, hhands.after hhands', hidle⟩

/-- From the inner loop, once the time of the call is over. -/
theorem Hands.expire (hs : s.sender = ⟨tcp, .sending l⟩) (hst : Steady s.sender)
    (hnn : 0 ≤ l.seqNum) (htime : l.call.byteSwitcher = false) (hfsz : l.call.fsz ≤ c.val)
    (hroom : max l.seqNum tcp.largestAck + 11 + tcp.bnTrain ≤ 2 ^ 31) :
    ∃ t, Hands s 0 0 t ∧ t.sender.phase = .idle := by
  obtain ⟨t, tcp', l', hhands, -, -, ht, -, -, -, hcall, hts, -, -⟩ :=
    Hands.idle hs hst hnn hroom c
  rw [← hcall] at htime hfsz
  rw [← hts] at hfsz
  obtain ⟨u, hhands', hidle⟩ := Hands.finish ht (not_more htime hfsz) c
  exact ⟨u, hhands.after hhands', hidle⟩

/-- From the top of the loop, once the time of the call is over. -/
theorem Hands.overtime (hs : s.sender = ⟨tcp, .top l⟩) (hst : Steady s.sender)
    (hnn : 0 ≤ l.seqNum) (htime : l.call.byteSwitcher = false) (hfsz : l.call.fsz ≤ c.val)
    (hroom : max l.seqNum tcp.largestAck + 11 + tcp.bnTrain ≤ 2 ^ 31) :
    ∃ t, Hands s 0 0 t ∧ t.sender.phase = .idle := by
  by_cases hmore : tcp.switchSz l < l.call.fsz
  · obtain ⟨t, hhands, -, hnext, ht⟩ := Hands.enter hs hmore c
    have hack : (tcp.giveUp { l with currTs := c }).val.largestAck ≤
        max l.seqNum tcp.largestAck := by
      rw [giveUp_largestAck]
      split_ifs
      · exact (sub_one_lt l.seqNum).le.trans (le_max_left _ _)
      · exact le_max_right _ _
    have hroom' : max l.seqNum (tcp.giveUp { l with currTs := c }).val.largestAck + 11 +
        (tcp.giveUp { l with currTs := c }).val.bnTrain ≤ 2 ^ 31 := by
      rw [giveUp_bnTrain]
      omega
    obtain ⟨u, hhands', hidle⟩ := Hands.expire ht (hnext hst) hnn htime hfsz hroom'
    exact ⟨u, hhands.after hhands', hidle⟩
  · exact Hands.finish hs hmore c

/-- The loop begins. -/
theorem Hands.start (hs : s.sender = ⟨tcp, .connected call⟩) (hst : Steady s.sender) (c : Double) :
    ∃ t tcp' l, Hands s 0 0 t ∧ t.sent = s.sent ∧ Steady t.sender ∧ t.sender = ⟨tcp', .top l⟩ ∧
      tcp'.largestAck = tcp.largestAck ∧ tcp'.lastSTs = c.val ∧ tcp'.lastAckTs = c.val ∧
      tcp'.npkts = tcp.npkts ∧ tcp'.bnTrain = tcp.bnTrain ∧ l.call = call ∧ l.currTs = c ∧
      l.seqNum = 0 := by
  have hstep : s.sender.step (.start c c) = some (tcp.start call c c) := by
    rw [hs]
    rfl
  have hquiet := move_datagrams (.start tcp call c c) rfl
  have hst' : Steady (tcp.start call c c).val := move_steady (step_move hstep) hst
  exact ⟨_, _, _, Hands.own (i := .start c c) rfl rfl hstep (by simp [hs, pollIn]),
    System.sent_moved hquiet, hst', rfl, rfl, rfl, rfl, rfl, rfl, rfl, rfl, rfl⟩

/-- From a connection. -/
theorem Hands.open (hs : s.sender = ⟨tcp, .connected call⟩) (hst : Steady s.sender)
    (hack : tcp.largestAck = -1) (hdue : call.byteSwitcher = false → call.fsz ≤ c.val)
    (hroom : missing call tcp.npkts + 11 + tcp.bnTrain ≤ 2 ^ 31) :
    ∃ t, Hands s s.sent.length (missing call tcp.npkts) t ∧ t.sender.phase = .idle := by
  obtain ⟨t, tcp', l, hhands, hsent, hst', ht, hack', hlast, hacked, hnpkts, hbn, rfl, rfl, hseq⟩ :=
    Hands.start hs hst c
  cases hbyte : l.call.byteSwitcher with
  | false =>
    obtain ⟨u, hhands', hidle⟩ := Hands.finish ht (not_more hbyte (hdue hbyte)) l.currTs
    rw [missing_of_time hbyte]
    exact ⟨u, (hhands.after hhands').rebase _, hidle⟩
  | true =>
    rw [← hnpkts, ← hbn] at hroom
    have hkeep : (tcp'.giveUp { l with currTs := l.currTs }).val = tcp' := giveUp_of_eq hacked
    obtain ⟨u, hhands', hidle⟩ := Hands.window ht hst' hseq.ge hbyte (by rw [hkeep]; omega)
      (by rw [hkeep, hlast]) (by rw [hkeep, hacked]) (by omega)
    rw [hsent, hnpkts] at hhands'
    exact ⟨u, hhands.after hhands', hidle⟩

/-- A greeting goes out, and nothing comes in time. -/
theorem shake_due (tcp : TcpTransport Eyenet) (call : Call) (buf : Buf) {lastSTs : ℚ}
    (hdue : lastSTs < c.val - 200) :
    ∃ buf' data, tcp.shake call buf lastSTs c .timeout =
        ⟨⟨tcp, .shaking call buf' c.val⟩, [.datagram data, .poll 200]⟩ ∧
      hdrSz ≤ data.length ∧ ofBytes data = hello := by
  refine ⟨buf.store 0 hello.bytes, (buf.store 0 hello.bytes).load 0 (hdrSz * 2), ?_,
    by simp [hdrSz], ofBytes_load_store hello buf (by decide)⟩
  simp only [shake, TcpTransport.greet, if_pos hdue]
  rfl

/-- A greeting comes back before the next one is due. -/
theorem shake_greeted {ack : List UInt8} (buf : Buf) {lastSTs : ℚ}
    (hdue : ¬ lastSTs < c.val - 200) (hlen : hdrSz ≤ ack.length)
    (hhello : (ofBytes ack).isHello = true) :
    tcp.shake call buf lastSTs c (.datagram ack) = ⟨⟨tcp, .connected call⟩, [.poll 200]⟩ := by
  have hclean : Recv.datagram ack = .timeout ∨ (Recv.datagram ack).whole = true :=
    .inr (decide_eq_true hlen)
  have hmet := (met_iff hclean buf).mpr (by simpa [Recv.header?] using hhello)
  have hgreet : TcpTransport.greet buf lastSTs c = pure (buf, lastSTs) := if_neg hdue
  apply Traced.ext
  · simp only [shake, hgreet, Traced.bind_val, Traced.pure_val, if_pos hmet]
  · simp only [shake, hgreet, Traced.bind_log, Traced.pure_val, if_pos hmet]
    rfl

/-- From a handshake, once another greeting is due. -/
theorem Hands.greet {buf : Buf} {lastSTs : ℚ} (hs : s.sender = ⟨tcp, .shaking call buf lastSTs⟩)
    (hdue : lastSTs < c.val - 200) :
    ∃ t, Hands s s.sent.length 1 t ∧ (Steady s.sender → Steady t.sender) ∧
      t.sender = ⟨tcp, .connected call⟩ ∧ t.sent.length = s.sent.length + 1 := by
  obtain ⟨buf', data, hshake, hlen, hhello⟩ := shake_due tcp call buf hdue
  have hstep : s.sender.step (.handshake c .timeout) =
      some ⟨⟨tcp, .shaking call buf' c.val⟩, [.datagram data, .poll 200]⟩ := by
    rw [hs, ← hshake]
    rfl
  obtain ⟨t, hhands, ht, hsent⟩ : ∃ t, Hands s 0 0 t ∧
      t.sender = ⟨tcp, .shaking call buf' c.val⟩ ∧ t.sent = s.sent ++ [data] :=
    ⟨_, Hands.own (i := .handshake c none) rfl rfl hstep (by simp [hs, pollIn]), rfl, rfl⟩
  have hdata : t.sent[s.sent.length]? = some data := by simp [hsent]
  obtain ⟨rx, ack, hack, hbytes, hecho⟩ := Hands.echo hdata hlen c
  have hback : (ofBytes ack).isHello = true := by
    rw [hbytes, hhello]
    rfl
  have hfresh : ¬ c.val < c.val - 200 := by linarith
  have hstep' : t.sender.step (.handshake c (.datagram ack)) =
      some ⟨⟨tcp, .connected call⟩, [.poll 200]⟩ := by
    rw [ht, ← shake_greeted buf' hfresh hack.ge hback]
    rfl
  have hgo := hecho (.handshake c (some t.replies.length)) _ _ rfl
    (by simp [Input.resolve, Reply.arrival, System.answered]) hstep'
  refine ⟨_, hhands.after hgo, ?_, rfl, ?_⟩
  · rw [hs]
    exact fun hst => ⟨hst.bnTrain, hst.nprobe, fun l hl => by simp [System.moved] at hl⟩
  · simp [System.moved, System.answered, hsent]

theorem steady_run {us : List (Action Eyenet)} {x : Sender Eyenet} {bn : ℤ} {δ : ℚ}
    (hbn : 1 ≤ bn) (hr : Sender.machine.Run ⟨new (Eyenet.new δ) bn, .idle⟩ us x) : Steady x :=
  hr.invariant (C := fun _ => True) (fun _ _ => trivial)
    ⟨hbn, rfl, fun l hl => by simp at hl⟩ fun _ ht _ hs => move_steady (takes_move ht) hs

/-- Nothing is acked before the connection. -/
theorem early_run {us : List (Action Eyenet)} {x : Sender Eyenet}
    (hr : Sender.machine.Run ⟨tcp, .idle⟩ us x) (he : x.phase.IsEarly) :
    x.tcp.largestAck = -1 := by
  refine hr.invariant (I := fun x => x.phase.IsEarly → x.tcp.largestAck = -1)
    (C := fun _ => True) (fun _ _ => trivial) (fun h => h.elim) ?_ he
  rintro ⟨src, i, out, dst⟩ ht - ih he'
  have hmove := takes_move ht
  generalize hr : (⟨dst, out⟩ : Traced Event (Sender Eyenet)) = r at hmove
  obtain rfl : dst = r.val := congrArg Traced.val hr
  rcases move_early hmove he' with ⟨call, rfl⟩ | ⟨c, recv, rfl⟩
  · exact move_largestAck hmove
  · cases hmove with
    | handshake tcp call buf lastSTs =>
      rw [shake_tcp]
      exact ih trivial

/-- A call is under way, and at `t` the sender has waited as long as it does: for the answer to its
greeting, for an ack, or for the end of the call where that is a time. -/
def Sender.Overdue {T : Type} (s : Sender T) (t : ℚ) : Prop :=
  match s.phase with
  | .shaking call _ lastSTs => lastSTs < t - 200 ∧ (call.byteSwitcher = false → call.fsz ≤ t)
  | .connected call => call.byteSwitcher = false → call.fsz ≤ t
  | .top l | .sending l =>
    if l.call.byteSwitcher then t - s.tcp.lastAckTs > 2000 else l.call.fsz ≤ t
  | .idle | .dead => False

instance {T : Type} : (s : Sender T) → (t : ℚ) → Decidable (s.Overdue t)
  | ⟨_, .shaking call _ lastSTs⟩, t =>
    inferInstanceAs (Decidable (lastSTs < t - 200 ∧ (call.byteSwitcher = false → call.fsz ≤ t)))
  | ⟨_, .connected call⟩, t =>
    inferInstanceAs (Decidable (call.byteSwitcher = false → call.fsz ≤ t))
  | ⟨tcp, .top l⟩, t | ⟨tcp, .sending l⟩, t => inferInstanceAs
      (Decidable (if l.call.byteSwitcher then t - tcp.lastAckTs > 2000 else l.call.fsz ≤ t))
  | ⟨_, .idle⟩, _ | ⟨_, .dead⟩, _ => .isFalse id

/-- How many replies the call still needs, that to the greeting among them. -/
def Sender.needs {T : Type} (s : Sender T) : ℕ :=
  match s.phase with
  | .shaking call _ _ => 1 + missing call s.tcp.npkts
  | .connected call => missing call s.tcp.npkts
  | .top l | .sending l => missing l.call s.tcp.npkts
  | .idle | .dead => 0

/-- No number of the call is above this one so far. -/
def Sender.reach {T : Type} (s : Sender T) : ℤ :=
  match s.phase with
  | .top l | .sending l => max l.seqNum s.tcp.largestAck
  | _ => 0

/-- A call of 3000 bytes whose first window is lost, in its next iteration. -/
def lostWindow : List Turn :=
  ([.sender (.sendData ⟨3000, true, 1, 7⟩), .sender (.handshake ⟨0⟩ none),
    .receiver (some 0) ⟨0⟩, .sender (.handshake ⟨0⟩ (some 0)), .sender (.start ⟨0⟩ ⟨0⟩),
    .sender (.top ⟨0⟩)] : List Turn) ++
  List.replicate 10 (.sender .send) ++
  ([.sender (.recv ⟨0⟩ none ⟨0⟩), .sender (.top ⟨0⟩)] : List Turn)

theorem lostWindow_accepted : (System.machine.exec freshSystem lostWindow).isSome := by
  decide +kernel

end TcpEyenet
