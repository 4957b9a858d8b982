import TcpEyenet.Transport.Model
import TcpEyenet.Lib.Machine

/-! All that one step of the sender can do. -/
namespace TcpEyenet

/-- What a receive reports besides its poll. -/
def Event.Aside : Event → Prop
  | .onTo | .onRateEst _ | .divisor _ => True
  | _ => False

/-- What the record of a train reports. -/
def Event.Recording : Event → Prop
  | .setTs _ | .divisor _ | .onPktSent _ => True
  | _ => False

/-- Neither seen by the network nor a poll nor an ack passed on. -/
def Event.Quiet : Event → Prop
  | .datagram _ | .poll _ | .onAck _ _ _ => False
  | _ => True

theorem Event.Aside.quiet {e : Event} (h : e.Aside) : e.Quiet := by
  cases e with
  | onTo | onRateEst | divisor => trivial
  | _ => exact h.elim

theorem Event.Recording.quiet {e : Event} (h : e.Recording) : e.Quiet := by
  cases e with
  | setTs | onPktSent | divisor => trivial
  | _ => exact h.elim

/-- What goes out to the peer. -/
def Event.datagram? : Event → Option (List UInt8)
  | .datagram d => some d
  | _ => none

@[simp] theorem Event.datagram?_datagram (d : List UInt8) : (datagram d).datagram? = some d := rfl

@[simp] theorem Event.datagram?_poll (ms : ℤ) : (poll ms).datagram? = none := rfl

theorem Event.Quiet.datagram? {e : Event} (h : e.Quiet) : e.datagram? = none := by
  cases e with
  | datagram => exact h.elim
  | _ => rfl

theorem filterMap_quiet {log : List Event} (h : ∀ e ∈ log, e.Quiet) :
    log.filterMap Event.datagram? = [] :=
  List.filterMap_eq_nil_iff.mpr fun e he => (h e he).datagram?

/-- What a receive can do to the controller. -/
inductive Nudged {T : Type} [Controller T] (cong : T) : T → Prop
  | same : Nudged cong cong
  | onTo : Nudged cong (Controller.onTo cong)
  | onRateEst (rate : Option ℚ) : Nudged cong (Controller.onRateEst cong rate)

namespace TcpTransport

open Traced

variable {T : Type} [Controller T] {tcp : TcpTransport T} {l : Locals} {h : PacketHeader}
  {c c₂ c₃ : Double} {out : Recv} {seq : ℤ}

theorem test_log (tcp : TcpTransport T) (l : Locals) : ∀ e ∈ (tcp.test l).log, e.Quiet := by
  unfold test
  split_ifs <;> simp [rem, Event.Quiet]

theorem test_eq_false (ht : (tcp.test l).val = some false) :
    tcp.windowOpen l = false ∧ tcp.bnTrain ≠ 0 ∧ l.seqNum.tmod tcp.bnTrain = 0 := by
  unfold test at ht
  split_ifs at ht with hw
  · simp at ht
  · by_cases hbn : tcp.bnTrain = 0
    · simp [rem, hbn] at ht
    · exact ⟨by simpa using hw, hbn, by simpa [rem, hbn] using ht⟩

theorem test_eq_true (ht : (tcp.test l).val = some true) :
    tcp.windowOpen l = true ∨ tcp.bnTrain ≠ 0 ∧ l.seqNum.tmod tcp.bnTrain ≠ 0 := by
  unfold test at ht
  split_ifs at ht with hw
  · exact .inl hw
  · by_cases hbn : tcp.bnTrain = 0
    · simp [rem, hbn] at ht
    · exact .inr ⟨hbn, by simpa [rem, hbn] using ht⟩

theorem test_eq_none (ht : (tcp.test l).val = none) : tcp.bnTrain = 0 := by
  by_contra hbn
  unfold test at ht
  split_ifs at ht
  simp [rem, hbn] at ht

/-- Past the inner loop no train is empty, so the guard on the delivery of acks fails. -/
theorem deliver_eq (hbn : tcp.bnTrain ≠ 0) : tcp.deliver h c = pure (some tcp) := by
  simp [deliver, hbn]

theorem estimateRate_eq (tcp : TcpTransport T) (l : Locals) (seq : ℤ) :
    ∃ cong, Nudged tcp.cong cong ∧ (tcp.estimateRate l seq).val.1 = tcp.setCong cong := by
  unfold estimateRate
  dsimp only
  split_ifs
  · exact ⟨_, .onRateEst _, rfl⟩
  · exact ⟨tcp.cong, .same, rfl⟩
  · exact ⟨tcp.cong, .same, rfl⟩

omit [Controller T] in
@[simp] theorem setCong_bnTrain {cong : T} : (tcp.setCong cong).bnTrain = tcp.bnTrain := rfl

omit [Controller T] in
@[simp] theorem setCong_largestAck {cong : T} :
    (tcp.setCong cong).largestAck = tcp.largestAck := rfl

/-- The transport after an accepted ack, but for its controller. -/
def credited (tcp : TcpTransport T) (h : PacketHeader) (c : Double) : TcpTransport T :=
  ((tcp.heard c).credit h c).raiseAck h.seqNum.toInt

omit [Controller T] in
@[simp] theorem credited_bnTrain : (tcp.credited h c).bnTrain = tcp.bnTrain := rfl

omit [Controller T] in
@[simp] theorem credited_largestAck :
    (tcp.credited h c).largestAck = max tcp.largestAck (h.seqNum.toInt + 1) := rfl

omit [Controller T] in
@[simp] theorem setCong_npkts {cong : T} : (tcp.setCong cong).npkts = tcp.npkts := rfl

omit [Controller T] in
@[simp] theorem credited_npkts : (tcp.credited h c).npkts = tcp.npkts + 1 := rfl

omit [Controller T] in
@[simp] theorem setCong_delayAggr {cong : T} :
    (tcp.setCong cong).delayAggr = tcp.delayAggr := rfl

omit [Controller T] in
@[simp] theorem credited_delayAggr :
    (tcp.credited h c).delayAggr = tcp.delayAggr + (c.val - h.sendTs.val) := rfl

theorem accept_eq (hbn : tcp.bnTrain ≠ 0) (l : Locals) (h : PacketHeader) :
    ∃ cong rateEst, Nudged tcp.cong cong ∧ tcp.accept l h =
      ⟨⟨(tcp.credited h l.currTs).setCong cong, .top { l with rateEst := rateEst }⟩,
        ((tcp.heard l.currTs).estimateRate l h.seqNum.toInt).log⟩ := by
  obtain ⟨cong, hn, hest⟩ := estimateRate_eq (tcp.heard l.currTs) l h.seqNum.toInt
  refine ⟨cong, ((tcp.heard l.currTs).estimateRate l h.seqNum.toInt).val.2, hn, ?_⟩
  have hdel : ((tcp.heard l.currTs).setCong cong |>.credit h l.currTs).deliver h l.currTs =
      pure (some (((tcp.heard l.currTs).setCong cong).credit h l.currTs)) := deliver_eq hbn
  apply Traced.ext
  · simp only [accept, bind_val, hest, hdel, pure_val]
    rfl
  · simp [accept, hest, hdel]

theorem estimateRate_log (tcp : TcpTransport T) (l : Locals) (seq : ℤ) :
    ∀ e ∈ (tcp.estimateRate l seq).log, e.Aside := by
  unfold estimateRate
  dsimp only
  split_ifs <;> simp [Event.Aside]

/-- `snap` can only move the last send. -/
theorem snap_eq (tcp : TcpTransport T) (l : Locals) :
    ∃ ts, tcp.snap l = { tcp with lastSTs := ts } := by
  unfold snap
  split_ifs
  · exact ⟨_, rfl⟩
  · exact ⟨tcp.lastSTs, rfl⟩

@[simp] theorem snap_bnTrain : (tcp.snap l).bnTrain = tcp.bnTrain := by
  obtain ⟨ts, h⟩ := snap_eq tcp l
  rw [h]

@[simp] theorem snap_cong : (tcp.snap l).cong = tcp.cong := by
  obtain ⟨ts, h⟩ := snap_eq tcp l
  rw [h]

@[simp] theorem snap_largestAck : (tcp.snap l).largestAck = tcp.largestAck := by
  obtain ⟨ts, h⟩ := snap_eq tcp l
  rw [h]

@[simp] theorem snap_npkts : (tcp.snap l).npkts = tcp.npkts := by
  obtain ⟨ts, h⟩ := snap_eq tcp l
  rw [h]

@[simp] theorem snap_delayAggr : (tcp.snap l).delayAggr = tcp.delayAggr := by
  obtain ⟨ts, h⟩ := snap_eq tcp l
  rw [h]

/-- A receive ends in nothing, in a header that is not this flow's, or in an ack. -/
theorem receive_cases (hbn : tcp.bnTrain ≠ 0) (l : Locals) (c₂ : Double) (out : Recv)
    (c₃ : Double) :
    ∃ log, (∀ e ∈ log, e.Aside) ∧
      (tcp.receive l c₂ out c₃).log = .poll (truncate ((tcp.snap l).timeout c₂)) :: log ∧
      let r := (recvData pktSz out l.buf).val
      let h := PacketHeader.read r.buf
      (r.rc = 0 ∧ ∃ cong, Nudged tcp.cong cong ∧ (tcp.receive l c₂ out c₃).val =
        ⟨(tcp.snap l).setCong cong, .top { l with buf := r.buf, currTs := c₃ }⟩) ∨
      (r.rc ≠ 0 ∧ l.call.accepts h = false ∧ (tcp.receive l c₂ out c₃).val =
        ⟨tcp.snap l, .top { l with buf := r.buf, currTs := c₂ }⟩) ∨
      (r.rc ≠ 0 ∧ l.call.accepts h = true ∧ ∃ cong rateEst, Nudged tcp.cong cong ∧
        (tcp.receive l c₂ out c₃).val =
        ⟨((tcp.snap l).credited h c₃).setCong cong,
          .top { l with buf := r.buf, currTs := c₃, rateEst := rateEst }⟩) := by
  have hsnap : (tcp.snap l).bnTrain ≠ 0 := by rwa [snap_bnTrain]
  rw [← snap_cong (l := l)]
  simp only [receive, bind_val, bind_log]
  generalize tcp.snap l = tcp at hsnap ⊢
  by_cases hrc : (recvData pktSz out l.buf).val.rc = 0
  · simp only [hrc, if_true, idleTick]
    split_ifs
    · exact ⟨[.onTo], by simp [Event.Aside], rfl, .inl ⟨trivial, _, .onTo, rfl⟩⟩
    · exact ⟨[], by simp, rfl, .inl ⟨trivial, tcp.cong, .same, rfl⟩⟩
  · simp only [hrc, if_false]
    cases hacc : l.call.accepts (PacketHeader.read (recvData pktSz out l.buf).val.buf) with
    | false => exact ⟨[], by simp, rfl, .inr (.inl ⟨hrc, rfl, rfl⟩)⟩
    | true =>
      obtain ⟨cong, rateEst, hn, hacc⟩ := accept_eq hsnap
        { l with buf := (recvData pktSz out l.buf).val.buf, currTs := c₃ }
        (PacketHeader.read (recvData pktSz out l.buf).val.buf)
      simp only [if_true, hacc]
      exact ⟨_, estimateRate_log _ _ _, rfl, .inr (.inr ⟨hrc, trivial, cong, rateEst, hn, rfl⟩)⟩

/-- The buffer with the header of the next packet. -/
def stamped (l : Locals) : Buf :=
  l.buf.store 0 (createHeader l.seqNum l.call.fid l.call.sid l.currTs).bytes

theorem record_log (tcp : TcpTransport T) (l : Locals) :
    ∀ e ∈ (tcp.record l).log, e.Recording := by
  unfold record
  split_ifs <;> simp [Event.Recording]

/-- Only the controller learns of a train. -/
theorem record_eq (tcp : TcpTransport T) (l : Locals) :
    ∃ cong, (tcp.record l).val = tcp.setCong cong := by
  unfold record
  split_ifs
  · exact ⟨_, rfl⟩
  · exact ⟨tcp.cong, rfl⟩

@[simp] theorem record_largestAck : (tcp.record l).val.largestAck = tcp.largestAck := by
  obtain ⟨cong, h⟩ := record_eq tcp l
  rw [h, setCong_largestAck]

omit [Controller T] in
@[simp] theorem advance_tcp : (tcp.advance l).tcp = tcp := by
  unfold advance
  split_ifs <;> rfl

theorem sendOne_of_eq (hbn : tcp.bnTrain = 0) : (tcp.sendOne l).val = ⟨tcp.spend, .dead⟩ := by
  simp [sendOne, rem, hbn]

theorem sendOne_of_ne (hbn : tcp.bnTrain ≠ 0) :
    (tcp.sendOne l).val = (tcp.spend.record l).val.advance { l with buf := stamped l } := by
  simp [sendOne, rem, hbn]
  rfl

/-- The reports of a send, in order. -/
theorem sendOne_log_of_ne (hbn : tcp.bnTrain ≠ 0) :
    (tcp.sendOne l).log = .datagram ((stamped l).load 0 pktSz) ::
      .divisor tcp.bnTrain :: (tcp.spend.record l).log := by
  simp [sendOne, rem, hbn, stamped]
  rfl

/-- A packet goes out before anything else. -/
theorem sendOne_log (tcp : TcpTransport T) (l : Locals) :
    ∃ log, (∀ e ∈ log, e.Recording) ∧
      (tcp.sendOne l).log = .datagram ((stamped l).load 0 pktSz) :: log := by
  by_cases hbn : tcp.bnTrain = 0
  · refine ⟨[.divisor tcp.bnTrain], by simp [Event.Recording], ?_⟩
    simp [sendOne, rem, hbn, stamped]
  · refine ⟨.divisor tcp.bnTrain :: (tcp.spend.record l).log, ?_, sendOne_log_of_ne hbn⟩
    simpa [Event.Recording] using record_log tcp.spend l

/-- A send moves the last send, and the controller may learn of it. -/
theorem sendOne_tcp (tcp : TcpTransport T) (l : Locals) :
    ∃ cong ts, (tcp.sendOne l).val.tcp = { tcp with cong := cong, lastSTs := ts } := by
  by_cases hbn : tcp.bnTrain = 0
  · rw [sendOne_of_eq hbn]
    exact ⟨tcp.cong, _, rfl⟩
  · obtain ⟨cong, h⟩ := record_eq tcp.spend l
    rw [sendOne_of_ne hbn, advance_tcp, h]
    exact ⟨cong, _, rfl⟩

theorem sendOne_datagrams (tcp : TcpTransport T) (l : Locals) :
    (tcp.sendOne l).log.filterMap Event.datagram? = [(stamped l).load 0 pktSz] := by
  obtain ⟨log, hlog, hsend⟩ := sendOne_log tcp l
  rw [hsend, List.filterMap_cons, filterMap_quiet fun e he => (hlog e he).quiet]
  rfl

@[simp] theorem giveUp_bnTrain : (tcp.giveUp l).val.bnTrain = tcp.bnTrain := by
  unfold giveUp
  split_ifs <;> rfl

omit [Controller T] in
theorem shake_tcp (call : Call) (buf : Buf) (lastSTs : ℚ) :
    (tcp.shake call buf lastSTs c out).val.tcp = tcp := by
  simp only [shake, bind_val]
  split_ifs <;> rfl

theorem giveUp_largestAck : (tcp.giveUp l).val.largestAck =
    if l.currTs.val - tcp.lastAckTs > 2000 then l.seqNum - 1 else tcp.largestAck := by
  unfold giveUp
  split_ifs <;> rfl

theorem giveUp_npkts : (tcp.giveUp l).val.npkts = tcp.npkts := by
  unfold giveUp
  split_ifs <;> rfl

theorem giveUp_delayAggr : (tcp.giveUp l).val.delayAggr = tcp.delayAggr := by
  unfold giveUp
  split_ifs <;> rfl

theorem sendOne_largestAck : (tcp.sendOne l).val.tcp.largestAck = tcp.largestAck := by
  obtain ⟨cong, ts, h⟩ := sendOne_tcp tcp l
  rw [h]

theorem sendOne_bnTrain : (tcp.sendOne l).val.tcp.bnTrain = tcp.bnTrain := by
  obtain ⟨cong, ts, h⟩ := sendOne_tcp tcp l
  rw [h]

theorem sendOne_npkts : (tcp.sendOne l).val.tcp.npkts = tcp.npkts := by
  obtain ⟨cong, ts, h⟩ := sendOne_tcp tcp l
  rw [h]

theorem sendOne_delayAggr : (tcp.sendOne l).val.tcp.delayAggr = tcp.delayAggr := by
  obtain ⟨cong, ts, h⟩ := sendOne_tcp tcp l
  rw [h]

end TcpTransport

variable {T : Type} [Controller T]

/-- A step of the sender with its guard and its outcome. -/
inductive Move : Sender T → Input Recv → Traced Event (Sender T) → Prop
  | sendData (tcp : TcpTransport T) (call : Call) :
      Move ⟨tcp, .idle⟩ (.sendData call)
        (pure ⟨{ tcp with largestAck := -1 }, .shaking call freshBuf (-10 ^ 9)⟩)
  | handshake (tcp : TcpTransport T) (call : Call) (buf : Buf) (lastSTs : ℚ) (c : Double)
      (out : Recv) :
      Move ⟨tcp, .shaking call buf lastSTs⟩ (.handshake c out) (tcp.shake call buf lastSTs c out)
  | start (tcp : TcpTransport T) (call : Call) (t₀ t₁ : Double) :
      Move ⟨tcp, .connected call⟩ (.start t₀ t₁) (tcp.start call t₀ t₁)
  | enter (tcp : TcpTransport T) (l : Locals) (c : Double) (h : tcp.switchSz l < l.call.fsz) :
      Move ⟨tcp, .top l⟩ (.top c) (tcp.enter l c)
  | finish (tcp : TcpTransport T) (l : Locals) (c : Double) (h : ¬ tcp.switchSz l < l.call.fsz) :
      Move ⟨tcp, .top l⟩ (.top c) (tcp.finish c)
  | crash (tcp : TcpTransport T) (l : Locals) (h : tcp.bnTrain = 0) :
      Move ⟨tcp, .sending l⟩ .send ⟨⟨tcp, .dead⟩, (tcp.test l).log⟩
  | send (tcp : TcpTransport T) (l : Locals) (h : (tcp.test l).val = some true) :
      Move ⟨tcp, .sending l⟩ .send ⟨(tcp.sendOne l).val, (tcp.test l).log ++ (tcp.sendOne l).log⟩
  | receive (tcp : TcpTransport T) (l : Locals) (c₂ : Double) (out : Recv) (c₃ : Double)
      (h : (tcp.test l).val = some false) :
      Move ⟨tcp, .sending l⟩ (.recv c₂ out c₃)
        ⟨(tcp.receive l c₂ out c₃).val, (tcp.test l).log ++ (tcp.receive l c₂ out c₃).log⟩

theorem step_move {s : Sender T} {i : Input Recv} {r : Traced Event (Sender T)}
    (h : s.step i = some r) : Move s i r := by
  obtain ⟨tcp, phase⟩ := s
  cases phase with
  | idle =>
    cases i <;> simp only [Sender.step, Option.some.injEq, reduceCtorEq] at h
    exact h ▸ .sendData ..
  | shaking call buf lastSTs =>
    cases i <;> simp only [Sender.step, Option.some.injEq, reduceCtorEq] at h
    exact h ▸ .handshake ..
  | connected call =>
    cases i <;> simp only [Sender.step, Option.some.injEq, reduceCtorEq] at h
    exact h ▸ .start ..
  | top l =>
    cases i <;> simp only [Sender.step, Option.some.injEq, reduceCtorEq] at h
    split_ifs at h with hsz
    · exact h ▸ .enter _ _ _ hsz
    · exact h ▸ .finish _ _ _ hsz
  | sending l =>
    cases i <;> simp only [Sender.step, reduceCtorEq] at h
    · simp only [TcpTransport.trySend] at h
      split at h
      · rename_i ht
        exact Option.some.inj h ▸ .crash _ _ (TcpTransport.test_eq_none ht)
      · rename_i ht
        exact Option.some.inj h ▸ .send _ _ ht
      · simp at h
    · simp only [TcpTransport.tryReceive] at h
      split_ifs at h with ht
      exact Option.some.inj h ▸ .receive _ _ _ _ _ ht
  | dead => cases i <;> simp [Sender.step] at h

abbrev Action (T : Type) := Transition (Sender T) (Input Recv) Event

theorem takes_move {tr : Action T} (h : Sender.machine.Takes tr) :
    Move tr.src tr.input ⟨tr.dst, tr.out⟩ :=
  step_move h

/-- The header of the ack that an input makes the sender accept. -/
def ackIn {T : Type} (s : Sender T) (i : Input Recv) : Option PacketHeader :=
  match s.phase, i with
  | .sending l, .recv _ out _ =>
    let r := (recvData pktSz out l.buf).val
    let h := PacketHeader.read r.buf
    if r.rc ≠ 0 ∧ l.call.accepts h then some h else none
  | _, _ => none

omit [Controller T] in
theorem ackIn_eq_some {s : Sender T} {i : Input Recv} {h : PacketHeader}
    (hack : ackIn s i = some h) :
    ∃ l c₂ out c₃, s.phase = .sending l ∧ i = .recv c₂ out c₃ ∧
      (recvData pktSz out l.buf).val.rc ≠ 0 ∧ l.call.accepts h ∧
      h = PacketHeader.read (recvData pktSz out l.buf).val.buf := by
  unfold ackIn at hack
  split at hack
  · rename_i l c₂ out c₃ hphase
    dsimp only at hack
    split_ifs at hack with hif
    obtain rfl := Option.some.inj hack
    exact ⟨l, c₂, out, c₃, hphase, rfl, hif.1, hif.2, rfl⟩
  · simp at hack

theorem move_bnTrain {s : Sender T} {i : Input Recv} {r : Traced Event (Sender T)}
    (h : Move s i r) : r.val.tcp.bnTrain = s.tcp.bnTrain := by
  cases h with
  | sendData => rfl
  | handshake tcp => rw [TcpTransport.shake_tcp]
  | start => rfl
  | enter => exact TcpTransport.giveUp_bnTrain
  | finish => rfl
  | crash => rfl
  | send => exact TcpTransport.sendOne_bnTrain
  | receive tcp l c₂ out c₃ ht =>
    obtain ⟨log, -, -, h | h | h⟩ :=
      TcpTransport.receive_cases (TcpTransport.test_eq_false ht).2.1 l c₂ out c₃
    · obtain ⟨-, cong, -, hv⟩ := h
      simp [hv]
    · simp [h.2.2]
    · obtain ⟨-, -, cong, rateEst, -, hv⟩ := h
      simp [hv]

/-- The timeout of the poll that an input leads to. -/
def pollIn (s : Sender T) (i : Input Recv) : Option ℤ :=
  match s.phase, i with
  | .shaking _ _ _, .handshake _ _ => some 200
  | .sending l, .recv c₂ _ _ => some (truncate ((s.tcp.snap l).timeout c₂))
  | _, _ => none

/-- The datagram that an input may send. -/
def sentIn {T : Type} (s : Sender T) (i : Input Recv) : Option (List UInt8) :=
  match s.phase, i with
  | .shaking _ buf _, .handshake _ _ => some ((buf.store 0 hello.bytes).load 0 (hdrSz * 2))
  | .sending l, .send => some ((TcpTransport.stamped l).load 0 pktSz)
  | _, _ => none

/-- The reports of a step that matter here. -/
inductive Expected (s : Sender T) (i : Input Recv) : Event → Prop
  | quiet {e : Event} (h : e.Quiet) : Expected s i e
  | poll {ms : ℤ} (h : pollIn s i = some ms) : Expected s i (.poll ms)
  | datagram {d : List UInt8} (h : sentIn s i = some d) : Expected s i (.datagram d)

theorem move_log {s : Sender T} {i : Input Recv} {r : Traced Event (Sender T)}
    (h : Move s i r) : ∀ e ∈ r.log, Expected s i e := by
  cases h with
  | sendData => simp
  | handshake tcp call buf lastSTs c out =>
    intro e he
    have hcases : e = .datagram ((buf.store 0 hello.bytes).load 0 (hdrSz * 2)) ∨ e = .poll 200 := by
      simp only [TcpTransport.shake, TcpTransport.greet] at he
      split_ifs at he <;> simp_all
    rcases hcases with rfl | rfl
    · exact .datagram rfl
    · exact .poll rfl
  | start tcp call t₀ t₁ =>
    have hquiet : ∀ e ∈ (tcp.start call t₀ t₁).log, e.Quiet := by
      simp [TcpTransport.start, Event.Quiet]
    exact fun e he => .quiet (hquiet e he)
  | enter tcp l c =>
    have hquiet : ∀ e ∈ (tcp.enter l c).log, e.Quiet := by
      simp only [TcpTransport.enter, TcpTransport.giveUp]
      split_ifs <;> simp [Event.Quiet]
    exact fun e he => .quiet (hquiet e he)
  | finish tcp l c =>
    have hquiet : ∀ e ∈ (tcp.finish c).log, e.Quiet := by
      simp [TcpTransport.finish, Event.Quiet]
    exact fun e he => .quiet (hquiet e he)
  | crash => exact fun e he => .quiet (TcpTransport.test_log _ _ e he)
  | send tcp l ht =>
    obtain ⟨log, hlog, hsend⟩ := TcpTransport.sendOne_log tcp l
    simp only [hsend, List.mem_append, List.mem_cons]
    rintro e (he | rfl | he)
    · exact .quiet (TcpTransport.test_log _ _ e he)
    · exact .datagram rfl
    · exact .quiet (Event.Recording.quiet (hlog e he))
  | receive tcp l c₂ out c₃ ht =>
    obtain ⟨log, hlog, hrecv, -⟩ :=
      TcpTransport.receive_cases (TcpTransport.test_eq_false ht).2.1 l c₂ out c₃
    simp only [hrecv, List.mem_append, List.mem_cons]
    rintro e (he | rfl | he)
    · exact .quiet (TcpTransport.test_log _ _ e he)
    · exact .poll rfl
    · exact .quiet (Event.Aside.quiet (hlog e he))

theorem move_sent {s : Sender T} {i : Input Recv} {r : Traced Event (Sender T)}
    (h : Move s i r) : ∀ d ∈ r.log.filterMap Event.datagram?, sentIn s i = some d := by
  intro d hd
  obtain ⟨e, he, hed⟩ := List.mem_filterMap.mp hd
  cases move_log h e he with
  | quiet hq => simp [hq.datagram?] at hed
  | poll => simp at hed
  | datagram hs =>
    obtain rfl := Option.some.inj hed
    exact hs

theorem move_datagrams {s : Sender T} {i : Input Recv} {r : Traced Event (Sender T)}
    (h : Move s i r) (hn : sentIn s i = none) : r.log.filterMap Event.datagram? = [] :=
  List.eq_nil_iff_forall_not_mem.mpr fun d hd => by simp [move_sent h d hd] at hn

/-- The packet up to which a timeout takes everything for acked. -/
def resetIn (s : Sender T) (i : Input Recv) : Option ℤ :=
  match s.phase, i with
  | .top l, .top c =>
    if s.tcp.switchSz l < l.call.fsz ∧ c.val - s.tcp.lastAckTs > 2000 then some (l.seqNum - 1)
    else none
  | _, _ => none

omit [Controller T] in
theorem ackIn_eq_none {s : Sender T} {i : Input Recv} (h : ∀ c₂ out c₃, i ≠ .recv c₂ out c₃) :
    ackIn s i = none := by
  cases hack : ackIn s i with
  | none => rfl
  | some x =>
    obtain ⟨l, c₂, out, c₃, -, hi, -⟩ := ackIn_eq_some hack
    exact absurd hi (h c₂ out c₃)

omit [Controller T] in
theorem resetIn_recv {s : Sender T} {c₂ c₃ : Double} {out : Recv} :
    resetIn s (.recv c₂ out c₃) = none := by
  unfold resetIn
  split
  · simp_all
  · rfl

/-- The three ways in which `largest_ack` is written. -/
def nextAck (s : Sender T) (i : Input Recv) : ℤ :=
  match i with
  | .sendData _ => -1
  | .recv _ _ _ =>
    (ackIn s i).elim s.tcp.largestAck fun h => max s.tcp.largestAck (h.seqNum.toInt + 1)
  | _ => (resetIn s i).getD s.tcp.largestAck

theorem move_largestAck {s : Sender T} {i : Input Recv} {r : Traced Event (Sender T)}
    (h : Move s i r) : r.val.tcp.largestAck = nextAck s i := by
  cases h with
  | sendData => rfl
  | handshake tcp => rw [TcpTransport.shake_tcp]; rfl
  | start => rfl
  | enter tcp l c hsz =>
    simp only [nextAck, resetIn, hsz, true_and]
    apply TcpTransport.giveUp_largestAck.trans
    split_ifs <;> rfl
  | finish tcp l c hsz => simp [nextAck, resetIn, hsz, TcpTransport.finish]
  | crash => rfl
  | send => exact TcpTransport.sendOne_largestAck
  | receive tcp l c₂ out c₃ ht =>
    obtain ⟨log, -, -, h | h | h⟩ :=
      TcpTransport.receive_cases (TcpTransport.test_eq_false ht).2.1 l c₂ out c₃
    · obtain ⟨hrc, cong, -, hv⟩ := h
      simp [hv, nextAck, ackIn, hrc]
    · obtain ⟨-, hacc, hv⟩ := h
      simp [hv, nextAck, ackIn, hacc]
    · obtain ⟨hrc, hacc, cong, rateEst, -, hv⟩ := h
      simp [hv, nextAck, ackIn, hrc, hacc]

/-- The delay that an accepted ack adds to `delay_aggr`. -/
def delayIn {T : Type} (s : Sender T) (i : Input Recv) : ℚ :=
  match i, ackIn s i with
  | .recv _ _ c₃, some h => c₃.val - h.sendTs.val
  | _, _ => 0

omit [Controller T] in
theorem delayIn_of_none {s : Sender T} {i : Input Recv} (h : ackIn s i = none) :
    delayIn s i = 0 := by
  simp [delayIn, h]

theorem move_delayAggr {s : Sender T} {i : Input Recv} {r : Traced Event (Sender T)}
    (h : Move s i r) : r.val.tcp.delayAggr = s.tcp.delayAggr + delayIn s i := by
  cases h with
  | handshake tcp => simp [TcpTransport.shake_tcp, delayIn]
  | enter tcp l c => simp [delayIn, TcpTransport.enter, TcpTransport.giveUp_delayAggr]
  | send tcp l => simp [delayIn, TcpTransport.sendOne_delayAggr]
  | receive tcp l c₂ out c₃ ht =>
    obtain ⟨log, -, -, h | h | h⟩ :=
      TcpTransport.receive_cases (TcpTransport.test_eq_false ht).2.1 l c₂ out c₃
    · obtain ⟨hrc, cong, -, hv⟩ := h
      simp [hv, delayIn, ackIn, hrc]
    · obtain ⟨-, hacc, hv⟩ := h
      simp [hv, delayIn, ackIn, hacc]
    · obtain ⟨hrc, hacc, cong, rateEst, -, hv⟩ := h
      simp [hv, delayIn, ackIn, hrc, hacc]
  | _ => simp [delayIn, TcpTransport.start, TcpTransport.finish]

/-- `npkts` counts the accepted acks and nothing else. -/
theorem move_npkts {s : Sender T} {i : Input Recv} {r : Traced Event (Sender T)}
    (h : Move s i r) : r.val.tcp.npkts = s.tcp.npkts + (ackIn s i).toList.length := by
  cases h with
  | handshake tcp => simp [TcpTransport.shake_tcp, ackIn]
  | enter tcp l c => simp [ackIn, TcpTransport.enter, TcpTransport.giveUp_npkts]
  | send tcp l => simp [ackIn, TcpTransport.sendOne_npkts]
  | receive tcp l c₂ out c₃ ht =>
    obtain ⟨log, -, -, h | h | h⟩ :=
      TcpTransport.receive_cases (TcpTransport.test_eq_false ht).2.1 l c₂ out c₃
    · obtain ⟨hrc, cong, -, hv⟩ := h
      simp [hv, ackIn, hrc]
    · obtain ⟨-, hacc, hv⟩ := h
      simp [hv, ackIn, hacc]
    · obtain ⟨hrc, hacc, cong, rateEst, -, hv⟩ := h
      simp [hv, ackIn, hrc, hacc]
  | _ => simp [ackIn, TcpTransport.start, TcpTransport.finish]

end TcpEyenet
