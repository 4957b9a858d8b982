import TcpEyenet.Transport.Drive
import TcpEyenet.Transport.Acks
import TcpEyenet.Controller.Reset

/-! What one call of `send_data` can learn from the calls before it. -/
namespace TcpEyenet

open TcpTransport

def Input.isCall {ρ : Type} : Input ρ → Bool
  | .sendData _ => true
  | _ => false

/-- Between calls. -/
def Sender.idle (s : Sender Eyenet) : Bool :=
  match s.phase with
  | .idle => true
  | _ => false

/-- In every environment the call sends the same packets from both states, takes the same inputs
and is over at the same point. -/
def SameFlow (s t : Sender Eyenet) (call : Call) : Prop :=
  ∀ env : List (Input Recv), (∀ i ∈ env, i.isCall = false) →
    Sender.machine.shown Event.datagram? s (.sendData call :: env) =
        Sender.machine.shown Event.datagram? t (.sendData call :: env) ∧
      Sender.machine.observe Sender.idle s (.sendData call :: env) =
        Sender.machine.observe Sender.idle t (.sendData call :: env)

/-- Whether a byte-switched call has nothing left to do. -/
def Done (call : Call) (tcp : TcpTransport Eyenet) : Prop := call.fsz ≤ tcp.npkts * payload

/-- `npkts` is all that a call can learn, and only a byte-switched one that has to look at it. -/
def Agree (call : Call) (a b : TcpTransport Eyenet) : Prop :=
  call.byteSwitcher = false ∨ a.npkts = b.npkts ∨ (Done call a ∧ Done call b) ∨
    (a.bnTrain = 0 ∧ ¬ Done call a ∧ ¬ Done call b)

/-- What two states at the same point of the same call have in common. -/
structure Twin (call : Call) (a b : TcpTransport Eyenet) : Prop where
  bnTrain : a.bnTrain = b.bnTrain
  largestAck : a.largestAck = b.largestAck
  agree : Agree call a b

/-- Inside the loop, the start of the call has brought the other members into line too. -/
structure Synced (call : Call) (a b : TcpTransport Eyenet) : Prop extends Twin call a b where
  cong : Eyenet.Alike a.cong b.cong
  lastSTs : a.lastSTs = b.lastSTs
  lastAckTs : a.lastAckTs = b.lastAckTs

def Resettable (a b : TcpTransport Eyenet) : Prop :=
  ∀ ts, Eyenet.Alike (a.cong.setTs ts).initialise (b.cong.setTs ts).initialise

/-- The same point of the same call, with the same outlook. The estimate of the rate
can differ, as it depends on what earlier calls left behind, but this controller ignores it. -/
inductive Related : Sender Eyenet → Sender Eyenet → Prop
  | idle (a b : TcpTransport Eyenet) : Related ⟨a, .idle⟩ ⟨b, .idle⟩
  | dead (a b : TcpTransport Eyenet) : Related ⟨a, .dead⟩ ⟨b, .dead⟩
  | shaking {a b : TcpTransport Eyenet} {call : Call} {buf : Buf} {lastSTs : ℚ}
      (h : Twin call a b) (hr : Resettable a b) :
      Related ⟨a, .shaking call buf lastSTs⟩ ⟨b, .shaking call buf lastSTs⟩
  | connected {a b : TcpTransport Eyenet} {call : Call} (h : Twin call a b)
      (hr : Resettable a b) : Related ⟨a, .connected call⟩ ⟨b, .connected call⟩
  | top {a b : TcpTransport Eyenet} {l : Locals} {rateEst : ℚ} (h : Synced l.call a b) :
      Related ⟨a, .top l⟩ ⟨b, .top { l with rateEst := rateEst }⟩
  | sending {a b : TcpTransport Eyenet} {l : Locals} {rateEst : ℚ} (h : Synced l.call a b) :
      Related ⟨a, .sending l⟩ ⟨b, .sending { l with rateEst := rateEst }⟩

variable {a b : TcpTransport Eyenet} {s t : Sender Eyenet} {call : Call} {l : Locals}
  {trs trs₁ trs₂ : List (Action Eyenet)} {δ : ℚ} {bnTrain : ℤ} {i : Input Recv}

theorem switchSz_lt_iff (h : Agree l.call a b) :
    a.switchSz l < l.call.fsz ↔ b.switchSz l < l.call.fsz := by
  unfold switchSz
  rcases h with h | h | ⟨ha, hb⟩ | ⟨-, ha, hb⟩
  · simp [h]
  · simp [h]
  · split_ifs
    · exact iff_of_false (not_lt.mpr ha) (not_lt.mpr hb)
    · rfl
  · split_ifs
    · exact iff_of_true (not_le.mp ha) (not_le.mp hb)
    · rfl

theorem Synced.cwnd (h : Synced call a b) : Controller.cwnd a.cong = Controller.cwnd b.cong :=
  h.cong.cwnd

theorem Synced.intersend (h : Synced call a b) :
    Controller.intersend a.cong = Controller.intersend b.cong :=
  h.cong.intersend

theorem Synced.test_eq (h : Synced call a b) (l : Locals) : a.test l = b.test l := by
  have hw : a.windowOpen l = b.windowOpen l := by
    unfold windowOpen
    rw [h.largestAck, h.bnTrain, h.lastSTs, h.cwnd, h.intersend]
  unfold test
  rw [hw, h.bnTrain]

theorem Synced.spend (h : Synced call a b) : Synced call a.spend b.spend := by
  refine ⟨⟨h.bnTrain, h.largestAck, h.agree⟩, h.cong, ?_, h.lastAckTs⟩
  simp only [TcpTransport.spend, h.lastSTs, h.intersend]

theorem Synced.record (h : Synced call a b) (l : Locals) :
    Synced call (a.record l).val (b.record l).val := by
  have hcond : l.seqNum.tmod a.bnTrain = 0 ↔ l.seqNum.tmod b.bnTrain = 0 := by rw [h.bnTrain]
  have hidx : trainIndex l.seqNum a.bnTrain = trainIndex l.seqNum b.bnTrain := by rw [h.bnTrain]
  simp only [TcpTransport.record, hcond]
  split_ifs
  · refine ⟨⟨h.bnTrain, h.largestAck, h.agree⟩, ?_, h.lastSTs, h.lastAckTs⟩
    rw [hidx]
    exact (h.cong.setTs _).onPktSent _
  · exact h

theorem Synced.snap (h : Synced call a b) (l : Locals) : Synced call (a.snap l) (b.snap l) := by
  have hcond : (l.currTs.val - a.lastSTs ≥ Controller.intersend a.cong * a.bnTrain ∨
      l.seqNum ≥ a.largestAck + Controller.cwnd a.cong) ↔
      (l.currTs.val - b.lastSTs ≥ Controller.intersend b.cong * b.bnTrain ∨
        l.seqNum ≥ b.largestAck + Controller.cwnd b.cong) := by
    rw [h.lastSTs, h.cwnd, h.intersend, h.bnTrain, h.largestAck]
  simp only [TcpTransport.snap, hcond]
  split_ifs
  · exact ⟨⟨h.bnTrain, h.largestAck, h.agree⟩, h.cong, rfl, h.lastAckTs⟩
  · exact h

theorem Synced.giveUp (h : Synced call a b) (l : Locals) :
    Synced call (a.giveUp l).val (b.giveUp l).val := by
  simp only [TcpTransport.giveUp, h.lastAckTs]
  split_ifs
  · exact ⟨⟨h.bnTrain, rfl, h.agree⟩, (h.cong.setTs _).initialise, rfl, rfl⟩
  · exact h

theorem Agree.credited {h : PacketHeader} {c : Double} (ha : Agree call a b)
    (hbn : a.bnTrain ≠ 0) : Agree call (a.credited h c) (b.credited h c) := by
  have hdone : ∀ tcp : TcpTransport Eyenet, Done call tcp → Done call (tcp.credited h c) := by
    intro tcp htcp
    have hle : (tcp.npkts : ℚ) * payload ≤ ((tcp.npkts + 1 : ℤ) : ℚ) * payload := by
      push_cast
      nlinarith [Nat.cast_nonneg (α := ℚ) payload]
    exact htcp.trans hle
  rcases ha with hb | hn | ⟨hda, hdb⟩ | ⟨hz, -⟩
  · exact .inl hb
  · exact .inr (.inl (congrArg (· + 1) hn))
  · exact .inr (.inr (.inl ⟨hdone a hda, hdone b hdb⟩))
  · exact absurd hz hbn

theorem Synced.credited (h : Synced call a b) (hbn : a.bnTrain ≠ 0) (hdr : PacketHeader)
    (c : Double) : Synced call (a.credited hdr c) (b.credited hdr c) := by
  refine ⟨⟨h.bnTrain, ?_, h.agree.credited hbn⟩, h.cong, h.lastSTs, rfl⟩
  rw [credited_largestAck, credited_largestAck, h.largestAck]

/-- A receive ends the same way on both sides, as its end and the buffer decide alone. -/
theorem Synced.receive (h : Synced l.call a b) (hbn : a.bnTrain ≠ 0) (rateEst : ℚ)
    (c₂ : Double) (out : Recv) (c₃ : Double) :
    Related (a.receive l c₂ out c₃).val
      (b.receive { l with rateEst := rateEst } c₂ out c₃).val := by
  have hbn' : b.bnTrain ≠ 0 := h.bnTrain ▸ hbn
  have hs : Synced l.call (a.snap l) (b.snap { l with rateEst := rateEst }) := h.snap l
  obtain ⟨-, -, -, ha⟩ := receive_cases hbn l c₂ out c₃
  obtain ⟨-, -, -, hb⟩ := receive_cases hbn' { l with rateEst := rateEst } c₂ out c₃
  rcases ha with ⟨hrc, cong, hn, ha⟩ | ⟨hrc, hacc, ha⟩ | ⟨hrc, hacc, cong, rate, hn, ha⟩
  · obtain ⟨-, cong', hn', hb⟩ := hb.resolve_right fun hb => hb.elim (·.1 hrc) (·.1 hrc)
    rw [ha, hb, Eyenet.eq_of_nudged hn, Eyenet.eq_of_nudged hn']
    exact .top ⟨⟨hs.bnTrain, hs.largestAck, hs.agree⟩, h.cong, hs.lastSTs, hs.lastAckTs⟩
  · have hb := (hb.resolve_left fun hb => hrc hb.1).resolve_right fun hb => by simp [hacc] at hb
    rw [ha, hb.2.2]
    exact .top hs
  · obtain ⟨-, -, cong', rate', hn', hb⟩ :=
      (hb.resolve_left fun hb => hrc hb.1).resolve_left fun hb => by simp [hacc] at hb
    rw [ha, hb, Eyenet.eq_of_nudged hn, Eyenet.eq_of_nudged hn']
    have hc := hs.credited (by simpa using hbn)
      (PacketHeader.read (recvData pktSz out l.buf).val.buf) c₃
    exact .top ⟨⟨hc.bnTrain, hc.largestAck, hc.agree⟩, h.cong, hc.lastSTs, hc.lastAckTs⟩

theorem Synced.sendOne (h : Synced l.call a b) (rateEst : ℚ) :
    Related (a.sendOne l).val (b.sendOne { l with rateEst := rateEst }).val := by
  by_cases hbn : a.bnTrain = 0
  · rw [sendOne_of_eq hbn, sendOne_of_eq (h.bnTrain ▸ hbn)]
    exact .dead _ _
  · rw [sendOne_of_ne hbn, sendOne_of_ne (h.bnTrain ▸ hbn)]
    have hrec : Synced l.call (a.spend.record l).val
        (b.spend.record { l with rateEst := rateEst }).val := h.spend.record l
    simp only [advance]
    split_ifs
    · exact .sending hrec
    · exact .dead _ _

/-- Both sides refuse an input, or take it with the same packets and stay related. -/
def InStep (x y : Option (Traced Event (Sender Eyenet))) : Prop :=
  Option.Rel (fun p q => Related p.val q.val ∧
    p.log.filterMap Event.datagram? = q.log.filterMap Event.datagram?) x y

theorem Twin.handshake (h : Twin call a b) (hr : Resettable a b) (buf : Buf) (lastSTs : ℚ)
    (c : Double) (out : Recv) :
    InStep (Sender.machine.step ⟨a, .shaking call buf lastSTs⟩ (.handshake c out))
      (Sender.machine.step ⟨b, .shaking call buf lastSTs⟩ (.handshake c out)) := by
  simp only [Sender.machine, Sender.step]
  refine .some ⟨?_, ?_⟩
  · simp only [shake, Traced.bind_val]
    split_ifs
    · exact .connected h hr
    · exact .shaking h hr
  · simp only [shake, Traced.bind_log, Traced.ite_log, Traced.pure_log]

theorem Synced.top (h : Synced l.call a b) (rateEst : ℚ) (c : Double) :
    InStep (Sender.machine.step ⟨a, .top l⟩ (.top c))
      (Sender.machine.step ⟨b, .top { l with rateEst := rateEst }⟩ (.top c)) := by
  refine .some ?_
  by_cases hsz : a.switchSz l < l.call.fsz
  · have hsz' := (switchSz_lt_iff h.agree).mp hsz
    have ha := move_datagrams (.enter a l c hsz) rfl
    have hb := move_datagrams (.enter b { l with rateEst := rateEst } c hsz') rfl
    refine (if_pos hsz).symm ▸ (if_pos hsz').symm ▸ ⟨.sending (h.giveUp _), ha.trans hb.symm⟩
  · have hsz' := mt (switchSz_lt_iff h.agree).mpr hsz
    have ha := move_datagrams (.finish a l c hsz) rfl
    have hb := move_datagrams (.finish b { l with rateEst := rateEst } c hsz') rfl
    refine (if_neg hsz).symm ▸ (if_neg hsz').symm ▸ ⟨.idle _ _, ha.trans hb.symm⟩

theorem Synced.trySend (h : Synced l.call a b) (rateEst : ℚ) :
    InStep (Sender.machine.step ⟨a, .sending l⟩ .send)
      (Sender.machine.step ⟨b, .sending { l with rateEst := rateEst }⟩ .send) := by
  have htest : b.test { l with rateEst := rateEst } = a.test l := (h.test_eq l).symm
  simp only [Sender.machine, Sender.step, TcpTransport.trySend, htest]
  cases (a.test l).val with
  | none => exact .some ⟨.dead _ _, rfl⟩
  | some more =>
    cases more with
    | true =>
      refine .some ⟨h.sendOne rateEst, ?_⟩
      simp only [List.filterMap_append, sendOne_datagrams]
      rfl
    | false => exact .none

theorem Synced.tryReceive (h : Synced l.call a b) (rateEst : ℚ) (c₂ : Double) (out : Recv)
    (c₃ : Double) :
    InStep (Sender.machine.step ⟨a, .sending l⟩ (.recv c₂ out c₃))
      (Sender.machine.step ⟨b, .sending { l with rateEst := rateEst }⟩ (.recv c₂ out c₃)) := by
  have htest : b.test { l with rateEst := rateEst } = a.test l := (h.test_eq l).symm
  simp only [Sender.machine, Sender.step, TcpTransport.tryReceive, htest]
  split_ifs with ht
  · have hbn := (test_eq_false ht).2.1
    refine .some ⟨h.receive hbn rateEst c₂ out c₃, ?_⟩
    have ha := move_datagrams (.receive a l c₂ out c₃ ht) rfl
    have hb :=
      move_datagrams (.receive b { l with rateEst := rateEst } c₂ out c₃ (htest ▸ ht)) rfl
    exact ha.trans (htest ▸ hb).symm
  · exact .none

/-- One step for each point of a call. -/
theorem related_lockstep :
    Sender.machine.Lockstep (fun i => i.isCall = false) Event.datagram? Related := by
  rintro _ _ i hi hR
  cases hR with
  | idle a b =>
    cases i with
    | sendData => simp [Input.isCall] at hi
    | _ => exact .none
  | dead a b => cases i <;> exact .none
  | shaking h hr =>
    cases i with
    | handshake c out => exact h.handshake hr _ _ c out
    | _ => exact .none
  | connected h hr =>
    cases i with
    | start t₀ t₁ => exact .some ⟨.top ⟨⟨h.bnTrain, h.largestAck, h.agree⟩, hr _, rfl, rfl⟩, rfl⟩
    | _ => exact .none
  | top h =>
    cases i with
    | top c => exact h.top _ c
    | _ => exact .none
  | sending h =>
    cases i with
    | send => exact h.trySend _
    | recv c₂ out c₃ => exact h.tryReceive _ c₂ out c₃
    | _ => exact .none

/-- A call from states that agree on what it can learn. -/
theorem sameFlow_of_agree (hbn : a.bnTrain = b.bnTrain) (hr : Resettable a b)
    (h : Agree call a b) : SameFlow ⟨a, .idle⟩ ⟨b, .idle⟩ call := by
  intro env henv
  have hrel : Related ⟨{ a with largestAck := -1 }, .shaking call freshBuf (-10 ^ 9)⟩
      ⟨{ b with largestAck := -1 }, .shaking call freshBuf (-10 ^ 9)⟩ :=
    .shaking ⟨hbn, rfl, h⟩ hr
  have hidle : ∀ s t, Related s t → s.idle = t.idle := by
    intro s t h
    cases h <;> rfl
  have hshown := related_lockstep.shown_eq henv hrel
  have hobserved := related_lockstep.observe_eq hidle henv hrel
  constructor
  · rw [Machine.shown_cons, Machine.shown_cons]
    exact congrArg (Option.map _) hshown
  · exact congrArg (some true :: ·) hobserved

/-- Between calls, the controller can be reset to what a fresh one would be. -/
theorem resettable (ha : Sender.machine.Run ⟨new (Eyenet.new δ) bnTrain, .idle⟩ trs₁ s)
    (hb : Sender.machine.Run ⟨new (Eyenet.new δ) bnTrain, .idle⟩ trs₂ t) :
    Resettable s.tcp t.tcp := by
  obtain ⟨ops₁, h₁⟩ := run_calls ha
  obtain ⟨ops₂, h₂⟩ := run_calls hb
  exact Eyenet.reset_alike h₁ h₂

end TcpEyenet
