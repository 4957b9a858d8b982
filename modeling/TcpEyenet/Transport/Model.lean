import TcpEyenet.Base
import TcpEyenet.Controller.Model

/-! The sender of vns_transport, one iteration of a loop at a time and in exact arithmetic. -/
namespace TcpEyenet

/-- What `tcp_transport` asks of its congestion controller. -/
class Controller (T : Type) where
  cwnd : T → ℚ
  intersend : T → ℚ
  rto : T → ℚ
  setTs : T → ℚ → T
  initialise : T → T
  onPktSent : T → ℤ → T
  /-- `none` where the controller exits. -/
  onAck : T → ℤ → ℚ → ℚ → Option T
  onTo : T → T
  /-- `none` stands for the infinity a division by 0 gives. -/
  onRateEst : T → Option ℚ → T
  close : T → T

instance : Controller Eyenet where
  cwnd := Eyenet.cwnd
  intersend := Eyenet.intersend
  rto := Eyenet.rto
  setTs := Eyenet.setTs
  initialise := Eyenet.initialise
  onPktSent := Eyenet.onPktSent
  onAck e ack recvTs sendTs := (e.onAck ack recvTs sendTs).val.toOption
  onTo e := e
  onRateEst e _ := e
  close e := e

/-- `PKT_SZ`, which is also the size of the buffers. -/
def pktSz : ℕ := 1440

def payload : ℕ := pktSz - hdrSz

/-- `NEG` as a `double_t`. -/
def negTs : Double := ⟨0xBFF0000000000000#64⟩

/-- A buffer after its `memset`. -/
def freshBuf : Buf := fun i => if i < pktSz - 1 then 0x23 else 0

/-- What the sender does that can be seen from outside it. -/
inductive Event
  | datagram (d : List UInt8)
  | poll (ms : ℤ)
  | setTs (ts : ℚ)
  | initialise
  | onPktSent (seqNo : ℤ)
  | onAck (ack : ℤ) (recvTs sendTs : ℚ)
  | onTo
  | onRateEst (rate : Option ℚ)
  | close
  | divisor (d : ℚ)
  | stats (tput delay : ℚ)
  deriving DecidableEq

/-- The arguments of `send_data`. -/
structure Call where
  fsz : ℚ
  byteSwitcher : Bool
  fid : Int32
  sid : Int32
  deriving DecidableEq

structure TcpTransport (T : Type) where
  cong : T
  bnTrain : ℤ
  lastSTs : ℚ
  lastRTs : ℚ
  lastAckTs : ℚ
  delayAggr : ℚ
  transTimeAggr : ℚ
  largestAck : ℤ
  npkts : ℤ
  nbytes : Int32

/-- The locals of `send_data` once its loop runs. -/
structure Locals where
  call : Call
  buf : Buf
  seqNum : ℤ
  currTs : Double
  rateEst : ℚ

/-- Where the sender stands: between calls, in the handshake, or in the loop of `send_data`. It
is `dead` after a division by 0, an overflow of `seq_num` or an exit of the controller. -/
inductive Phase
  | idle
  | shaking (call : Call) (buf : Buf) (lastSTs : ℚ)
  | connected (call : Call)
  | top (l : Locals)
  | sending (l : Locals)
  | dead

structure Sender (T : Type) where
  tcp : TcpTransport T
  phase : Phase

/-- What drives the sender: the calls, the readings of the clock and the ends of the receives.
`send` is the next iteration of the inner loop. A reading that a receive does not come to is not
looked at. -/
inductive Input (ρ : Type)
  | sendData (call : Call)
  | handshake (c : Double) (out : ρ)
  | start (t₀ t₁ : Double)
  | top (c : Double)
  | send
  | recv (c₂ : Double) (out : ρ) (c₃ : Double)

/-- The readings of the clock that `send_data` starts after its handshake. -/
def Input.readings {ρ : Type} : Input ρ → List ℚ
  | .start t₀ t₁ => [t₀.val, t₁.val]
  | .top c => [c.val]
  | .recv c₂ _ c₃ => [c₂.val, c₃.val]
  | _ => []

def createHeader (seqNum : ℤ) (fid sid : Int32) (ts : Double) : PacketHeader :=
  { seqNum := Int32.ofInt seqNum, fid := fid, sid := sid, sendTs := ts, recvTs := ⟨0⟩ }

/-- The header both ends of a handshake know by its fields. -/
def hello : PacketHeader :=
  { seqNum := -1, fid := -1, sid := -1, sendTs := negTs, recvTs := negTs }

def PacketHeader.isHello (h : PacketHeader) : Bool :=
  h.seqNum = -1 ∧ h.fid = -1 ∧ h.sendTs = negTs ∧ h.sid = -1

def Call.accepts (call : Call) (h : PacketHeader) : Bool := h.sid = call.sid ∧ h.fid = call.fid

namespace TcpTransport

open Traced Event

variable {T : Type} [Controller T]

def new (cong : T) (bnTrain : ℤ) : TcpTransport T :=
  { cong := cong
    bnTrain := bnTrain
    lastSTs := 0
    lastRTs := 0
    lastAckTs := 0
    delayAggr := 0
    transTimeAggr := 0
    largestAck := -1
    npkts := 0
    nbytes := 0 }

def setCong (tcp : TcpTransport T) (cong : T) : TcpTransport T := { tcp with cong := cong }

/-- The greeting goes out again every 200 ms. -/
def greet (buf : Buf) (lastSTs : ℚ) (c : Double) : Traced Event (Buf × ℚ) :=
  if lastSTs < c.val - 200 then
    let buf := buf.store 0 hello.bytes
    ⟨(buf, c.val), [datagram (buf.load 0 (hdrSz * 2))]⟩
  else pure (buf, lastSTs)

/-- One iteration of the loop of `handshake`. -/
def shake (tcp : TcpTransport T) (call : Call) (buf : Buf) (lastSTs : ℚ) (c : Double)
    (out : Recv) : Traced Event (Sender T) := do
  let g ← greet buf lastSTs c
  report (poll 200)
  let r := (recvData pktSz out g.1).val
  if r.rc ≠ 0 ∧ (PacketHeader.read r.buf).isHello then pure ⟨tcp, .connected call⟩
  else pure ⟨tcp, .shaking call r.buf g.2⟩

/-- Between the handshake and the loop. -/
def start (tcp : TcpTransport T) (call : Call) (t₀ t₁ : Double) : Traced Event (Sender T) := do
  report (setTs t₁.val)
  report initialise
  let cong := Controller.initialise (Controller.setTs tcp.cong t₁.val)
  pure
    ⟨{ tcp with lastSTs := t₀.val, lastAckTs := t₀.val, cong := cong },
      .top { call := call, buf := freshBuf, seqNum := 0, currTs := t₁, rateEst := 0 }⟩

/-- `_switch_sz`. -/
def switchSz (tcp : TcpTransport T) (l : Locals) : ℚ :=
  if l.call.byteSwitcher then tcp.npkts * payload else l.currTs.val

/-- The reset after 2000 ms without an ack. -/
def giveUp (tcp : TcpTransport T) (l : Locals) : Traced Event (TcpTransport T) :=
  if l.currTs.val - tcp.lastAckTs > 2000 then do
    report (setTs l.currTs.val)
    report initialise
    pure
      { tcp with
        cong := Controller.initialise (Controller.setTs tcp.cong l.currTs.val)
        largestAck := l.seqNum - 1
        lastSTs := l.currTs.val
        lastAckTs := l.currTs.val }
  else pure tcp

def enter (tcp : TcpTransport T) (l : Locals) (c : Double) : Traced Event (Sender T) := do
  let l := { l with currTs := c }
  let tcp ← tcp.giveUp l
  pure ⟨tcp, .sending l⟩

/-- The end of `send_data`. Where a divisor is 0 the statistics are not numbers; 0 stands here. -/
def finish (tcp : TcpTransport T) (c : Double) : Traced Event (Sender T) := do
  report (setTs c.val)
  report close
  let cong := Controller.close (Controller.setTs tcp.cong c.val)
  let tcp := { tcp with cong := cong, transTimeAggr := tcp.transTimeAggr + c.val }
  report (divisor (tcp.transTimeAggr / 1000))
  report (divisor tcp.npkts)
  report (stats (tcp.nbytes.toInt / (tcp.transTimeAggr / 1000)) (tcp.delayAggr / tcp.npkts))
  pure ⟨tcp, .idle⟩

def windowOpen (tcp : TcpTransport T) (l : Locals) : Bool :=
  l.seqNum < tcp.largestAck + Controller.cwnd tcp.cong + 1 ∧
    tcp.lastSTs + Controller.intersend tcp.cong * tcp.bnTrain ≤ l.currTs.val

/-- The operator `%`, `none` where it traps. -/
def rem (a b : ℤ) : Traced Event (Option ℤ) :=
  ⟨if b = 0 then none else some (a.tmod b), [divisor b]⟩

/-- The test of the inner loop, which looks at the train only once the window is closed. -/
def test (tcp : TcpTransport T) (l : Locals) : Traced Event (Option Bool) :=
  if tcp.windowOpen l then pure (some true)
  else do
    let r ← rem l.seqNum tcp.bnTrain
    pure (r.map fun r => r ≠ 0)

/-- The key under which a train is recorded. -/
def trainIndex (seqNum bnTrain : ℤ) : ℤ := seqNum.tdiv bnTrain

/-- Only the packet that leads a train is recorded. -/
def record (tcp : TcpTransport T) (l : Locals) : Traced Event (TcpTransport T) :=
  if l.seqNum.tmod tcp.bnTrain = 0 then do
    report (setTs l.currTs.val)
    report (divisor tcp.bnTrain)
    report (onPktSent (trainIndex l.seqNum tcp.bnTrain))
    let cong := Controller.setTs tcp.cong l.currTs.val
    pure (tcp.setCong (Controller.onPktSent cong (trainIndex l.seqNum tcp.bnTrain)))
  else pure tcp

/-- `seq_num += 1`, which must not overflow. -/
def advance (tcp : TcpTransport T) (l : Locals) : Sender T :=
  if l.seqNum < 2 ^ 31 - 1 then ⟨tcp, .sending { l with seqNum := l.seqNum + 1 }⟩
  else ⟨tcp, .dead⟩

/-- `last_s_ts` moves on by the spacing of the packets. -/
def spend (tcp : TcpTransport T) : TcpTransport T :=
  { tcp with lastSTs := tcp.lastSTs + Controller.intersend tcp.cong }

/-- The body of the inner loop. -/
def sendOne (tcp : TcpTransport T) (l : Locals) : Traced Event (Sender T) := do
  let hdr := createHeader l.seqNum l.call.fid l.call.sid l.currTs
  let l := { l with buf := l.buf.store 0 hdr.bytes }
  report (datagram (l.buf.load 0 pktSz))
  let r ← rem l.seqNum tcp.bnTrain
  match r with
  | none => pure ⟨tcp.spend, .dead⟩
  | some _ => do
    let tcp ← tcp.spend.record l
    pure (tcp.advance l)

/-- The next iteration of the inner loop, unless the loop is over. -/
def trySend (tcp : TcpTransport T) (l : Locals) : Option (Traced Event (Sender T)) :=
  let t := tcp.test l
  match t.val with
  | none => some ⟨⟨tcp, .dead⟩, t.log⟩
  | some true => some ⟨(tcp.sendOne l).val, t.log ++ (tcp.sendOne l).log⟩
  | some false => none

/-- After the inner loop the last send may count as one made now. -/
def snap (tcp : TcpTransport T) (l : Locals) : TcpTransport T :=
  if l.currTs.val - tcp.lastSTs ≥ Controller.intersend tcp.cong * tcp.bnTrain ∨
      l.seqNum ≥ tcp.largestAck + Controller.cwnd tcp.cong
  then { tcp with lastSTs := l.currTs.val } else tcp

def timeout (tcp : TcpTransport T) (c : Double) : ℚ :=
  if Controller.cwnd tcp.cong > 0 then
    min 1000 (tcp.lastSTs + Controller.intersend tcp.cong * tcp.bnTrain - c.val)
  else tcp.lastSTs + 1000

/-- Nothing came in time. -/
def idleTick (tcp : TcpTransport T) (l : Locals) (c : Double) : Traced Event (Sender T) :=
  let l := { l with currTs := c }
  if c.val > tcp.lastSTs + Controller.rto tcp.cong then do
    report onTo
    pure ⟨tcp.setCong (Controller.onTo tcp.cong), .top l⟩
  else pure ⟨tcp, .top l⟩

/-- `1000 / rate_est`. -/
def rate (rateEst : ℚ) : Option ℚ := if rateEst = 0 then none else some (1000 / rateEst)

def smoothRate (rateEst gap : ℚ) : ℚ :=
  if rateEst = 0 then gap else (1 - 1 / 16) * rateEst + 1 / 16 * gap

/-- The estimate of the rate at which acks come. -/
def estimateRate (tcp : TcpTransport T) (l : Locals) (seq : ℤ) :
    Traced Event (TcpTransport T × ℚ) :=
  if seq * tcp.bnTrain ≠ 0 ∧ tcp.lastRTs ≠ 0 then
    let rateEst := smoothRate l.rateEst (l.currTs.val - tcp.lastRTs)
    if seq + 1 > 2 * tcp.bnTrain then do
      report (divisor rateEst)
      report (onRateEst (rate rateEst))
      pure (tcp.setCong (Controller.onRateEst tcp.cong (rate rateEst)), rateEst)
    else pure (tcp, rateEst)
  else pure (tcp, l.rateEst)

/-- The argument with which an ack is passed on, from the sequence number it echoes. -/
def ackIndex (seq bnTrain : ℤ) : ℤ := (seq + 1).tdiv bnTrain

/-- The ack for the controller. The guard is `(seq_num - 1) && bn_train == 0`, as written. -/
def deliver (tcp : TcpTransport T) (h : PacketHeader) (c : Double) :
    Traced Event (Option (TcpTransport T)) :=
  let seq := h.seqNum.toInt
  if seq ≠ 0 ∧ tcp.bnTrain = 0 then do
    report (setTs c.val)
    report (divisor tcp.bnTrain)
    if tcp.bnTrain = 0 then pure none
    else do
      report (onAck (ackIndex seq tcp.bnTrain) h.recvTs.val h.sendTs.val)
      let cong := Controller.setTs tcp.cong c.val
      let cong := Controller.onAck cong (ackIndex seq tcp.bnTrain) h.recvTs.val h.sendTs.val
      pure (cong.map tcp.setCong)
  else pure (some tcp)

/-- `last_ack_ts`, which an accepted ack sets before anything else. -/
def heard (tcp : TcpTransport T) (c : Double) : TcpTransport T := { tcp with lastAckTs := c.val }

/-- The counters an accepted ack moves. -/
def credit (tcp : TcpTransport T) (h : PacketHeader) (c : Double) : TcpTransport T :=
  { tcp with
    lastRTs := c.val
    delayAggr := tcp.delayAggr + (c.val - h.sendTs.val)
    nbytes := tcp.nbytes + Int32.ofNat payload
    npkts := tcp.npkts + 1 }

def raiseAck (tcp : TcpTransport T) (seq : ℤ) : TcpTransport T :=
  { tcp with largestAck := max tcp.largestAck (seq + 1) }

/-- The iteration of an accepted ack after the second reading of the clock. -/
def accept (tcp : TcpTransport T) (l : Locals) (h : PacketHeader) : Traced Event (Sender T) := do
  let seq := h.seqNum.toInt
  let r ← (tcp.heard l.currTs).estimateRate l seq
  let credited := r.1.credit h l.currTs
  let delivered ← credited.deliver h l.currTs
  match delivered with
  | none => pure ⟨credited, .dead⟩
  | some tcp => pure ⟨tcp.raiseAck seq, .top { l with rateEst := r.2 }⟩

/-- The part of an iteration after the inner loop. -/
def receive (tcp : TcpTransport T) (l : Locals) (c₂ : Double) (out : Recv) (c₃ : Double) :
    Traced Event (Sender T) := do
  let tcp := tcp.snap l
  report (poll (truncate (tcp.timeout c₂)))
  let r := (recvData pktSz out l.buf).val
  let l := { l with buf := r.buf, currTs := c₂ }
  if r.rc = 0 then tcp.idleTick l c₃
  else
    let h := PacketHeader.read r.buf
    if l.call.accepts h then tcp.accept { l with currTs := c₃ } h
    else pure ⟨tcp, .top l⟩

/-- The receive, once the inner loop is over. -/
def tryReceive (tcp : TcpTransport T) (l : Locals) (c₂ : Double) (out : Recv) (c₃ : Double) :
    Option (Traced Event (Sender T)) :=
  let t := tcp.test l
  if t.val = some false then
    some ⟨(tcp.receive l c₂ out c₃).val, t.log ++ (tcp.receive l c₂ out c₃).log⟩
  else none

end TcpTransport

namespace Sender

variable {T : Type} [Controller T]

def step (s : Sender T) (i : Input Recv) : Option (Traced Event (Sender T)) :=
  match s.phase, i with
  | .idle, .sendData call =>
    some (pure ⟨{ s.tcp with largestAck := -1 }, .shaking call freshBuf (-10 ^ 9)⟩)
  | .shaking call buf lastSTs, .handshake c out => some (s.tcp.shake call buf lastSTs c out)
  | .connected call, .start t₀ t₁ => some (s.tcp.start call t₀ t₁)
  | .top l, .top c =>
    some (if s.tcp.switchSz l < l.call.fsz then s.tcp.enter l c else s.tcp.finish c)
  | .sending l, .send => s.tcp.trySend l
  | .sending l, .recv c₂ out c₃ => s.tcp.tryReceive l c₂ out c₃
  | _, _ => none

def machine : Machine (Sender T) (Input Recv) Event := ⟨step⟩

end Sender

end TcpEyenet
