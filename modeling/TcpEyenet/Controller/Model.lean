import TcpEyenet.Utils
import TcpEyenet.Lib.Machine

/-! The congestion controller of vns_eyenet. The log of a call holds its divisors, in order. -/
namespace TcpEyenet

inductive Operations
  | default
  | tcp
  | loss
  deriving DecidableEq

inductive Utility
  | constant
  | auto
  | coop
  deriving DecidableEq

structure PacketInfo where
  intersend : ℚ
  intersendRate : ℚ
  lastAvgSendRate : ℚ
  rtt : ℚ
  sentTs : ℚ

/-- The calls of `exit(EXIT_FAILURE)`. -/
inductive Exit
  | sendInFuture
  | rttBelowMin
  | malformedUnacked
  deriving DecidableEq

def Exit.message : Exit → String
  | sendInFuture => "Send timestamp is in future"
  | rttBelowMin => "Instantenous RTT smaller than minimum RTT"
  | malformedUnacked => "Malformed unacked packets"

structure Eyenet where
  flowSz : ℤ
  lastUpdateDir : ℤ
  nack : ℤ
  nlost : ℤ
  nprobe : ℤ
  nsent : ℤ
  pktsRtt : ℤ
  updateDir : ℤ
  currIntersend : ℚ
  currTs : ℚ
  delta : ℚ
  defaultDelta : ℚ
  expIncr : ℚ
  intersendRate : ℚ
  lastAckTs : ℚ
  lastAvgSendRate : ℚ
  lastDeltaUpdateTs : ℚ
  lastDeltaLossUpdateTs : ℚ
  lastIntersend : ℚ
  lastIntersendRate : ℚ
  lastRtt : ℚ
  lastRttUpdateTs : ℚ
  lastUpdateTs : ℚ
  maxQdEst : ℚ
  rttMin : ℚ
  ssThres : ℚ
  updateAmt : ℚ
  doSs : Bool
  lossRtt : Bool
  ss : Bool
  unackedPkts : Std.TreeMap ℤ PacketInfo
  unackedRtt : Ewma
  interarrival : Ewma
  lastDelta : Ewma
  rttSample : RttWin
  interarrivalRank : DataRank
  reduceOnLoss : LossReduce
  utilityType : Utility
  operationType : Operations
  cwnd : ℚ
  intersend : ℚ
  rto : ℚ

namespace Eyenet

def maxUpdateAmt : ℚ := 6 / 1000

def updateAmtStep : ℚ := 5 / 1000

/-- The constructor, which always picks `CONSTANT`. -/
def new (delta : ℚ) : Eyenet :=
  { flowSz := 0
    lastUpdateDir := 0
    nack := 0
    nlost := 0
    nprobe := 10
    nsent := 0
    pktsRtt := 0
    updateDir := 0
    currIntersend := 0
    currTs := 0
    delta := delta
    defaultDelta := 1 / 2
    expIncr := 0
    intersendRate := 0
    lastAckTs := 0
    lastAvgSendRate := 0
    lastDeltaUpdateTs := 0
    lastDeltaLossUpdateTs := 0
    lastIntersend := 0
    lastIntersendRate := 0
    lastRtt := 0
    lastRttUpdateTs := 0
    lastUpdateTs := 0
    maxQdEst := 0
    rttMin := 0
    ssThres := 0
    updateAmt := 0
    doSs := false
    lossRtt := false
    ss := false
    unackedPkts := ∅
    unackedRtt := Ewma.new 1
    interarrival := Ewma.new (1 / 32)
    lastDelta := Ewma.new 1
    rttSample := RttWin.new
    interarrivalRank := DataRank.new (1 / 20)
    reduceOnLoss := LossReduce.new
    utilityType := .constant
    operationType := .default
    cwnd := 2
    intersend := 0
    rto := 1000 }

def newWith (delta : ℚ) (utility : Utility) : Eyenet :=
  { new delta with utilityType := utility }

def setTs (e : Eyenet) (ts : ℚ) : Eyenet := { e with currTs := ts }

/-- `initialize`, which is a keyword here. -/
def initialise (e : Eyenet) : Eyenet :=
  { e with
    intersend := 0
    cwnd := e.nprobe
    rttMin := doubleMax
    rto := 1000
    delta := if e.utilityType = .constant then 1 else e.delta
    unackedPkts := ∅
    unackedRtt := e.unackedRtt.clear
    rttSample := e.rttSample.clear
    lastIntersend := 0
    currIntersend := 0
    interarrivalRank := e.interarrivalRank.clear
    lastUpdateTs := 0
    updateDir := 1
    lastUpdateDir := 1
    pktsRtt := 0
    updateAmt := 1
    intersendRate := 0
    lastIntersendRate := 0
    lastRtt := 0
    lastRttUpdateTs := 0
    lastAvgSendRate := 0
    nack := 0
    nlost := 0
    nsent := 0
    operationType := .default
    flowSz := 0
    lastDeltaUpdateTs := 0
    lastDeltaLossUpdateTs := 0
    maxQdEst := 0
    reduceOnLoss := e.reduceOnLoss.clear
    lossRtt := false
    interarrival := e.interarrival.clear
    lastAckTs := 0
    expIncr := 1
    lastDelta := e.lastDelta.clear
    ss := true
    ssThres := 10 ^ 10 }

/-- A division of `double_t`s, which reports its divisor. -/
def div (a b : ℚ) : Traced ℚ ℚ := ⟨a / b, [b]⟩

/-- The queueing delay `update_intersend` works with. -/
def qd (e : Eyenet) : ℚ := e.rttSample.virginRtt.tail - e.rttMin

def targetCwnd (e : Eyenet) : Traced ℚ ℚ :=
  if e.qd = 0 then pure doubleMax else div e.rttSample.virginRtt.tail (e.qd * e.delta)

def slowStart (e : Eyenet) (tCwnd : ℚ) : Eyenet :=
  if e.doSs ∨ tCwnd = doubleMax then
    let e := { e with cwnd := e.cwnd + 1 }
    if e.cwnd ≥ tCwnd then { e with ss := false } else e
  else e

def raiseAmt (amt : ℚ) : ℚ :=
  if amt < maxUpdateAmt then amt + updateAmtStep else ((truncate amt * 2 : ℤ) : ℚ)

/-- The velocity of the window, kept, raised or reset. -/
def reviseAmt (e : Eyenet) : Eyenet :=
  if e.lastUpdateTs + e.rttSample.currRtt < e.currTs then
    if e.lastUpdateDir * e.updateDir > 0 then { e with updateAmt := raiseAmt e.updateAmt } else e
  else { e with updateAmt := 1, lastUpdateDir := e.lastUpdateDir * -1 }

def velocity (e : Eyenet) : Eyenet :=
  { e.reviseAmt with lastUpdateTs := e.currTs, pktsRtt := 0, updateDir := 0 }

def steer (e : Eyenet) (tCwnd : ℚ) : Eyenet :=
  if e.ss then e.slowStart tCwnd else e.velocity

def clampAmt (e : Eyenet) : Eyenet :=
  let amt := if e.updateAmt > e.cwnd * e.delta then e.updateAmt / 2 else e.updateAmt
  { e with updateAmt := max amt 1, pktsRtt := e.pktsRtt + 1 }

def moveCwnd (e : Eyenet) (tCwnd : ℚ) : Traced ℚ Eyenet := do
  let step ← div e.updateAmt (e.delta * e.cwnd)
  if e.cwnd < tCwnd then
    pure { e with updateDir := e.updateDir + 1, cwnd := e.cwnd + step }
  else
    pure { e with updateDir := e.updateDir - 1, cwnd := e.cwnd - step }

/-- The floor under `cwnd` and the spacing that goes with it. -/
def pace (e : Eyenet) : Traced ℚ Eyenet := do
  let cwnd := max 2 e.cwnd
  let currIntersend ← div (1 / 2 * e.rttSample.virginRtt.tail) cwnd
  pure { e with cwnd := cwnd, currIntersend := currIntersend, intersend := currIntersend }

def updateIntersend (e : Eyenet) : Traced ℚ Eyenet :=
  if e.nack < 2 * e.nprobe - 1 then pure e
  else do
    let tCwnd ← e.targetCwnd
    let e ← (e.steer tCwnd).clampAmt.moveCwnd tCwnd
    e.pace

def chooseOperation (e : Eyenet) : Eyenet :=
  if e.utilityType = .auto then
    { e with operationType := if !e.rttSample.modeEyenet then .loss else .default }
  else e

/-- Doubled on a loss, else lowered once per RTT. -/
def adjustDelta (e : Eyenet) (loss : Bool) (currRtt : ℚ) : Traced ℚ Eyenet :=
  if loss ∧ e.lastDeltaLossUpdateTs + currRtt < e.currTs then
    pure { e with delta := e.delta * 2, lastDeltaLossUpdateTs := e.currTs }
  else if e.lastDeltaUpdateTs + currRtt < e.currTs then do
    let inv ← div 1 e.delta
    let delta ← div 1 (inv + 1)
    pure { e with delta := delta, lastDeltaUpdateTs := e.currTs }
  else pure e

def defaultRule (e : Eyenet) (currRtt : ℚ) : Eyenet :=
  if e.lastDeltaUpdateTs = 0 ∨ e.lastDeltaLossUpdateTs + currRtt < e.currTs then
    let delta := if e.delta < e.defaultDelta then e.defaultDelta else e.delta
    { e with delta := min delta e.defaultDelta, lastDeltaUpdateTs := e.currTs }
  else e

def startDelta (e : Eyenet) : Eyenet :=
  if e.lastDeltaUpdateTs = 0 then { e with delta := e.defaultDelta } else e

def capDelta (e : Eyenet) : Eyenet := { e with delta := min e.delta e.defaultDelta }

def lossRule (e : Eyenet) (loss : Bool) (currRtt : ℚ) : Traced ℚ Eyenet := do
  let e ← e.startDelta.adjustDelta loss currRtt
  pure e.capDelta

def updateDelta (e : Eyenet) (loss : Bool) (currRtt : ℚ) : Traced ℚ Eyenet :=
  let e := e.chooseOperation
  if e.operationType = .default ∧ e.utilityType ≠ .coop then pure (e.defaultRule currRtt)
  else if e.operationType = .loss ∨ e.utilityType = .coop then e.lossRule loss currRtt
  else pure e

def sampleRtt (e : Eyenet) (currRtt : ℚ) : Eyenet :=
  let rttSample := e.rttSample.add currRtt e.currTs
  { e with rttSample := rttSample, rttMin := rttSample.minRtt.tail }

def noteArrival (e : Eyenet) : Eyenet :=
  if e.lastAckTs ≠ 0 then
    { e with
      interarrival := e.interarrival.update (e.currTs - e.lastAckTs)
      interarrivalRank := e.interarrivalRank.add (e.currTs - e.lastAckTs)
      lastAckTs := e.currTs }
  else { e with lastAckTs := e.currTs }

/-- The locals of the loop over `unacked_pkts`. -/
structure Sweep where
  eyenet : Eyenet
  tmpSeq : ℤ
  loss : Bool
  reduce : Bool

/-- What the loop does with an entry at or below the acknowledged one. -/
def retireOne (seqNo k : ℤ) (pkt : PacketInfo) (s : Sweep) : Sweep :=
  let e :=
    { s.eyenet with
      lastIntersend := pkt.intersend
      lastIntersendRate := pkt.intersendRate
      lastRtt := pkt.rtt
      lastRttUpdateTs := pkt.sentTs
      lastAvgSendRate := pkt.lastAvgSendRate
      unackedPkts := s.eyenet.unackedPkts.erase k }
  if k < seqNo then
    let r := e.reduceOnLoss.update true e.currTs e.rttSample.currRtt
    { eyenet := { e with nlost := e.nlost + 1, reduceOnLoss := r.2 }
      tmpSeq := k
      loss := true
      reduce := s.reduce || r.1 }
  else { s with eyenet := e, tmpSeq := k }

/-- The loop, over the entries in key order. -/
def retire (seqNo : ℤ) : List (ℤ × PacketInfo) → Sweep → Except Exit Sweep
  | [], s => .ok s
  | (k, pkt) :: rest, s =>
    if s.tmpSeq > k then .error .malformedUnacked
    else if k > seqNo then .ok { s with tmpSeq := k }
    else retire seqNo rest (retireOne seqNo k pkt s)

def sweep (e : Eyenet) (seqNo : ℤ) : Except Exit Sweep :=
  let s : Sweep := { eyenet := e, tmpSeq := -1, loss := false, reduce := false }
  if e.unackedPkts.contains seqNo then retire seqNo e.unackedPkts.toList s else .ok s

/-- The cut of the window on losses. -/
def cut (e : Eyenet) : Traced ℚ Eyenet := pace { e with cwnd := e.cwnd * (8 / 10) }

def punish (s : Sweep) : Traced ℚ Eyenet :=
  if s.loss then s.eyenet.updateDelta true 0 else pure s.eyenet

def reduce (e : Eyenet) (pending : Bool) : Traced ℚ Eyenet :=
  let r := e.reduceOnLoss.update false e.currTs e.rttSample.currRtt
  let e := { e with reduceOnLoss := r.2 }
  if pending || r.1 then e.cut else pure e

/-- What is left of `on_ack` once the map has been swept. -/
def settle (s : Sweep) : Traced ℚ Eyenet := do
  let e ← punish s
  let e ← e.reduce s.reduce
  pure { e with nack := e.nack + 1 }

def absorb (e : Eyenet) (seqNo : ℤ) (currRtt : ℚ) : Traced ℚ (Except Exit Eyenet) := do
  let e ← e.updateDelta false currRtt
  let e ← e.updateIntersend
  match e.sweep seqNo with
  | .error x => pure (.error x)
  | .ok s => do
    let e ← settle s
    pure (.ok e)

def onAck (e : Eyenet) (ack : ℤ) (_recvTs sendTs : ℚ) : Traced ℚ (Except Exit Eyenet) :=
  if e.currTs < sendTs then pure (.error .sendInFuture)
  else
    let currRtt := e.currTs - sendTs
    let e := e.sampleRtt currRtt
    if e.rttSample.virginRtt.tail < e.rttMin then pure (.error .rttBelowMin)
    else e.noteArrival.absorb (ack - 1) currRtt

/-- The oldest entry may refresh the estimate of the RTT of what is in flight. -/
def probeOldest (e : Eyenet) : Eyenet :=
  match e.unackedPkts.toList.head? with
  | none => e
  | some (_, pkt) =>
    if e.currTs - pkt.sentTs > e.unackedRtt.e then
      { e with
        unackedRtt := e.unackedRtt.update (e.currTs - pkt.sentTs)
        lastIntersend := pkt.intersend
        lastIntersendRate := pkt.intersendRate }
    else e

/-- The average send rate, which nothing reads, is 0 here where the source divides by 0. -/
def track (e : Eyenet) (seqNo : ℤ) : Eyenet :=
  let info : PacketInfo :=
    { intersend := e.currIntersend
      intersendRate := e.intersendRate
      lastAvgSendRate := e.unackedPkts.size / (e.currTs - e.lastRttUpdateTs)
      rtt := e.rttSample.virginRtt.tail
      sentTs := e.currTs }
  { e with
    unackedPkts := e.unackedPkts.insert seqNo info
    unackedRtt := e.unackedRtt.set e.rttSample.virginRtt.tail }

def onPktSent (e : Eyenet) (seqNo : ℤ) : Eyenet :=
  let e := (e.track seqNo).probeOldest
  { e with nsent := e.nsent + 1, intersend := e.currIntersend }

inductive Op
  | initialise
  | setTs (ts : ℚ)
  | onPktSent (seqNo : ℤ)
  | onAck (ack : ℤ) (recvTs sendTs : ℚ)
  deriving DecidableEq

/-- The controller under any sequence of calls; a call that exits is refused. -/
def machine : Machine Eyenet Op ℚ where
  step e
    | .initialise => some (pure e.initialise)
    | .setTs ts => some (pure (e.setTs ts))
    | .onPktSent seqNo => some (pure (e.onPktSent seqNo))
    | .onAck ack recvTs sendTs => (e.onAck ack recvTs sendTs).accept

end Eyenet

end TcpEyenet
