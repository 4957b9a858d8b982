import TcpEyenet.Transport.Steps
import TcpEyenet.Receiver

/-! The sender, the receiver, and a network between them that may lose, delay, repeat and reorder
whole datagrams. -/
namespace TcpEyenet

/-- A datagram of the receiver, with the place among the sender's of the one that it answers. -/
structure Reply where
  source : ℕ
  bytes : List UInt8

/-- Both ends, and all that was ever sent either way. What arrives is any of it, at any time and
any number of times. -/
structure System (T : Type) where
  sender : Sender T
  receiver : Buf
  sent : List (List UInt8)
  replies : List Reply

/-- Whose turn it is. Receives name what arrives by its place; `none` is a timeout at the sender
and an error at the receiver. -/
inductive Turn
  | sender (i : Input (Option ℕ))
  | receiver (out : Option ℕ) (c : Double)

/-- An input with its receive made definite. -/
def Input.resolve {ρ ρ' : Type} (f : ρ → Option ρ') : Input ρ → Option (Input ρ')
  | .sendData call => some (.sendData call)
  | .handshake c out => (f out).map fun out => .handshake c out
  | .start t₀ t₁ => some (.start t₀ t₁)
  | .top c => some (.top c)
  | .send => some .send
  | .recv c₂ out c₃ => (f out).map fun out => .recv c₂ out c₃

def Reply.arrival (replies : List Reply) : Option ℕ → Option Recv
  | none => some .timeout
  | some k => replies[k]?.map fun e => .datagram e.bytes

namespace System

variable {T : Type} [Controller T]

/-- Before the first call, with nothing under way. -/
def fresh (tcp : TcpTransport T) (buf : Buf) : System T :=
  { sender := ⟨tcp, .idle⟩, receiver := buf, sent := [], replies := [] }

def senderStep (s : System T) (i : Input (Option ℕ)) : Option (Traced Event (System T)) := do
  let i ← i.resolve (Reply.arrival s.replies)
  let r ← s.sender.step i
  some ⟨{ s with sender := r.val, sent := s.sent ++ r.log.filterMap Event.datagram? }, r.log⟩

def receiverStep (s : System T) (out : Option ℕ) (c : Double) :
    Option (Traced Event (System T)) :=
  match out with
  | none => some (pure { s with receiver := (ackPackets s.receiver .recvError c).val })
  | some n => do
    let d ← s.sent[n]?
    let r := ackPackets s.receiver (.datagram d) c
    some (pure { s with receiver := r.val, replies := s.replies ++ r.log.map (Reply.mk n) })

def step (s : System T) : Turn → Option (Traced Event (System T))
  | .sender i => s.senderStep i
  | .receiver out c => s.receiverStep out c

def machine : Machine (System T) Turn Event := ⟨step⟩

end System

/-- A data packet, with its place among the sender's datagrams. -/
structure Posted where
  pos : ℕ
  header : PacketHeader
  deriving DecidableEq

/-- A call of `send_data`: the readings of its clock, and its data packets so far. -/
structure Cycle where
  call : Call
  readings : List ℚ
  packets : List Posted
  deriving DecidableEq

variable {T : Type} [Controller T]

/-- The header of the packet that an input makes the sender send. -/
def packetIn {ρ : Type} (s : Sender T) (i : Input ρ) : Option PacketHeader :=
  match s.phase, i with
  | .sending l, .send =>
    if (s.tcp.test l).val = some true then
      some (createHeader l.seqNum l.call.fid l.call.sid l.currTs)
    else none
  | _, _ => none

def Cycle.extend (c : Cycle) (readings : List ℚ) (packets : List Posted) : Cycle :=
  { c with readings := c.readings ++ readings, packets := c.packets ++ packets }

/-- The record of the cycles, the latest one first, after one more turn. -/
def System.record (s : System T) (cs : List Cycle) : Turn → List Cycle
  | .sender (.sendData call) => ⟨call, [], []⟩ :: cs
  | .sender i => cs.modifyHead fun c =>
      c.extend i.readings ((packetIn s.sender i).toList.map (Posted.mk s.sent.length))
  | .receiver _ _ => cs

def cycles (trs : List (Transition (System T) Turn Event)) : List Cycle :=
  trs.foldl (fun cs tr => tr.src.record cs tr.input) []

/-- The flows are numbered from 1 on, no number comes twice, and in no cycle does the clock go
back. -/
structure Orderly (cs : List Cycle) : Prop where
  named : ∀ c ∈ cs, 1 ≤ c.call.fid
  distinct : (cs.map fun c => c.call.fid).Nodup
  forward : ∀ c ∈ cs, c.readings.Pairwise (· ≤ ·)

end TcpEyenet
