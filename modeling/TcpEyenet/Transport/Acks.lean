import TcpEyenet.Transport.Steps

/-! The delivery of acks to the controller. -/
namespace TcpEyenet

def Event.isAck : Event → Bool
  | .onAck _ _ _ => true
  | _ => false

def Event.clock? : Event → Option ℚ
  | .setTs ts => some ts
  | _ => none

variable {T : Type} [Controller T] {tcp : TcpTransport T} {s : Sender T} {tr : Action T}
  {trs : List (Action T)}

/-- The acks a step should pass on: one, at the time of the step, if a train was echoed. -/
def Delivered (tr : Action T) : Prop :=
  match ackIn tr.src tr.input, tr.input with
  | some h, .recv _ _ c₃ =>
    if tr.src.tcp.bnTrain ∣ h.seqNum.toInt then
      ∃ pre ack recvTs sendTs post, tr.out = pre ++ .onAck ack recvTs sendTs :: post ∧
        (pre.filterMap Event.clock?).getLast? = some c₃.val ∧
        ∀ e ∈ pre ++ post, e.isAck = false
    else ∀ e ∈ tr.out, e.isAck = false
  | _, _ => ∀ e ∈ tr.out, e.isAck = false

open TcpTransport

/-- The controller never hears of an ack: the guard can only hold where `send_data` has died. -/
theorem move_isAck {i : Input Recv} {r : Traced Event (Sender T)} (h : Move s i r) :
    ∀ e ∈ r.log, e.isAck = false := by
  intro e he
  cases move_log h e he with
  | quiet hq =>
    cases e with
    | onAck => exact hq.elim
    | _ => rfl
  | poll => rfl
  | datagram => rfl

theorem bnTrain_run (hr : Sender.machine.Run ⟨tcp, .idle⟩ trs s) : s.tcp.bnTrain = tcp.bnTrain :=
  hr.invariant (I := fun s => s.tcp.bnTrain = tcp.bnTrain) (C := fun _ => True) (by simp) rfl
    fun _ ht _ h => (move_bnTrain (takes_move ht)).trans h

theorem bnTrain_src (hr : Sender.machine.Run ⟨tcp, .idle⟩ trs s) (hm : tr ∈ trs) :
    tr.src.tcp.bnTrain = tcp.bnTrain := by
  obtain ⟨pre, post, he⟩ := List.append_of_mem hm
  exact bnTrain_run (hr.split he).1

omit [Controller T] in
theorem delivered_iff (hl : ∀ e ∈ tr.out, e.isAck = false) :
    Delivered tr ↔ ∀ h ∈ ackIn tr.src tr.input, ¬ tr.src.tcp.bnTrain ∣ h.seqNum.toInt := by
  cases hack : ackIn tr.src tr.input with
  | none => simpa [Delivered, hack] using hl
  | some h =>
    obtain ⟨l, c₂, out, c₃, -, hinput, -⟩ := ackIn_eq_some hack
    rw [hinput] at hack
    simp only [Delivered, hinput, hack, Option.mem_some_iff, forall_eq']
    split_ifs with hdvd
    · refine iff_of_false ?_ (not_not.mpr hdvd)
      rintro ⟨pre, ack, recvTs, sendTs, post, heq, -⟩
      have hmem : Event.onAck ack recvTs sendTs ∈ tr.out := by simp [heq]
      simpa [Event.isAck] using hl _ hmem
    · exact iff_of_true hl hdvd

/-- Acks reach the controller as they should exactly where there is none to deliver. -/
theorem acks_delivered_iff (hr : Sender.machine.Run ⟨tcp, .idle⟩ trs s) :
    (∀ tr ∈ trs, Delivered tr) ↔
      ∀ tr ∈ trs, ∀ h ∈ ackIn tr.src tr.input, ¬ tcp.bnTrain ∣ h.seqNum.toInt := by
  apply forall₂_congr
  intro tr hm
  rw [delivered_iff (move_isAck (takes_move (hr.takes hm))), bnTrain_src hr hm]

/-- A flow with the controller of the repository, up to the end of its first window. -/
def firstWindow : List (Input Recv) :=
  [.sendData ⟨5000, false, 1, 7⟩, .handshake ⟨0⟩ (.datagram hello.bytes), .start ⟨0⟩ ⟨0⟩,
    .top ⟨0⟩] ++
    List.replicate 10 .send

def echo (seq : ℤ) : Recv := .datagram (createHeader seq 1 7 ⟨0⟩).bytes

/-- 1 ms. -/
def oneMs : Double := ⟨0x3FF0000000000000#64⟩

/-- 8192 ms. -/
def eightSec : Double := ⟨0x40C0000000000000#64⟩

def freshSender (bnTrain : ℤ) : Sender Eyenet := ⟨.new (Eyenet.new 1) bnTrain, .idle⟩

theorem lostAck_accepted :
    (Sender.machine.exec (freshSender 1) (firstWindow ++ [.recv ⟨0⟩ (echo 1) ⟨0⟩])).isSome := by
  decide +kernel

/-- With trains of one packet the ack of packet 1 is accepted and never passed on. -/
theorem ack_lost :
    ∃ trs s, Sender.machine.Run (freshSender 1) trs s ∧ ∃ tr ∈ trs, ¬ Delivered tr := by
  have hack : ∃ tr ∈ (Option.get _ lostAck_accepted).1, (ackIn tr.src tr.input).isSome := by
    decide +kernel
  obtain ⟨tr, hm, hsome⟩ := hack
  obtain ⟨h, hh⟩ := Option.isSome_iff_exists.mp hsome
  have hr := Machine.exec_get_run lostAck_accepted
  refine ⟨_, _, hr, tr, hm, ?_⟩
  rw [delivered_iff (move_isAck (takes_move (hr.takes hm))), bnTrain_src hr hm]
  intro hall
  exact hall h hh (one_dvd _)

theorem acks_delivered_iff_lostAck :
    ∃ trs s, Sender.machine.Run (freshSender 1) trs s ∧ ((∀ tr ∈ trs, Delivered tr) ↔
      ∀ tr ∈ trs, ∀ h ∈ ackIn tr.src tr.input, ¬ (1 : ℤ) ∣ h.seqNum.toInt) :=
  ⟨_, _, Machine.exec_get_run lostAck_accepted,
    acks_delivered_iff (Machine.exec_get_run lostAck_accepted)⟩

end TcpEyenet
