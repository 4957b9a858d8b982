import TcpEyenet.Lib.Simulation
import TcpEyenet.Transport.Headers
import TcpEyenet.Transport.Recovery

/-! The sender over the congestion control of the repository, seen from outside: a window of ten
packets that nothing ever widens or narrows. -/
namespace TcpEyenet

open TcpTransport

/-- What a sender shows: the headers of its datagrams and the timeouts of its polls. -/
inductive Seen
  | header (h : PacketHeader)
  | poll (ms : ℤ)
  deriving DecidableEq

def Event.seen? : Event → Option Seen
  | .datagram d => some (.header (PacketHeader.ofBytes d))
  | .poll ms => some (.poll ms)
  | _ => none

/-- The locals of `send_data` that matter for a window of fixed size. -/
structure Pane where
  call : Call
  seqNum : ℤ
  currTs : Double

inductive Pose
  | idle
  | shaking (call : Call) (lastSTs : ℚ)
  | connected (call : Call)
  | top (l : Pane)
  | sending (l : Pane)
  | dead

/-- A sender without a controller, a pace or a buffer. -/
structure Slide where
  bnTrain : ℤ
  largestAck : ℤ
  lastAckTs : ℚ
  npkts : ℤ
  pose : Pose

def Recv.header? : Recv → Option PacketHeader
  | .datagram d => some (PacketHeader.ofBytes d)
  | _ => none

namespace Slide

/-- A packet may go: it lies in the window, or its train has begun. -/
def opens (s : Slide) (l : Pane) : Bool :=
  l.seqNum < s.largestAck + 11 ∨ ¬ s.bnTrain ∣ l.seqNum

def greet (lastSTs : ℚ) (c : Double) : Traced Seen ℚ :=
  if lastSTs < c.val - 200 then ⟨c.val, [.header hello]⟩ else pure lastSTs

def shake (s : Slide) (call : Call) (lastSTs : ℚ) (c : Double) (out : Recv) :
    Traced Seen Slide := do
  let t ← greet lastSTs c
  Traced.report (.poll 200)
  if out.header?.any PacketHeader.isHello then pure { s with pose := .connected call }
  else pure { s with pose := .shaking call t }

def more (s : Slide) (l : Pane) : Bool :=
  (if l.call.byteSwitcher then (s.npkts : ℚ) * payload else l.currTs.val) < l.call.fsz

/-- After 2000 ms of silence everything counts as acked. -/
def enter (s : Slide) (l : Pane) (c : Double) : Slide :=
  if c.val - s.lastAckTs > 2000 then
    { s with
      largestAck := l.seqNum - 1
      lastAckTs := c.val
      pose := .sending { l with currTs := c } }
  else { s with pose := .sending { l with currTs := c } }

def send (s : Slide) (l : Pane) : Traced Seen Slide :=
  { val := { s with
      pose := if l.seqNum < 2 ^ 31 - 1 then .sending { l with seqNum := l.seqNum + 1 } else .dead }
    log := [.header (createHeader l.seqNum l.call.fid l.call.sid l.currTs)] }

/-- The poll does not wait for anything to come: its timeout is not positive. -/
def receive (s : Slide) (l : Pane) (c₂ : Double) (out : Recv) (c₃ : Double) :
    Traced Seen Slide :=
  { val :=
      match out.header? with
      | none => { s with pose := .top { l with currTs := c₃ } }
      | some h =>
        if l.call.accepts h then
          { s with
            largestAck := max s.largestAck (h.seqNum.toInt + 1)
            lastAckTs := c₃.val
            npkts := s.npkts + 1
            pose := .top { l with currTs := c₃ } }
        else { s with pose := .top { l with currTs := c₂ } }
    log := [.poll (truncate (l.currTs.val - c₂.val))] }

def step (s : Slide) (i : Input Recv) : Option (Traced Seen Slide) :=
  match s.pose, i with
  | .idle, .sendData call =>
    some (pure { s with largestAck := -1, pose := .shaking call (-10 ^ 9) })
  | .shaking call lastSTs, .handshake c out => some (s.shake call lastSTs c out)
  | .connected call, .start t₀ t₁ =>
    some (pure { s with lastAckTs := t₀.val, pose := .top ⟨call, 0, t₁⟩ })
  | .top l, .top c =>
    some (pure (if s.more l then s.enter l c else { s with pose := .idle }))
  | .sending l, .send => if s.opens l then some (s.send l) else none
  | .sending l, .recv c₂ out c₃ => if s.opens l then none else some (s.receive l c₂ out c₃)
  | _, _ => none

def machine : Machine Slide (Input Recv) Seen := ⟨step⟩

end Slide

def Locals.pane (l : Locals) : Pane := ⟨l.call, l.seqNum, l.currTs⟩

def Phase.pose : Phase → Pose
  | .idle => .idle
  | .shaking call _ lastSTs => .shaking call lastSTs
  | .connected call => .connected call
  | .top l => .top l.pane
  | .sending l => .sending l.pane
  | .dead => .dead

/-- What is left of a sender. -/
def Sender.slide {T : Type} (s : Sender T) : Slide :=
  { bnTrain := s.tcp.bnTrain
    largestAck := s.tcp.largestAck
    lastAckTs := s.tcp.lastAckTs
    npkts := s.tcp.npkts
    pose := s.phase.pose }

/-- A receive times out or brings a whole header. -/
def Input.clean : Input Recv → Bool
  | .handshake _ out | .recv _ out _ => out = .timeout ∨ out.whole
  | _ => true

/-- The clock of a call does not go back; each call has its own. -/
def Ticks (now : ℚ) : Input Recv → Prop
  | .start t₀ t₁ => t₀.val ≤ t₁.val
  | i => (now :: i.readings).Pairwise (· ≤ ·)

/-- From a reading on the clock does not go back, and every receive is clean. -/
def Onward : ℚ → List (Input Recv) → Prop
  | _, [] => True
  | now, i :: is => Ticks now i ∧ i.clean = true ∧ Onward (i.readings.getLastD now) is

instance (now : ℚ) : (i : Input Recv) → Decidable (Ticks now i)
  | .start t₀ t₁ => inferInstanceAs (Decidable (t₀.val ≤ t₁.val))
  | .sendData _ | .handshake _ _ | .top _ | .send | .recv _ _ _ =>
    inferInstanceAs (Decidable (List.Pairwise _ _))

instance decidableOnward : (now : ℚ) → (is : List (Input Recv)) → Decidable (Onward now is)
  | _, [] => .isTrue trivial
  | now, i :: is =>
    have := decidableOnward (i.readings.getLastD now) is
    inferInstanceAs (Decidable (_ ∧ _ ∧ _))

/-- In a call the window is 10 packets, they are not spaced and the last send is not ahead of the
clock. -/
structure Fixed (now : ℚ) (s : Sender Eyenet) : Prop where
  bnTrain : 1 ≤ s.tcp.bnTrain
  nprobe : s.tcp.cong.nprobe = 10
  inside : ∀ l, s.phase = .top l ∨ s.phase = .sending l →
    Unpaced s.tcp.cong ∧ s.tcp.lastSTs ≤ l.currTs.val ∧ l.currTs.val ≤ now

variable {tcp : TcpTransport Eyenet} {l : Locals} {s : Sender Eyenet} {i : Input Recv}
  {is : List (Input Recv)} {r : Traced Event (Sender Eyenet)} {now : ℚ} {c c₂ c₃ : Double}
  {out : Recv} {δ : ℚ} {bn : ℤ}

theorem Event.Quiet.seen? {e : Event} (h : e.Quiet) : e.seen? = none := by
  cases e with
  | datagram | poll => exact h.elim
  | _ => rfl

theorem filterMap_seen {log : List Event} (h : ∀ e ∈ log, e.Quiet) :
    log.filterMap Event.seen? = [] :=
  List.filterMap_eq_nil_iff.mpr fun e he => (h e he).seen?

/-- The controller keeps the size of its first window. -/
theorem move_nprobe (h : Move s i r) : r.val.tcp.cong.nprobe = s.tcp.cong.nprobe := by
  obtain ⟨ops, hr⟩ := move_calls h
  refine hr.invariant (I := fun e => e.nprobe = s.tcp.cong.nprobe) (C := fun _ => True) (by simp)
    rfl ?_
  intro tr ht _ he
  exact (congrArg Config.nprobe (Eyenet.takes_config ht)).trans he

theorem initialise_unpaced {e : Eyenet} (h : e.nprobe = 10) (ts : ℚ) :
    Unpaced (e.setTs ts).initialise := by
  refine ⟨?_, rfl, rfl⟩
  change ((e.nprobe : ℤ) : ℚ) = 10
  rw [h]
  rfl

/-- With this window the test of the inner loop looks at nothing but numbers of packets. -/
theorem test_slide (hbn : 1 ≤ tcp.bnTrain) (hu : Unpaced tcp.cong)
    (hle : tcp.lastSTs ≤ l.currTs.val) (ph : Phase) :
    (tcp.test l).val = some ((Sender.slide ⟨tcp, ph⟩).opens l.pane) := by
  have hcwnd : Controller.cwnd tcp.cong = 10 := hu.cwnd
  have hintersend : Controller.intersend tcp.cong = 0 := hu.intersend
  have hopen : tcp.windowOpen l = decide (l.seqNum < tcp.largestAck + 11) := by
    simp only [windowOpen, hcwnd, hintersend, zero_mul, add_zero, hle, and_true, decide_eq_decide]
    constructor
    · intro h
      exact_mod_cast (by linarith : (l.seqNum : ℚ) < tcp.largestAck + 11)
    · intro h
      have hlt : (l.seqNum : ℚ) < tcp.largestAck + 11 := by exact_mod_cast h
      linarith
  have hdvd : l.seqNum.tmod tcp.bnTrain = 0 ↔ tcp.bnTrain ∣ l.seqNum :=
    ⟨Int.dvd_of_tmod_eq_zero, Int.tmod_eq_zero_of_dvd⟩
  unfold TcpTransport.test
  by_cases hlt : l.seqNum < tcp.largestAck + 11
  · simp [hopen, hlt, Slide.opens, Sender.slide, Locals.pane]
  · have hne : tcp.bnTrain ≠ 0 := by omega
    simp [hopen, hlt, Slide.opens, Sender.slide, Locals.pane, rem, hne, hdvd]

theorem snap_slide (hu : Unpaced tcp.cong) (hle : tcp.lastSTs ≤ l.currTs.val) :
    tcp.snap l = { tcp with lastSTs := l.currTs.val } := by
  have hintersend : Controller.intersend tcp.cong = 0 := hu.intersend
  refine if_pos (.inl ?_)
  rw [hintersend, zero_mul]
  linarith

/-- After the last send has moved up to the clock the timeout is what has passed since, or less. -/
theorem timeout_slide (hu : Unpaced tcp.cong) (hle : tcp.lastSTs ≤ l.currTs.val)
    (h₂ : l.currTs.val ≤ c₂.val) : (tcp.snap l).timeout c₂ = l.currTs.val - c₂.val := by
  have hcwnd : Controller.cwnd tcp.cong = 10 := hu.cwnd
  have hintersend : Controller.intersend tcp.cong = 0 := hu.intersend
  rw [snap_slide hu hle]
  simp only [timeout, hcwnd, hintersend, zero_mul, add_zero]
  rw [if_pos (by norm_num), min_eq_right (by linarith)]

theorem rc_clean (h : out = .timeout ∨ out.whole = true) (b : Buf) :
    (recvData pktSz out b).val.rc = 0 ↔ out.header? = none := by
  cases out with
  | timeout => simp [recvData, Recv.header?]
  | pollError | recvError => simp [Recv.whole] at h
  | datagram d =>
    have hd : hdrSz ≤ d.length := by simpa [Recv.whole] using h
    have hgot : 0 < (d.take pktSz).length := by
      rw [List.length_take]
      exact lt_min (by decide) (lt_of_lt_of_le (by decide) hd)
    have hrc : (recvData pktSz (.datagram d) b).val.rc ≠ 0 := by
      change ((d.take pktSz).length : ℤ) ≠ 0
      omega
    exact iff_of_false hrc (by simp [Recv.header?])

theorem read_clean {h : PacketHeader} (hc : out = .timeout ∨ out.whole = true) (b : Buf)
    (hh : out.header? = some h) : PacketHeader.read (recvData pktSz out b).val.buf = h := by
  cases out with
  | datagram d =>
    have hd : hdrSz ≤ d.length := by simpa [Recv.whole] using hc
    rw [read_recvData (by decide) hd]
    exact Option.some.inj hh
  | _ => simp [Recv.header?] at hh

/-- What a step shows, and the slide it leads to. -/
def Traced.slide (r : Traced Event (Sender Eyenet)) : Traced Seen Slide :=
  ⟨r.val.slide, r.log.filterMap Event.seen?⟩

/-- A handshake is over when a greeting comes back. -/
theorem met_iff (hc : out = .timeout ∨ out.whole) (b : Buf) :
    ((recvData pktSz out b).val.rc ≠ 0 ∧
      (PacketHeader.read (recvData pktSz out b).val.buf).isHello = true) ↔
    out.header?.any PacketHeader.isHello = true := by
  rw [ne_eq, rc_clean hc]
  cases hh : out.header? with
  | none => simp
  | some h => simp [read_clean hc b hh]

theorem greet_slide (buf : Buf) (lastSTs : ℚ) (c : Double) :
    Slide.greet lastSTs c = ⟨(greet buf lastSTs c).val.2,
      (greet buf lastSTs c).log.filterMap Event.seen?⟩ := by
  have hgreet : PacketHeader.ofBytes ((buf.store 0 hello.bytes).load 0 (hdrSz * 2)) = hello :=
    PacketHeader.ofBytes_load_store hello buf (by decide)
  unfold Slide.greet greet
  split_ifs
  · simp [Event.seen?, hgreet]
  · rfl

theorem shake_slide (call : Call) (buf : Buf) (lastSTs : ℚ) (hc : out = .timeout ∨ out.whole) :
    (Sender.slide ⟨tcp, .shaking call buf lastSTs⟩).shake call lastSTs c out =
      Traced.slide (tcp.shake call buf lastSTs c out) := by
  have hmet := met_iff hc (greet buf lastSTs c).val.1
  apply Traced.ext
  · simp only [Slide.shake, Traced.slide, shake, Traced.bind_val, greet_slide buf, ← hmet]
    split_ifs
    · rfl
    · rfl
  · simp only [Slide.shake, Traced.slide, shake, Traced.bind_log, Traced.ite_log, greet_slide buf,
      List.filterMap_append, Traced.pure_log, ite_self]
    rfl

theorem enter_slide (ph : Phase) :
    (Sender.slide ⟨tcp, ph⟩).enter l.pane c = (tcp.enter l c).val.slide := by
  have hack : (Sender.slide ⟨tcp, ph⟩).lastAckTs = tcp.lastAckTs := rfl
  simp only [Slide.enter, enter, Traced.bind_val, giveUp, hack]
  by_cases hlate : c.val - tcp.lastAckTs > 2000
  · simp only [if_pos hlate]
    rfl
  · simp only [if_neg hlate]
    rfl

theorem send_slide (hbn : 1 ≤ tcp.bnTrain) (ph : Phase) :
    (Sender.slide ⟨tcp, ph⟩).send l.pane = Traced.slide
      ⟨(tcp.sendOne l).val, (tcp.test l).log ++ (tcp.sendOne l).log⟩ := by
  obtain ⟨log, hlog, hsend⟩ := sendOne_log tcp l
  have hhdr : PacketHeader.ofBytes ((stamped l).load 0 pktSz) =
      createHeader l.seqNum l.call.fid l.call.sid l.currTs :=
    PacketHeader.ofBytes_load_store _ _ (by decide)
  apply Traced.ext
  · obtain ⟨cong, hrec⟩ := record_eq tcp.spend l
    obtain ⟨tcp', rfl, ⟨hlt, hv⟩ | ⟨hlt, hv⟩⟩ := sendOne_cases (by omega : tcp.bnTrain ≠ 0) l
    · have hlt' : l.pane.seqNum < 2 ^ 31 - 1 := hlt
      simp only [Slide.send, Traced.slide, hv, hrec, if_pos hlt']
      rfl
    · have hlt' : ¬ l.pane.seqNum < 2 ^ 31 - 1 := hlt
      simp only [Slide.send, Traced.slide, hv, hrec, if_neg hlt']
      rfl
  · simp only [Slide.send, Traced.slide, List.filterMap_append, hsend, List.filterMap_cons,
      filterMap_seen (test_log tcp l), filterMap_seen fun e he => (hlog e he).quiet, Event.seen?,
      hhdr]
    rfl

theorem receive_slide (hbn : 1 ≤ tcp.bnTrain) (hu : Unpaced tcp.cong)
    (hle : tcp.lastSTs ≤ l.currTs.val) (h₂ : l.currTs.val ≤ c₂.val)
    (hc : out = .timeout ∨ out.whole) (ph : Phase) :
    (Sender.slide ⟨tcp, ph⟩).receive l.pane c₂ out c₃ = Traced.slide
      ⟨(tcp.receive l c₂ out c₃).val, (tcp.test l).log ++ (tcp.receive l c₂ out c₃).log⟩ := by
  obtain ⟨log, hlog, hrecv, hv⟩ := receive_cases (by omega : tcp.bnTrain ≠ 0) l c₂ out c₃
  apply Traced.ext
  · have hsnap := snap_slide hu hle
    simp only [Slide.receive, Traced.slide]
    rcases hv with ⟨hrc, cong, -, hv⟩ | ⟨hrc, hacc, hv⟩ | ⟨hrc, hacc, cong, rateEst, -, hv⟩
    · rw [hv, (rc_clean hc l.buf).mp hrc, hsnap]
      rfl
    · obtain ⟨h, hh⟩ := Option.ne_none_iff_exists'.mp (mt (rc_clean hc l.buf).mpr hrc)
      rw [read_clean hc l.buf hh] at hacc
      have hacc' : l.pane.call.accepts h = false := hacc
      rw [hv, hh, hsnap]
      simp only [hacc', Bool.false_eq_true, if_false]
      rfl
    · obtain ⟨h, hh⟩ := Option.ne_none_iff_exists'.mp (mt (rc_clean hc l.buf).mpr hrc)
      rw [read_clean hc l.buf hh] at hacc hv
      have hacc' : l.pane.call.accepts h = true := hacc
      rw [hv, hh, hsnap]
      simp only [hacc', if_true]
      rfl
  · simp only [Slide.receive, Traced.slide, List.filterMap_append, hrecv, List.filterMap_cons,
      filterMap_seen (test_log tcp l), filterMap_seen fun e he => (hlog e he).quiet, Event.seen?,
      timeout_slide hu hle h₂]
    rfl

/-- A step of the sender is one of the slide, and a step that one refuses the other refuses. -/
theorem step_slide (hf : Fixed now s) (ht : Ticks now i) (hc : i.clean = true) :
    Slide.machine.step s.slide i = (Sender.machine.step s i).map Traced.slide := by
  obtain ⟨tcp, phase⟩ := s
  have hbn : 1 ≤ tcp.bnTrain := hf.bnTrain
  cases phase with
  | idle => cases i <;> rfl
  | shaking call buf lastSTs =>
    cases i with
    | handshake c out =>
      exact congrArg some (shake_slide call buf lastSTs (by simpa [Input.clean] using hc))
    | _ => rfl
  | connected call => cases i <;> rfl
  | top l =>
    cases i with
    | top c =>
      have hmore : (Sender.slide ⟨tcp, .top l⟩).more l.pane =
          decide (tcp.switchSz l < l.call.fsz) := rfl
      change some (pure (if (Sender.slide ⟨tcp, .top l⟩).more l.pane = true then _ else _)) =
        (some (if tcp.switchSz l < l.call.fsz then tcp.enter l c else tcp.finish c)).map _
      rw [hmore]
      by_cases hsz : tcp.switchSz l < l.call.fsz
      · have hlog : (tcp.enter l c).log.filterMap Event.seen? = [] := by
          simp only [enter, giveUp]
          split_ifs <;> simp [Event.seen?]
        simp only [hsz, decide_true, if_true, Option.map_some, Traced.slide, hlog, enter_slide]
        rfl
      · simp only [hsz, decide_false, if_false]
        rfl
    | _ => rfl
  | sending l =>
    obtain ⟨hu, hle, hnow⟩ := hf.inside l (.inr rfl)
    have htest := test_slide hbn hu hle (.sending l)
    cases i with
    | send =>
      change (if (Sender.slide ⟨tcp, .sending l⟩).opens l.pane = true then _ else _) =
        (tcp.trySend l).map _
      simp only [trySend, htest]
      cases (Sender.slide ⟨tcp, .sending l⟩).opens l.pane with
      | true => exact congrArg some (send_slide hbn _)
      | false => rfl
    | recv c₂ out c₃ =>
      have h₂ : l.currTs.val ≤ c₂.val := by
        have hpair := (List.pairwise_cons.mp ht).1 c₂.val (by simp [Input.readings])
        exact hnow.trans hpair
      change (if (Sender.slide ⟨tcp, .sending l⟩).opens l.pane = true then none else _) =
        (tcp.tryReceive l c₂ out c₃).map _
      simp only [tryReceive, htest]
      cases (Sender.slide ⟨tcp, .sending l⟩).opens l.pane with
      | true => rfl
      | false =>
        exact congrArg some (receive_slide hbn hu hle h₂ (by simpa [Input.clean] using hc) _)
    | _ => rfl
  | dead => cases i <;> rfl

/-- In a call the window is 10 packets and they are not spaced. -/
structure Steady (s : Sender Eyenet) : Prop where
  bnTrain : 1 ≤ s.tcp.bnTrain
  nprobe : s.tcp.cong.nprobe = 10
  inside : ∀ l, s.phase = .top l ∨ s.phase = .sending l → Unpaced s.tcp.cong

theorem giveUp_unpaced (hn : tcp.cong.nprobe = 10) (hu : Unpaced tcp.cong) :
    Unpaced (tcp.giveUp l).val.cong := by
  unfold giveUp
  split_ifs
  · exact initialise_unpaced hn _
  · exact hu

/-- No ack is passed on, so only the start of a call and a reset change the window, and they open
the first one. -/
theorem move_steady (h : Move s i r) (hs : Steady s) : Steady r.val := by
  have hbn : 1 ≤ s.tcp.bnTrain := hs.bnTrain
  refine ⟨(move_bnTrain h).symm ▸ hbn, (move_nprobe h).trans hs.nprobe, ?_⟩
  intro l' hl'
  cases h with
  | sendData => simp at hl'
  | handshake tcp call buf lastSTs c out =>
    simp only [shake, Traced.bind_val] at hl'
    split_ifs at hl' <;> simp at hl'
  | start tcp call t₀ t₁ => exact initialise_unpaced hs.nprobe _
  | enter tcp l c hsz => exact giveUp_unpaced hs.nprobe (hs.inside l (.inl rfl))
  | finish => simp [finish] at hl'
  | crash => simp at hl'
  | send tcp l htest =>
    have hne : tcp.bnTrain ≠ 0 := by
      have hone : 1 ≤ tcp.bnTrain := hbn
      omega
    exact (hs.inside l (.inr rfl)).sendOne hne l
  | receive tcp l c₂ out c₃ htest =>
    have hu : Unpaced tcp.cong := hs.inside l (.inr rfl)
    obtain ⟨log, -, -, hv | hv | hv⟩ := receive_cases (test_eq_false htest).2.1 l c₂ out c₃
    · obtain ⟨-, cong, hnud, hv⟩ := hv
      rw [hv, Eyenet.eq_of_nudged hnud]
      exact hu
    · rw [hv.2.2, snap_cong]
      exact hu
    · obtain ⟨-, -, cong, rateEst, hnud, hv⟩ := hv
      rw [hv, Eyenet.eq_of_nudged hnud]
      exact hu

theorem move_fixed (h : Move s i r) (hf : Fixed now s) (ht : Ticks now i) :
    Fixed (i.readings.getLastD now) r.val := by
  have hbn : 1 ≤ s.tcp.bnTrain := hf.bnTrain
  have hnext := move_steady h ⟨hbn, hf.nprobe, fun l hl => (hf.inside l hl).1⟩
  refine ⟨hnext.bnTrain, hnext.nprobe, ?_⟩
  intro l' hl'
  refine ⟨hnext.inside l' hl', ?_⟩
  cases h with
  | sendData => simp at hl'
  | handshake tcp call buf lastSTs c out =>
    simp only [shake, Traced.bind_val] at hl'
    split_ifs at hl' <;> simp at hl'
  | start tcp call t₀ t₁ =>
    obtain rfl := Phase.top.inj (hl'.resolve_right (by simp [start]))
    exact ⟨ht, le_rfl⟩
  | enter tcp l c hsz =>
    obtain rfl := Phase.sending.inj (hl'.resolve_left (by simp [enter]))
    obtain ⟨-, hle, hnow⟩ := hf.inside l (.inl rfl)
    have hc : now ≤ c.val := (List.pairwise_cons.mp ht).1 c.val (by simp [Input.readings])
    refine ⟨?_, le_rfl⟩
    rcases giveUp_lastSTs tcp { l with currTs := c } with hlast | hlast
    · exact hlast.le.trans (hle.trans (hnow.trans hc))
    · exact hlast.le
  | finish => simp [finish] at hl'
  | crash => simp at hl'
  | send tcp l htest =>
    obtain ⟨hu, hle, hnow⟩ := hf.inside l (.inr rfl)
    have hne : tcp.bnTrain ≠ 0 := by
      have hone : 1 ≤ tcp.bnTrain := hbn
      omega
    have hlast := sendOne_lastSTs tcp l
    rw [hu.intersend, add_zero] at hlast
    obtain ⟨tcp', -, ⟨-, hv⟩ | ⟨-, hv⟩⟩ := sendOne_cases hne l
    · rw [hv] at hl' hlast ⊢
      obtain rfl := Phase.sending.inj (hl'.resolve_left (by simp))
      exact ⟨hlast.le.trans hle, hnow⟩
    · rw [hv] at hl'
      simp at hl'
  | receive tcp l c₂ out c₃ htest =>
    obtain ⟨hu, hle, hnow⟩ := hf.inside l (.inr rfl)
    have h₂ : now ≤ c₂.val := (List.pairwise_cons.mp ht).1 c₂.val (by simp [Input.readings])
    have h₃ : now ≤ c₃.val := (List.pairwise_cons.mp ht).1 c₃.val (by simp [Input.readings])
    have h₂₃ : c₂.val ≤ c₃.val := by simpa [Input.readings] using (List.pairwise_cons.mp ht).2
    have hsnap := snap_slide hu hle
    obtain ⟨log, -, -, hv | hv | hv⟩ := receive_cases (test_eq_false htest).2.1 l c₂ out c₃
    · obtain ⟨-, cong, -, hv⟩ := hv
      rw [hv, hsnap] at hl' ⊢
      obtain rfl := Phase.top.inj (hl'.resolve_right (by simp))
      exact ⟨hnow.trans h₃, le_rfl⟩
    · obtain ⟨-, -, hv⟩ := hv
      rw [hv, hsnap] at hl' ⊢
      obtain rfl := Phase.top.inj (hl'.resolve_right (by simp))
      exact ⟨hnow.trans h₂, h₂₃⟩
    · obtain ⟨-, -, cong, rateEst, -, hv⟩ := hv
      rw [hv, hsnap] at hl' ⊢
      obtain rfl := Phase.top.inj (hl'.resolve_right (by simp))
      exact ⟨hnow.trans h₃, le_rfl⟩

/-- Whatever the delays, the losses and the parameter of the controller: what a sender shows is what
the window of fixed size shows. -/
theorem fixed_window (hbn : 1 ≤ bn) (hon : Onward now is) :
    Sender.machine.shown Event.seen? ⟨new (Eyenet.new δ) bn, .idle⟩ is =
      Slide.machine.shown some (Sender.slide ⟨new (Eyenet.new δ) bn, .idle⟩) is := by
  have halike : Sender.machine.Alike Slide.machine Event.seen? some
      fun is s t => t = Sender.slide s ∧ ∃ now, Fixed now s ∧ Onward now is := by
    rintro i is s _ ⟨rfl, now, hf, ht, hc, hon⟩
    rw [step_slide hf ht hc]
    cases hr : Sender.machine.step s i with
    | none => exact .none
    | some r =>
      refine .some ⟨⟨rfl, _, move_fixed (step_move hr) hf ht, hon⟩, ?_⟩
      simp [Traced.slide]
  refine halike.shown_eq ⟨rfl, now, ⟨hbn, rfl, ?_⟩, hon⟩
  intro l hl
  simp at hl

theorem fixed_window_firstWindow :
    (Sender.machine.shown Event.seen? (freshSender 1)
        (firstWindow ++ [.recv oneMs (echo 0) oneMs])).isSome ∧
      Sender.machine.shown Event.seen? (freshSender 1)
          (firstWindow ++ [.recv oneMs (echo 0) oneMs]) =
        Slide.machine.shown some (freshSender 1).slide
          (firstWindow ++ [.recv oneMs (echo 0) oneMs]) := by
  have hon : Onward 0 (firstWindow ++ [.recv oneMs (echo 0) oneMs]) := by decide +kernel
  exact ⟨by decide +kernel, fixed_window le_rfl hon⟩

end TcpEyenet
