import TcpEyenet.Controller.Accounts
import TcpEyenet.Transport.Leak
import TcpEyenet.Transport.Trains

/-! The iteration that gives up waiting for acks. -/
namespace TcpEyenet

open TcpTransport

variable {tcp : TcpTransport Eyenet} {l : Locals} {call : Call} {c : Double} {bn q k : ℤ} {δ : ℚ}
  {m : ℕ} {sends trs : List (Action Eyenet)}

/-- The numbers of trains that follow on `q`. -/
def trainsFrom (bn q : ℤ) (m : ℕ) : List ℤ := (List.range m).map fun i => trainIndex q bn + i

def packetsFrom (q : ℤ) (call : Call) (c : Double) (n : ℕ) : List PacketHeader :=
  (List.range n).map fun i => createHeader (q + i) call.fid call.sid c

theorem trainsFrom_succ : trainsFrom bn q (m + 1) = trainsFrom bn q m ++ [trainIndex q bn + m] := by
  simp [trainsFrom, List.range_succ]

/-- How many trains a window of 10 packets begins. -/
def windowTrains (bn : ℤ) : ℤ := ⌈(10 : ℚ) / bn⌉

theorem le_windowTrains (hbn : 1 ≤ bn) (h : bn * (k - 1) < 10) : k ≤ windowTrains bn := by
  have hpos : (0 : ℚ) < bn := by exact_mod_cast hbn
  have hlt : ((k - 1 : ℤ) : ℚ) < 10 / bn := by
    rw [lt_div_iff₀ hpos, mul_comm]
    exact_mod_cast h
  have hceil := Int.lt_ceil.mpr hlt
  rw [windowTrains]
  omega

theorem eq_windowTrains (hbn : 1 ≤ bn) (h : bn * (k - 1) < 10) (hfull : 10 ≤ bn * k) :
    k = windowTrains bn := by
  have hpos : (0 : ℚ) < bn := by exact_mod_cast hbn
  refine le_antisymm (le_windowTrains hbn h) (Int.ceil_le.mpr ?_)
  rw [div_le_iff₀ hpos, mul_comm]
  exact_mod_cast hfull

/-- A window of 10 packets without spacing between them. -/
structure Unpaced (e : Eyenet) : Prop where
  cwnd : e.cwnd = 10
  currIntersend : e.currIntersend = 0
  intersend : e.intersend = 0

/-- The inner loop after a reset, with `q` the first packet and `m` trains begun. -/
structure Resuming (bn q : ℤ) (call : Call) (c : Double) (m : ℕ) (sends : List (Action Eyenet))
    (tcp : TcpTransport Eyenet) (l : Locals) : Prop where
  bnTrain : tcp.bnTrain = bn
  largestAck : tcp.largestAck = q - 1
  lastSTs : tcp.lastSTs = c.val
  cong : Unpaced tcp.cong
  ofCall : l.call = call
  currTs : l.currTs = c
  seqNum : l.seqNum = q + sends.length
  counted : Counted bn sends.length m
  begun : bn * (m - 1) < 10
  packets : packets sends = packetsFrom q call c sends.length
  trains : trains sends = trainsFrom bn q m
  keys : ∀ k, k ∈ tcp.cong.unackedPkts ↔ k ∈ trainsFrom bn q m

theorem Resuming.windowOpen (h : Resuming bn q call c m sends tcp l) :
    tcp.windowOpen l = true ↔ (sends.length : ℤ) < 10 := by
  have hcwnd : Controller.cwnd tcp.cong = 10 := h.cong.cwnd
  have hintersend : Controller.intersend tcp.cong = 0 := h.cong.intersend
  simp only [TcpTransport.windowOpen, hcwnd, hintersend, h.largestAck, h.lastSTs, h.currTs,
    h.seqNum, zero_mul, add_zero, le_refl, and_true, decide_eq_true_eq]
  push_cast
  constructor
  · intro hlt
    exact_mod_cast (by linarith : (sends.length : ℚ) < 10)
  · intro hlt
    have hlt' : (sends.length : ℚ) < 10 := by exact_mod_cast hlt
    linarith

/-- The trains begun so far do not go past those of the window. -/
theorem Resuming.length_le (h : Resuming bn q call c m sends tcp l) (hbn : 1 ≤ bn) :
    (sends.length : ℤ) ≤ bn * windowTrains bn :=
  h.counted.1.trans (mul_le_mul_of_nonneg_left (le_windowTrains hbn h.begun) (by omega))

theorem Resuming.dvd_iff (h : Resuming bn q call c m sends tcp l) (hq : bn ∣ q) :
    bn ∣ l.seqNum ↔ bn ∣ (sends.length : ℤ) := by
  rw [h.seqNum]
  exact Int.dvd_add_right hq

/-- A train is only begun while the window is open. -/
theorem Resuming.lt_of_lead (h : Resuming bn q call c m sends tcp l) (hq : bn ∣ q)
    (ht : (tcp.test l).val = some true) (hlead : bn ∣ (sends.length : ℤ)) :
    (sends.length : ℤ) < 10 := by
  rcases test_eq_true ht with hopen | ⟨-, hmod⟩
  · exact h.windowOpen.mp hopen
  · rw [h.bnTrain] at hmod
    exact absurd (Int.tmod_eq_zero_of_dvd ((h.dvd_iff hq).mpr hlead)) hmod

/-- What a send does to the trains on record. -/
theorem sendOne_keys (hbn : tcp.bnTrain ≠ 0) (l : Locals) (k : ℤ) :
    k ∈ (tcp.sendOne l).val.tcp.cong.unackedPkts ↔
      k ∈ tcp.cong.unackedPkts ∨
        l.seqNum.tmod tcp.bnTrain = 0 ∧ k = trainIndex l.seqNum tcp.bnTrain := by
  rw [sendOne_cong hbn]
  split_ifs with hlead
  · obtain ⟨-, -, pkt, hmap⟩ := Eyenet.onPktSent_books
      (e := tcp.cong.setTs l.currTs.val) (k := trainIndex l.seqNum tcp.bnTrain)
    have hmap' : (Controller.onPktSent (Controller.setTs tcp.cong l.currTs.val)
        (trainIndex l.seqNum tcp.bnTrain)).unackedPkts =
        tcp.cong.unackedPkts.insert (trainIndex l.seqNum tcp.bnTrain) pkt := hmap
    rw [hmap', Std.TreeMap.mem_insert, compare_eq_iff_eq]
    simp only [hlead, true_and]
    tauto
  · simp [hlead]

/-- A send leaves the spacing alone where it is the one last computed. -/
theorem Unpaced.sendOne (h : Unpaced tcp.cong) (hbn : tcp.bnTrain ≠ 0) (l : Locals) :
    Unpaced (tcp.sendOne l).val.tcp.cong := by
  rw [sendOne_cong hbn]
  split_ifs
  · obtain ⟨hcwnd, hcurr, -⟩ := Eyenet.onPktSent_window (tcp.cong.setTs l.currTs.val)
      (trainIndex l.seqNum tcp.bnTrain)
    have hcurr' := hcurr.trans h.currIntersend
    exact ⟨hcwnd.trans h.cwnd, hcurr', hcurr'⟩
  · exact h

theorem sendOne_lastSTs (tcp : TcpTransport Eyenet) (l : Locals) :
    (tcp.sendOne l).val.tcp.lastSTs = tcp.lastSTs + tcp.cong.intersend := by
  by_cases hbn : tcp.bnTrain = 0
  · rw [sendOne_of_eq hbn]
    rfl
  · obtain ⟨cong, h⟩ := record_eq tcp.spend l
    rw [sendOne_of_ne hbn, advance_tcp, h]
    rfl

theorem nextTrains_send (tcp : TcpTransport Eyenet) (hbn : tcp.bnTrain ≠ 0) (l : Locals)
    (dst : Sender Eyenet) :
    nextTrains (trains sends)
      ⟨⟨tcp, .sending l⟩, .send, (tcp.test l).log ++ (tcp.sendOne l).log, dst⟩ = trains sends ++
        if l.seqNum.tmod tcp.bnTrain = 0 then [trainIndex l.seqNum tcp.bnTrain] else [] := by
  simp only [nextTrains]
  rw [List.filterMap_append, test_trains, sendOne_trains hbn, List.nil_append]

theorem Resuming.trainIndex_eq (h : Resuming bn q call c m sends tcp l) (hbn : 1 ≤ bn)
    (hq : bn ∣ q) (hlead : bn ∣ (sends.length : ℤ)) :
    trainIndex l.seqNum bn = trainIndex q bn + m := by
  obtain ⟨a, rfl⟩ := hq
  rw [h.seqNum, h.counted.eq_of_dvd hbn hlead, ← mul_add, trainIndex, trainIndex,
    Int.mul_tdiv_cancel_left _ (by omega), Int.mul_tdiv_cancel_left _ (by omega)]

/-- The trains begun after one more packet. -/
theorem Resuming.counted_send (h : Resuming bn q call c m sends tcp l) (hbn : 1 ≤ bn)
    (hq : bn ∣ q) (ht : (tcp.test l).val = some true) :
    ∃ m' : ℕ, Counted bn (sends.length + 1 : ℕ) m' ∧ bn * (m' - 1) < 10 ∧
      trainsFrom bn q m' = trainsFrom bn q m ++
        if l.seqNum.tmod tcp.bnTrain = 0 then [trainIndex l.seqNum tcp.bnTrain] else [] := by
  rw [h.bnTrain]
  by_cases hlead : bn ∣ (sends.length : ℤ)
  · have hbegun := h.lt_of_lead hq ht hlead
    rw [h.counted.eq_of_dvd hbn hlead] at hbegun
    refine ⟨m + 1, h.counted.succ_of_dvd hbn hlead, by push_cast; simpa using hbegun, ?_⟩
    rw [if_pos (Int.tmod_eq_zero_of_dvd ((h.dvd_iff hq).mpr hlead)), trainsFrom_succ,
      h.trainIndex_eq hbn hq hlead]
  · refine ⟨m, h.counted.succ_of_not_dvd hlead, h.begun, ?_⟩
    rw [if_neg fun hmod => hlead ((h.dvd_iff hq).mp (Int.dvd_of_tmod_eq_zero hmod)),
      List.append_nil]

/-- One more packet, and one more train if it leads one. -/
theorem Resuming.send (h : Resuming bn q call c m sends tcp l) (hbn : 1 ≤ bn) (hq : bn ∣ q)
    (hfit : l.seqNum < 2 ^ 31 - 1) (ht : (tcp.test l).val = some true) :
    ∃ m' tcp' l', (tcp.sendOne l).val = ⟨tcp', .sending l'⟩ ∧ l'.seqNum = l.seqNum + 1 ∧
      Resuming bn q call c m' (sends ++ [⟨⟨tcp, .sending l⟩, .send,
        (tcp.test l).log ++ (tcp.sendOne l).log, ⟨tcp', .sending l'⟩⟩]) tcp' l' := by
  have hne : tcp.bnTrain ≠ 0 := by
    have hbn' := h.bnTrain
    omega
  obtain ⟨m', hcounted, hbegun, htrains⟩ := h.counted_send hbn hq ht
  obtain ⟨tcp', -, ⟨-, hv⟩ | ⟨hlast, -⟩⟩ := sendOne_cases hne l
  · have htcp : (tcp.sendOne l).val.tcp = tcp' := congrArg Sender.tcp hv
    have hbn' : (tcp.sendOne l).val.tcp.bnTrain = tcp.bnTrain := sendOne_bnTrain
    have hack : (tcp.sendOne l).val.tcp.largestAck = tcp.largestAck := sendOne_largestAck
    have hlastSTs := sendOne_lastSTs tcp l
    have hcong := h.cong.sendOne hne l
    have hkeys := sendOne_keys hne l
    have hpackets := sendOne_packets tcp l
    rw [htcp] at hbn' hack hlastSTs hcong hkeys
    have hseq : l.seqNum + 1 = q + (sends.length + 1 : ℕ) := by
      rw [h.seqNum]
      push_cast
      ring
    refine ⟨m', tcp', _, hv, rfl, ?_⟩
    exact
      { bnTrain := hbn'.trans h.bnTrain
        largestAck := hack.trans h.largestAck
        lastSTs := by rw [hlastSTs, h.lastSTs, h.cong.intersend, add_zero]
        cong := hcong
        ofCall := h.ofCall
        currTs := h.currTs
        seqNum := by simpa using hseq
        counted := by simpa using hcounted
        begun := hbegun
        packets := by
          rw [packets_concat, hpackets, h.packets, h.ofCall, h.currTs, h.seqNum]
          simp [packetsFrom, List.range_succ]
        trains := by rw [trains_concat, nextTrains_send tcp hne, h.trains, htrains]
        keys := by
          intro k
          rw [hkeys, h.keys, htrains, List.mem_append]
          split_ifs with hlead <;> simp [hlead] }
  · exact absurd hfit hlast

theorem ten_le_window (hbn : 1 ≤ bn) : 10 ≤ bn * windowTrains bn := by
  have hpos : (0 : ℚ) < bn := by exact_mod_cast hbn
  have hle := (div_le_iff₀ hpos).mp (Int.le_ceil ((10 : ℚ) / bn))
  have hle' : (10 : ℚ) ≤ ((windowTrains bn * bn : ℤ) : ℚ) := by
    push_cast
    exact hle
  rw [mul_comm]
  exact_mod_cast hle'

theorem Resuming.length_lt (h : Resuming bn q call c m sends tcp l) (hbn : 1 ≤ bn) (hq : bn ∣ q)
    (ht : (tcp.test l).val = some true) : (sends.length : ℤ) < bn * windowTrains bn := by
  by_cases hlead : bn ∣ (sends.length : ℤ)
  · exact (h.lt_of_lead hq ht hlead).trans_le (ten_le_window hbn)
  · exact lt_of_le_of_ne (h.length_le hbn) fun heq => hlead ⟨_, heq⟩

/-- Where the loop is over, it has sent the trains of the window. -/
theorem Resuming.full (h : Resuming bn q call c m sends tcp l) (hbn : 1 ≤ bn) (hq : bn ∣ q)
    (ht : (tcp.test l).val = some false) :
    (m : ℤ) = windowTrains bn ∧ (sends.length : ℤ) = bn * windowTrains bn := by
  have hdvd := dvd_of_test ht
  rw [h.bnTrain] at hdvd
  have hlen := h.counted.eq_of_dvd hbn ((h.dvd_iff hq).mp hdvd)
  have hfull : 10 ≤ (sends.length : ℤ) := by
    by_contra hlt
    have hopen := h.windowOpen.mpr (not_le.mp hlt)
    simp [(test_eq_false ht).1] at hopen
  have hm := eq_windowTrains hbn h.begun (hlen ▸ hfull)
  exact ⟨hm, hm ▸ hlen⟩

/-- How many packets are left of the window from `q` on. -/
def left (bn q : ℤ) (s : Sender Eyenet) : ℕ :=
  match s.phase with
  | .sending l => (q + bn * windowTrains bn - l.seqNum).toNat
  | _ => 0

/-- The loop sends what is left of the window, up to the end of its last train. -/
theorem Resuming.complete (h : Resuming bn q call c 0 [] tcp l) (hbn : 1 ≤ bn) (hq : bn ∣ q)
    (hfit : q + bn * windowTrains bn < 2 ^ 31) :
    ∃ sends tcp' l', Sender.machine.exec ⟨tcp, .sending l⟩
        (List.replicate (bn * windowTrains bn).toNat .send) = some (sends, ⟨tcp', .sending l'⟩) ∧
      (tcp'.test l').val = some false ∧
      Resuming bn q call c (windowTrains bn).toNat sends tcp' l' := by
  obtain ⟨n, -, sends, s, he, ⟨m, tcp', l', rfl, hres⟩, hend⟩ := Machine.exhaust
    (I := fun sends s => ∃ m tcp' l', s = ⟨tcp', .sending l'⟩ ∧
      Resuming bn q call c m sends tcp' l')
    (μ := left bn q) (i := .send) (M := Sender.machine) (s := ⟨tcp, .sending l⟩)
    (by
      rintro sends s r ⟨m, tcp', l', rfl, hres⟩ hstep
      have hmove : Move ⟨tcp', .sending l'⟩ .send r := step_move hstep
      cases hmove with
      | crash _ _ hz =>
        have hbn' := hres.bnTrain
        omega
      | send _ _ ht =>
        have hlt := hres.length_lt hbn hq ht
        have hseq := hres.seqNum
        obtain ⟨m', tcp'', l'', hv, hnext, hres'⟩ := hres.send hbn hq (by omega) ht
        refine ⟨⟨m', tcp'', l'', hv, hv ▸ hres'⟩, ?_⟩
        simp only [left, hv, hnext]
        omega)
    ⟨0, tcp, l, rfl, h⟩
  have htest := test_of_refused hend
  obtain ⟨hm, hlen⟩ := hres.full hbn hq htest
  have hn := Machine.exec_length he
  rw [List.length_replicate] at hn
  obtain rfl : (bn * windowTrains bn).toNat = n := by omega
  obtain rfl : (windowTrains bn).toNat = m := by omega
  exact ⟨sends, tcp', l', he, htest, hres⟩

/-- The reset opens a window of 10 packets from `seq_num` on and forgets all trains. -/
theorem giveUp_resumes (hbn : 1 ≤ tcp.bnTrain) (hlate : c.val - tcp.lastAckTs > 2000)
    (hprobe : tcp.cong.nprobe = 10) :
    Resuming tcp.bnTrain l.seqNum l.call c 0 [] (tcp.giveUp { l with currTs := c }).val
      { l with currTs := c } := by
  have hval : (tcp.giveUp { l with currTs := c }).val =
      { tcp with
        cong := (tcp.cong.setTs c.val).initialise
        largestAck := l.seqNum - 1
        lastSTs := c.val
        lastAckTs := c.val } := by
    rw [giveUp, if_pos hlate]
    rfl
  have hcwnd : (tcp.cong.setTs c.val).initialise.cwnd = 10 := by
    change ((tcp.cong.nprobe : ℤ) : ℚ) = 10
    rw [hprobe]
    rfl
  rw [hval]
  exact
    { bnTrain := rfl
      largestAck := rfl
      lastSTs := rfl
      cong := ⟨hcwnd, rfl, rfl⟩
      ofCall := rfl
      currTs := rfl
      seqNum := by simp
      counted := ⟨by simp, by simp; omega⟩
      begun := by push_cast; omega
      packets := rfl
      trains := rfl
      keys := by simp [trainsFrom, Eyenet.initialise] }

/-- An iteration that finds the last ack more than 2000 ms old sends the trains that begin in a
window of 10 packets, each packet and each train once, and only these trains are on record after
it. -/
theorem recovers (hbn : 1 ≤ bn)
    (hr : Sender.machine.Run ⟨new (Eyenet.new δ) bn, .idle⟩ trs ⟨tcp, .top l⟩)
    (hmore : tcp.switchSz l < l.call.fsz) (hlate : c.val - tcp.lastAckTs > 2000)
    (hfit : l.seqNum + bn * windowTrains bn < 2 ^ 31) :
    ∃ iter tcp' l', Sender.machine.exec ⟨tcp, .top l⟩
        (.top c :: List.replicate (bn * windowTrains bn).toNat .send) =
          some (iter, ⟨tcp', .sending l'⟩) ∧
      (tcp'.test l').val = some false ∧
      packets iter = packetsFrom l.seqNum l.call c (bn * windowTrains bn).toNat ∧
      trains iter = trainsFrom bn l.seqNum (windowTrains bn).toNat ∧
      ∀ k, k ∈ tcp'.cong.unackedPkts ↔ k ∈ trains iter := by
  have hb : tcp.bnTrain = bn := bnTrain_run hr
  obtain ⟨-, -, hdvd⟩ : 0 ≤ l.seqNum ∧ l.seqNum < 2 ^ 31 ∧ tcp.bnTrain ∣ l.seqNum :=
    aligned_run hbn (eyenet_keepsWindow _) hr
  have hstart := giveUp_resumes (l := l) (by omega : 1 ≤ tcp.bnTrain) hlate (nprobe_run hr)
  rw [hb] at hdvd hstart
  obtain ⟨sends, tcp', l', he, htest, hres⟩ := hstart.complete hbn hdvd hfit
  have hstep : Sender.machine.step ⟨tcp, .top l⟩ (.top c) = some (tcp.enter l c) :=
    congrArg some (if_pos hmore)
  have hlog : (tcp.enter l c).log = [.setTs c.val, .initialise] := by
    simp only [enter, TcpTransport.giveUp, if_pos hlate]
    rfl
  have hlen : sends.length = (bn * windowTrains bn).toNat := by
    rw [Machine.exec_length he, List.length_replicate]
  have htrains : trains (⟨⟨tcp, .top l⟩, .top c, (tcp.enter l c).log, (tcp.enter l c).val⟩ ::
      sends) = trains sends := by
    rw [hlog]
    rfl
  refine ⟨_, tcp', l', Machine.exec_cons hstep he, htest, ?_, ?_, fun k => ?_⟩
  · rw [← hlen, ← hres.packets, hlog]
    rfl
  · rw [htrains, hres.trains]
  · rw [htrains, hres.trains]
    exact hres.keys k

/-- A window of packets is sent, and nothing comes back. -/
def unanswered : List (Input Recv) := firstWindow ++ [.recv ⟨0⟩ .timeout ⟨0⟩]

theorem unanswered_accepted : (Sender.machine.exec (freshSender 1) unanswered).isSome := by
  decide +kernel

/-- 4096 ms. -/
def fourSec : Double := ⟨0x40B0000000000000#64⟩

/-- The sender as it is at the top of its loop after that. -/
def Sender.top? (s : Sender Eyenet) : Option Locals :=
  match s.phase with
  | .top l => some l
  | _ => none

theorem eq_top {s : Sender Eyenet} (h : s.top? = some l) : s = ⟨s.tcp, .top l⟩ := by
  obtain ⟨tcp, phase⟩ := s
  cases phase with
  | top l' =>
    obtain rfl : l' = l := Option.some.inj h
    rfl
  | _ => simp [Sender.top?] at h

theorem recovers_unanswered :
    ∃ trs tcp l, Sender.machine.Run (freshSender 1) trs ⟨tcp, .top l⟩ ∧
      ∃ iter tcp' l', Sender.machine.exec ⟨tcp, .top l⟩ (.top fourSec :: List.replicate 10 .send) =
        some (iter, ⟨tcp', .sending l'⟩) ∧ trains iter = trainsFrom 1 10 10 ∧
        ∀ k, k ∈ tcp'.cong.unackedPkts ↔ k ∈ trains iter := by
  have hwin : windowTrains 1 = 10 := by decide +kernel
  have htop : (Option.get _ unanswered_accepted).2.top?.any fun l => l.seqNum = 10 ∧
      (Option.get _ unanswered_accepted).2.tcp.switchSz l < l.call.fsz ∧
      fourSec.val - (Option.get _ unanswered_accepted).2.tcp.lastAckTs > 2000 := by
    decide +kernel
  obtain ⟨⟨trs, s⟩, hx⟩ := Option.isSome_iff_exists.mp unanswered_accepted
  simp only [hx, Option.get_some] at htop
  obtain ⟨l, hl, hfacts⟩ := (Option.any_eq_true ..).mp htop
  obtain ⟨hseq, hmore, hlate⟩ := of_decide_eq_true hfacts
  have hs := eq_top hl
  have hr := hs ▸ Machine.exec_run hx
  obtain ⟨iter, tcp', l', he, -, -, htrains, hkeys⟩ :=
    recovers (by decide : (1 : ℤ) ≤ 1) hr hmore hlate (by rw [hseq, hwin]; decide)
  rw [hwin] at he htrains
  rw [hseq] at htrains
  exact ⟨trs, s.tcp, l, hr, iter, tcp', l', he, htrains, hkeys⟩

end TcpEyenet
