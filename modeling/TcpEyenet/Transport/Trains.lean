import TcpEyenet.Controller.Cwnd
import TcpEyenet.Transport.WindowBound
import TcpEyenet.Transport.Pacing

/-! The inner loop of `send_data`: it ends, and it ends between two trains. -/
namespace TcpEyenet

open TcpTransport

variable {T : Type} [Controller T] {tcp tcp₁ : TcpTransport T} {s : Sender T} {i : Input Recv}
  {trs : List (Action T)} {tr : Action T} {l : Locals} {bn q : ℤ} {m : ℕ} {ks : List ℤ}

/-- The headers of the datagrams that go out. -/
def packets (trs : List (Action T)) : List PacketHeader :=
  trs.flatMap fun tr => (tr.out.filterMap Event.datagram?).map PacketHeader.ofBytes

def Event.train? : Event → Option ℤ
  | .onPktSent seqNo => some seqNo
  | _ => none

def nextTrains (ks : List ℤ) (tr : Action T) : List ℤ :=
  match tr.input with
  | .sendData _ => []
  | _ => ks ++ tr.out.filterMap Event.train?

/-- The trains recorded in the latest call. -/
def trains (trs : List (Action T)) : List ℤ := trs.foldl nextTrains []

/-- No send changes the window, whatever the sender has done before. -/
def KeepsWindow (s : Sender T) : Prop :=
  ∀ trs tr, Sender.machine.Run s trs tr.src → Sender.machine.Takes tr → tr.input = .send →
    Controller.cwnd tr.dst.tcp.cong = Controller.cwnd tr.src.tcp.cong

/-- The first number past the window. -/
def edge (tcp : TcpTransport T) : ℚ := tcp.largestAck + Controller.cwnd tcp.cong + 1

/-- The number of the packet that leads the train of packet `q`. -/
def lead (bn q : ℤ) : ℤ := q - q % bn

/-- What the numbers of a call satisfy: at the top of the loop the next packet leads a train, and
in the inner loop the train it belongs to was begun inside the window. -/
def Aligned (s : Sender T) : Prop :=
  match s.phase with
  | .top l => 0 ≤ l.seqNum ∧ l.seqNum < 2 ^ 31 ∧ s.tcp.bnTrain ∣ l.seqNum
  | .sending l => 0 ≤ l.seqNum ∧ l.seqNum < 2 ^ 31 ∧
      (s.tcp.bnTrain ∣ l.seqNum ∨ (lead s.tcp.bnTrain l.seqNum : ℚ) < edge s.tcp)
  | _ => True

omit [Controller T] in
@[simp] theorem packets_concat :
    packets (trs ++ [tr]) =
      packets trs ++ (tr.out.filterMap Event.datagram?).map PacketHeader.ofBytes := by
  simp [packets]

omit [Controller T] in
@[simp] theorem trains_concat : trains (trs ++ [tr]) = nextTrains (trains trs) tr := by
  simp [trains]

theorem lead_le (hbn : 1 ≤ bn) (q : ℤ) : lead bn q ≤ q := by
  have hnn := Int.emod_nonneg q (by omega : bn ≠ 0)
  rw [lead]
  omega

theorem lt_lead_add (hbn : 1 ≤ bn) (q : ℤ) : q < lead bn q + bn := by
  have hlt := Int.emod_lt_of_pos q (by omega : 0 < bn)
  rw [lead]
  omega

theorem lead_succ (hbn : 1 ≤ bn) (h : ¬ bn ∣ q + 1) : lead bn (q + 1) = lead bn q := by
  have hmod := sub_one_emod (a := q + 1) (by omega : 0 < bn)
  rw [if_neg h, add_sub_cancel_right] at hmod
  simp only [lead]
  omega

/-- A packet is only sent in a train that was begun inside the window. -/
theorem lead_lt_edge (hbn : 1 ≤ tcp.bnTrain) (ht : (tcp.test l).val = some true)
    (hal : tcp.bnTrain ∣ l.seqNum ∨ (lead tcp.bnTrain l.seqNum : ℚ) < edge tcp) :
    (lead tcp.bnTrain l.seqNum : ℚ) < edge tcp := by
  rcases test_eq_true ht with hopen | ⟨-, hmod⟩
  · simp only [windowOpen, decide_eq_true_eq] at hopen
    have hle : (lead tcp.bnTrain l.seqNum : ℚ) ≤ l.seqNum := by exact_mod_cast lead_le hbn _
    exact hle.trans_lt hopen.1
  · exact hal.resolve_left fun hdvd => hmod (Int.tmod_eq_zero_of_dvd hdvd)

/-- What the sends of one step carry. -/
theorem sendOne_packets (tcp : TcpTransport T) (l : Locals) :
    (((tcp.test l).log ++ (tcp.sendOne l).log).filterMap Event.datagram?).map
      PacketHeader.ofBytes = [createHeader l.seqNum l.call.fid l.call.sid l.currTs] := by
  rw [List.filterMap_append, filterMap_quiet (test_log tcp l), sendOne_datagrams, List.nil_append,
    List.map_singleton, stamped, PacketHeader.ofBytes_load_store _ _ (by decide)]

/-- A send either moves to the next number or has used the last one. -/
theorem sendOne_cases (hbn : tcp.bnTrain ≠ 0) (l : Locals) :
    ∃ tcp', (tcp.spend.record l).val = tcp' ∧
      ((l.seqNum < 2 ^ 31 - 1 ∧ (tcp.sendOne l).val =
        ⟨tcp', .sending { l with buf := stamped l, seqNum := l.seqNum + 1 }⟩) ∨
      (¬ l.seqNum < 2 ^ 31 - 1 ∧ (tcp.sendOne l).val = ⟨tcp', .dead⟩)) := by
  refine ⟨_, rfl, ?_⟩
  rw [sendOne_of_ne hbn, advance]
  split_ifs with hfit
  · exact .inl ⟨hfit, rfl⟩
  · exact .inr ⟨hfit, rfl⟩

theorem record_cong (tcp : TcpTransport T) (l : Locals) : (tcp.record l).val.cong =
    if l.seqNum.tmod tcp.bnTrain = 0 then
      Controller.onPktSent (Controller.setTs tcp.cong l.currTs.val)
        (trainIndex l.seqNum tcp.bnTrain)
    else tcp.cong := by
  unfold record
  split_ifs <;> rfl

/-- The controller after a send. -/
theorem sendOne_cong (hbn : tcp.bnTrain ≠ 0) (l : Locals) : (tcp.sendOne l).val.tcp.cong =
    if l.seqNum.tmod tcp.bnTrain = 0 then
      Controller.onPktSent (Controller.setTs tcp.cong l.currTs.val)
        (trainIndex l.seqNum tcp.bnTrain)
    else tcp.cong := by
  rw [sendOne_of_ne hbn, advance_tcp]
  exact record_cong tcp.spend l

theorem edge_sendOne (hkeep : Controller.cwnd (tcp.sendOne l).val.tcp.cong =
    Controller.cwnd tcp.cong) : edge (tcp.sendOne l).val.tcp = edge tcp := by
  rw [edge, hkeep, sendOne_largestAck, edge]

theorem sendOne_aligned (hbn : 1 ≤ tcp.bnTrain) (ht : (tcp.test l).val = some true)
    (hkeep : Controller.cwnd (tcp.sendOne l).val.tcp.cong = Controller.cwnd tcp.cong)
    (hal : Aligned ⟨tcp, .sending l⟩) : Aligned (tcp.sendOne l).val := by
  obtain ⟨hnn, hfit, hal⟩ := hal
  have hedge := edge_sendOne hkeep
  have hbn' : (tcp.sendOne l).val.tcp.bnTrain = tcp.bnTrain := sendOne_bnTrain
  obtain ⟨tcp', -, ⟨hlt, hv⟩ | ⟨-, hv⟩⟩ := sendOne_cases (by omega : tcp.bnTrain ≠ 0) l
  · rw [hv] at hedge hbn' ⊢
    refine ⟨by simp only; omega, by simp only; omega, ?_⟩
    simp only at hedge hbn' ⊢
    rw [hedge, hbn']
    by_cases hdvd : tcp.bnTrain ∣ l.seqNum + 1
    · exact .inl hdvd
    · rw [lead_succ hbn hdvd]
      exact .inr (lead_lt_edge hbn ht hal)
  · rw [hv]
    trivial

theorem move_aligned {r : Traced Event (Sender T)} (h : Move s i r) (hbn : 1 ≤ s.tcp.bnTrain)
    (hkeep : i = .send → Controller.cwnd r.val.tcp.cong = Controller.cwnd s.tcp.cong)
    (hal : Aligned s) : Aligned r.val := by
  cases h with
  | sendData => trivial
  | handshake tcp call buf lastSTs c out =>
    simp only [shake, Traced.bind_val]
    split_ifs <;> trivial
  | start tcp call t₀ t₁ => exact ⟨le_rfl, (by decide : (0 : ℤ) < 2 ^ 31), dvd_zero _⟩
  | enter tcp l c =>
    obtain ⟨hnn, hfit, hdvd⟩ := hal
    have hb : (tcp.giveUp { l with currTs := c }).val.bnTrain = tcp.bnTrain := giveUp_bnTrain
    exact ⟨hnn, hfit, .inl (hb ▸ hdvd)⟩
  | finish => trivial
  | crash => trivial
  | send tcp l ht => exact sendOne_aligned hbn ht (hkeep rfl) hal
  | receive tcp l c₂ out c₃ ht =>
    obtain ⟨hnn, hfit, -⟩ := hal
    have hb : (tcp.snap l).bnTrain = tcp.bnTrain := snap_bnTrain
    have hdvd : (tcp.snap l).bnTrain ∣ l.seqNum := hb ▸ dvd_of_test ht
    obtain ⟨log, -, -, h | h | h⟩ := receive_cases (test_eq_false ht).2.1 l c₂ out c₃
    · obtain ⟨-, cong, -, hv⟩ := h
      rw [hv]
      exact ⟨hnn, hfit, hdvd⟩
    · rw [h.2.2]
      exact ⟨hnn, hfit, hdvd⟩
    · obtain ⟨-, -, cong, rateEst, -, hv⟩ := h
      rw [hv]
      exact ⟨hnn, hfit, hdvd⟩

/-- `m` trains begin before packet `q`. -/
def Counted (bn q : ℤ) (m : ℕ) : Prop := q ≤ bn * m ∧ bn * m < q + bn

theorem Counted.eq_of_dvd (hbn : 1 ≤ bn) (h : Counted bn q m) (hdvd : bn ∣ q) : q = bn * m := by
  obtain ⟨k, rfl⟩ := hdvd
  have hle : k ≤ m := le_of_mul_le_mul_left h.1 (by omega)
  have hlt : (m : ℤ) < k + 1 := by
    have hlt := h.2
    rw [← mul_add_one] at hlt
    exact lt_of_mul_lt_mul_left hlt (by omega)
  rw [show k = m by omega]

theorem Counted.succ_of_dvd (hbn : 1 ≤ bn) (h : Counted bn q m) (hdvd : bn ∣ q) :
    Counted bn (q + 1) (m + 1) := by
  have heq := h.eq_of_dvd hbn hdvd
  rw [Counted, Nat.cast_succ, mul_add_one, ← heq]
  omega

theorem Counted.succ_of_not_dvd (h : Counted bn q m) (hdvd : ¬ bn ∣ q) : Counted bn (q + 1) m := by
  obtain ⟨hle, hlt⟩ := h
  have hne : q ≠ bn * m := fun heq => hdvd ⟨m, heq⟩
  exact ⟨by omega, by omega⟩

/-- The train that a step records. -/
def trainIn (s : Sender T) (i : Input Recv) : Option ℤ :=
  (leadIn s i).map fun l => trainIndex l.seqNum s.tcp.bnTrain

theorem filterMap_train {log : List Event} (h : ∀ e ∈ log, e.train? = none) :
    log.filterMap Event.train? = [] :=
  List.filterMap_eq_nil_iff.mpr h

theorem test_trains (tcp : TcpTransport T) (l : Locals) :
    (tcp.test l).log.filterMap Event.train? = [] := by
  unfold test
  split_ifs <;> simp [rem, Event.train?]

theorem record_trains (tcp : TcpTransport T) (l : Locals) :
    (tcp.record l).log.filterMap Event.train? =
      if l.seqNum.tmod tcp.bnTrain = 0 then [trainIndex l.seqNum tcp.bnTrain] else [] := by
  unfold record
  split_ifs <;> rfl

theorem sendOne_trains (hbn : tcp.bnTrain ≠ 0) (l : Locals) :
    (tcp.sendOne l).log.filterMap Event.train? =
      if l.seqNum.tmod tcp.bnTrain = 0 then [trainIndex l.seqNum tcp.bnTrain] else [] := by
  rw [sendOne_log_of_ne hbn, List.filterMap_cons, List.filterMap_cons]
  exact record_trains tcp.spend l

theorem Event.Aside.train? {e : Event} (h : e.Aside) : e.train? = none := by
  cases e with
  | onPktSent => exact h.elim
  | _ => rfl

theorem move_trains {r : Traced Event (Sender T)} (h : Move s i r) (hbn : s.tcp.bnTrain ≠ 0) :
    r.log.filterMap Event.train? = (trainIn s i).toList := by
  cases h with
  | sendData => rfl
  | handshake tcp call buf lastSTs c out =>
    simp only [shake, greet]
    split_ifs <;> simp [trainIn, leadIn, Event.train?]
  | start tcp call t₀ t₁ => rfl
  | enter tcp l c =>
    simp only [enter, giveUp]
    split_ifs <;> simp [trainIn, leadIn, Event.train?]
  | finish tcp l c => rfl
  | crash tcp l hz => exact absurd hz hbn
  | send tcp l ht =>
    rw [List.filterMap_append, test_trains, sendOne_trains hbn]
    simp only [trainIn, leadIn]
    split_ifs <;> rfl
  | receive tcp l c₂ out c₃ ht =>
    obtain ⟨log, hlog, hrecv, -⟩ := receive_cases (test_eq_false ht).2.1 l c₂ out c₃
    rw [List.filterMap_append, test_trains, hrecv, List.filterMap_cons,
      filterMap_train fun e he => (hlog e he).train?]
    rfl

/-- The trains of a call are numbered from 0 on, and cover the packets sent. The call dies of its
last number. -/
def Numbered (ks : List ℤ) (s : Sender T) : Prop :=
  ∃ m : ℕ, ks = (List.range m).map Nat.cast ∧
    match s.phase with
    | .shaking _ _ _ | .connected _ => m = 0
    | .top l | .sending l => l.seqNum < 2 ^ 31 ∧ Counted s.tcp.bnTrain l.seqNum m
    | .dead => Counted s.tcp.bnTrain (2 ^ 31) m
    | .idle => True

theorem sendOne_numbered (hbn : 1 ≤ tcp.bnTrain) (h : Numbered ks ⟨tcp, .sending l⟩) :
    Numbered (ks ++ (trainIn ⟨tcp, .sending l⟩ .send).toList) (tcp.sendOne l).val := by
  obtain ⟨m, rfl, hfit, hm⟩ := h
  have hcount : ∃ m' : ℕ, (List.range m).map (Nat.cast : ℕ → ℤ) ++
      (trainIn ⟨tcp, .sending l⟩ .send).toList = (List.range m').map Nat.cast ∧
      Counted tcp.bnTrain (l.seqNum + 1) m' := by
    simp only [trainIn, leadIn]
    split_ifs with hlead
    · have hdvd := Int.dvd_of_tmod_eq_zero hlead
      have hidx : trainIndex l.seqNum tcp.bnTrain = m := by
        rw [trainIndex, hm.eq_of_dvd hbn hdvd, Int.mul_tdiv_cancel_left _ (by omega)]
      refine ⟨m + 1, ?_, hm.succ_of_dvd hbn hdvd⟩
      rw [List.range_succ, List.map_append, Option.map_some, hidx]
      rfl
    · refine ⟨m, by simp, hm.succ_of_not_dvd fun hdvd => hlead (Int.tmod_eq_zero_of_dvd hdvd)⟩
  obtain ⟨m', hks, hm'⟩ := hcount
  have hbn' : (tcp.sendOne l).val.tcp.bnTrain = tcp.bnTrain := sendOne_bnTrain
  refine ⟨m', hks, ?_⟩
  obtain ⟨tcp', -, ⟨hlt, hv⟩ | ⟨hlast, hv⟩⟩ := sendOne_cases (by omega : tcp.bnTrain ≠ 0) l
  · rw [hv] at hbn' ⊢
    simp only at hbn' ⊢
    rw [hbn']
    exact ⟨by omega, hm'⟩
  · have hend : l.seqNum + 1 = 2 ^ 31 := by omega
    rw [hv] at hbn' ⊢
    simp only at hbn' ⊢
    rwa [hbn', ← hend]

def addTrain (ks : List ℤ) (s : Sender T) (i : Input Recv) : List ℤ :=
  match i with
  | .sendData _ => []
  | _ => ks ++ (trainIn s i).toList

theorem nextTrains_eq (ht : Sender.machine.Takes tr) (hbn : tr.src.tcp.bnTrain ≠ 0) :
    nextTrains ks tr = addTrain ks tr.src tr.input := by
  have hlog : tr.out.filterMap Event.train? = (trainIn tr.src tr.input).toList :=
    move_trains (takes_move ht) hbn
  simp only [nextTrains, addTrain, hlog]

theorem move_numbered {r : Traced Event (Sender T)} (h : Move s i r) (hbn : 1 ≤ s.tcp.bnTrain)
    (hn : Numbered ks s) : Numbered (addTrain ks s i) r.val := by
  cases h with
  | sendData => exact ⟨0, rfl, rfl⟩
  | handshake tcp call buf lastSTs c out =>
    obtain ⟨m, rfl, rfl⟩ := hn
    refine ⟨0, rfl, ?_⟩
    simp only [shake, Traced.bind_val]
    split_ifs <;> trivial
  | start tcp call t₀ t₁ =>
    obtain ⟨m, rfl, rfl⟩ := hn
    have hpos : 0 < tcp.bnTrain := hbn
    exact ⟨0, rfl, by simp [start, Counted, hpos]⟩
  | enter tcp l c =>
    obtain ⟨m, rfl, hfit, hm⟩ := hn
    have hb : (tcp.giveUp { l with currTs := c }).val.bnTrain = tcp.bnTrain := giveUp_bnTrain
    exact ⟨m, List.append_nil _, hfit, hb ▸ hm⟩
  | finish tcp l c =>
    obtain ⟨m, rfl, -⟩ := hn
    exact ⟨m, List.append_nil _, trivial⟩
  | crash tcp l hz =>
    have hpos : 0 < tcp.bnTrain := hbn
    omega
  | send tcp l ht => exact sendOne_numbered hbn hn
  | receive tcp l c₂ out c₃ ht =>
    obtain ⟨m, rfl, hfit, hm⟩ := hn
    refine ⟨m, List.append_nil _, ?_⟩
    have hb : (tcp.snap l).bnTrain = tcp.bnTrain := snap_bnTrain
    have hm' : Counted (tcp.snap l).bnTrain l.seqNum m := hb ▸ hm
    obtain ⟨log, -, -, h | h | h⟩ := receive_cases (test_eq_false ht).2.1 l c₂ out c₃
    · obtain ⟨-, cong, -, hv⟩ := h
      rw [hv]
      exact ⟨hfit, hm'⟩
    · rw [h.2.2]
      exact ⟨hfit, hm'⟩
    · obtain ⟨-, -, cong, rateEst, -, hv⟩ := h
      rw [hv]
      exact ⟨hfit, hm'⟩

theorem numbered_run (hbn : 1 ≤ tcp.bnTrain) (hr : Sender.machine.Run ⟨tcp, .idle⟩ trs s) :
    Numbered (trains trs) s := by
  refine hr.along (I := fun trs s => Numbered (trains trs) s) (C := fun _ _ => True)
    (fun _ _ _ _ => trivial) ⟨0, rfl, trivial⟩ ?_
  intro pre tr hpre ht _ hn
  have hpos : 1 ≤ tr.src.tcp.bnTrain := by rwa [bnTrain_run hpre]
  rw [trains_concat, nextTrains_eq ht (by omega)]
  exact move_numbered (takes_move ht) hpos hn

theorem aligned_run (hbn : 1 ≤ tcp.bnTrain) (hkeep : KeepsWindow ⟨tcp, .idle⟩)
    (hr : Sender.machine.Run ⟨tcp, .idle⟩ trs s) : Aligned s := by
  refine hr.along (I := fun _ s => Aligned s) (C := fun _ _ => True) (fun _ _ _ _ => trivial)
    trivial ?_
  intro pre tr hpre ht _ hal
  have hpos : 1 ≤ tr.src.tcp.bnTrain := by rwa [bnTrain_run hpre]
  exact move_aligned (takes_move ht) hpos (hkeep pre tr hpre ht) hal

/-- What holds in an inner loop that has made some sends since `tcp₁`. -/
structure InnerLoop (tcp₁ : TcpTransport T) (sends : List (Action T)) (s : Sender T) : Prop where
  bnTrain : s.tcp.bnTrain = tcp₁.bnTrain
  edge : edge s.tcp = edge tcp₁
  below : ∀ h ∈ packets sends, (h.seqNum.toInt : ℚ) < TcpEyenet.edge tcp₁ + (tcp₁.bnTrain - 1)
  phase : (∃ l, s.phase = .sending l) ∨
    s.phase = .dead ∧ ∃ h ∈ packets sends, h.seqNum.toInt = 2 ^ 31 - 1

/-- How many packets the loop may still send. -/
def room (tcp₁ : TcpTransport T) (s : Sender T) : ℕ :=
  match s.phase with
  | .sending l => (⌈edge tcp₁⌉ + (tcp₁.bnTrain - 1) - l.seqNum).toNat
  | _ => 0

theorem createHeader_seqNum (call : Call) (c : Double) (hnn : 0 ≤ q) (hfit : q < 2 ^ 31) :
    (createHeader q call.fid call.sid c).seqNum.toInt = q :=
  Int32.toInt_ofInt_of_le (by omega) hfit

/-- A packet lies within a train past the window. -/
theorem seqNum_lt_edge (hbn : 1 ≤ tcp.bnTrain) (ht : (tcp.test l).val = some true)
    (hal : Aligned ⟨tcp, .sending l⟩) : (l.seqNum : ℚ) < edge tcp + (tcp.bnTrain - 1) := by
  have hlead := lead_lt_edge hbn ht hal.2.2
  have hlt := lt_lead_add hbn l.seqNum
  have hle : (l.seqNum : ℚ) ≤ lead tcp.bnTrain l.seqNum + (tcp.bnTrain - 1) := by
    exact_mod_cast (by omega : l.seqNum ≤ lead tcp.bnTrain l.seqNum + (tcp.bnTrain - 1))
  linarith

/-- The loop has room for the packet it sends, and less after it. -/
theorem InnerLoop.send {sends : List (Action T)} {r : Traced Event (Sender T)}
    (h : InnerLoop tcp₁ sends s) (hbn : 1 ≤ tcp₁.bnTrain) (hal : Aligned s)
    (hr : Sender.machine.step s .send = some r)
    (hkeep : Controller.cwnd r.val.tcp.cong = Controller.cwnd s.tcp.cong) :
    InnerLoop tcp₁ (sends ++ [⟨s, .send, r.log, r.val⟩]) r.val ∧
      room tcp₁ r.val < room tcp₁ s := by
  obtain ⟨hbn₁, hedge, hbelow, -⟩ := h
  cases step_move hr with
  | crash tcp l hz =>
    simp only at hbn₁
    omega
  | send tcp l ht =>
    simp only at hbn₁ hedge hkeep
    have hpos : 1 ≤ tcp.bnTrain := by rwa [hbn₁]
    have hlt := seqNum_lt_edge hpos ht hal
    obtain ⟨hnn, hfit, -⟩ := hal
    have hseq := createHeader_seqNum l.call l.currTs hnn hfit
    rw [hedge, hbn₁] at hlt
    have hroom : l.seqNum - (tcp₁.bnTrain - 1) < ⌈TcpEyenet.edge tcp₁⌉ := by
      rw [Int.lt_ceil]
      push_cast
      linarith
    have hpackets : packets (sends ++ [⟨⟨tcp, .sending l⟩, .send,
        (tcp.test l).log ++ (tcp.sendOne l).log, (tcp.sendOne l).val⟩]) =
        packets sends ++ [createHeader l.seqNum l.call.fid l.call.sid l.currTs] := by
      rw [packets_concat, sendOne_packets]
    have hbelow' : ∀ h ∈ packets sends ++ [createHeader l.seqNum l.call.fid l.call.sid l.currTs],
        (h.seqNum.toInt : ℚ) < TcpEyenet.edge tcp₁ + (tcp₁.bnTrain - 1) := by
      intro h hm
      rcases List.mem_append.mp hm with hm | hm
      · exact hbelow h hm
      · rwa [List.mem_singleton.mp hm, hseq]
    have hbn₂ : (tcp.sendOne l).val.tcp.bnTrain = tcp₁.bnTrain := sendOne_bnTrain.trans hbn₁
    have hedge₂ := (edge_sendOne hkeep).trans hedge
    obtain ⟨tcp', -, ⟨-, hv⟩ | ⟨hlast, hv⟩⟩ := sendOne_cases (by omega : tcp.bnTrain ≠ 0) l
    · refine ⟨⟨hbn₂, hedge₂, hpackets ▸ hbelow', .inl ⟨_, congrArg Sender.phase hv⟩⟩, ?_⟩
      simp only [room, hv]
      omega
    · have hdead : (tcp.sendOne l).val.phase = .dead := congrArg Sender.phase hv
      refine ⟨⟨hbn₂, hedge₂, hpackets ▸ hbelow', .inr ⟨hdead, ?_⟩⟩, ?_⟩
      · rw [hpackets]
        refine ⟨createHeader l.seqNum l.call.fid l.call.sid l.currTs, by simp, ?_⟩
        rw [hseq]
        omega
      · simp only [room, hv]
        omega

/-- The loop is over where no send is taken. -/
theorem test_of_refused (h : Sender.machine.step ⟨tcp, .sending l⟩ .send = none) :
    (tcp.test l).val = some false := by
  simp only [Sender.machine, Sender.step, trySend] at h
  split at h
  · simp at h
  · simp at h
  · assumption

theorem sendOne_cwnd {tcp : TcpTransport Eyenet} (hbn : tcp.bnTrain ≠ 0) (l : Locals) :
    (tcp.sendOne l).val.tcp.cong.cwnd = tcp.cong.cwnd := by
  rw [sendOne_cong hbn]
  split_ifs
  · exact (Eyenet.onPktSent_window (tcp.cong.setTs l.currTs.val) _).1
  · rfl

/-- The controller of the repository leaves its window alone when a train is sent. -/
theorem eyenet_keepsWindow (s : Sender Eyenet) : KeepsWindow s := by
  rintro trs ⟨src, i, out, dst⟩ - ht hi
  obtain rfl : i = .send := hi
  have hmove := takes_move ht
  generalize hr : (⟨dst, out⟩ : Traced Event (Sender Eyenet)) = r at hmove
  obtain rfl : dst = r.val := congrArg Traced.val hr
  cases hmove with
  | crash => rfl
  | send tcp l ht =>
    by_cases hbn : tcp.bnTrain = 0
    · exact congrArg (fun s => s.tcp.cong.cwnd) (sendOne_of_eq hbn)
    · exact sendOne_cwnd hbn l

/-- The locals of a sender in the inner loop. -/
def Sender.sending? (s : Sender T) : Option Locals :=
  match s.phase with
  | .sending l => some l
  | _ => none

omit [Controller T] in
theorem eq_sending (h : s.sending? = some l) : s = ⟨s.tcp, .sending l⟩ := by
  obtain ⟨tcp, phase⟩ := s
  cases phase with
  | sending l' =>
    obtain rfl : l' = l := Option.some.inj h
    rfl
  | _ => simp [Sender.sending?] at h

/-- A call up to its first inner loop. -/
def firstLoop : List (Input Recv) := firstWindow.take 4

theorem firstLoop_accepted : (Sender.machine.exec (freshSender 3) firstLoop).isSome := by
  decide +kernel

end TcpEyenet
