import TcpEyenet.EndToEnd.Model

/-! Where the sender stands in a cycle, and what it has sent in it. -/
namespace TcpEyenet

open TcpTransport PacketHeader

/-- In the loop of `send_data`: all that was sent is below `seq_num` and not from the future. -/
structure Looping {T : Type} (c : Cycle) (tcp : TcpTransport T) (l : Locals) : Prop where
  call : c.call = l.call
  clock : l.currTs.val ∈ c.readings
  seqNum_nonneg : 0 ≤ l.seqNum
  seqNum_lt : l.seqNum < 2 ^ 31
  largestAck : tcp.largestAck ≤ l.seqNum
  packets : ∀ p ∈ c.packets, 0 ≤ p.header.seqNum.toInt ∧ p.header.seqNum.toInt < l.seqNum ∧
    p.header.sendTs.val ≤ l.currTs.val

/-- Where the sender stands in its latest cycle. -/
inductive Stands {T : Type} (c : Cycle) : Sender T → Prop
  | idle (tcp : TcpTransport T) : Stands c ⟨tcp, .idle⟩
  | dead (tcp : TcpTransport T) : Stands c ⟨tcp, .dead⟩
  | shaking {tcp : TcpTransport T} (buf : Buf) (lastSTs : ℚ) (hp : c.packets = [])
      (ha : tcp.largestAck = -1) : Stands c ⟨tcp, .shaking c.call buf lastSTs⟩
  | connected {tcp : TcpTransport T} (hp : c.packets = []) (ha : tcp.largestAck = -1) :
      Stands c ⟨tcp, .connected c.call⟩
  | top {tcp : TcpTransport T} {l : Locals} (h : Looping c tcp l) : Stands c ⟨tcp, .top l⟩
  | sending {tcp : TcpTransport T} {l : Locals} (h : Looping c tcp l) : Stands c ⟨tcp, .sending l⟩

variable {T : Type} [Controller T] {s : Sender T} {i : Input Recv} {r : Traced Event (Sender T)}
  {c : Cycle} {tcp tcp' : TcpTransport T} {l l' : Locals} {rs : List ℚ}

omit [Controller T] in
/-- Nothing was sent since, and the clock shows one of the new readings. -/
theorem Looping.later (h : Looping c tcp l) (hs : (c.readings ++ rs).Pairwise (· ≤ ·))
    (hcall : l'.call = l.call) (hseq : l'.seqNum = l.seqNum) (hts : l'.currTs.val ∈ rs)
    (hack : tcp'.largestAck ≤ l.seqNum) : Looping (c.extend rs []) tcp' l' := by
  have hle : l.currTs.val ≤ l'.currTs.val := (List.pairwise_append.mp hs).2.2 _ h.clock _ hts
  refine ⟨h.call.trans hcall.symm, List.mem_append_right _ hts, hseq ▸ h.seqNum_nonneg,
    hseq ▸ h.seqNum_lt, hseq ▸ hack, ?_⟩
  simp only [Cycle.extend, List.append_nil, hseq]
  exact fun p hp => ⟨(h.packets p hp).1, (h.packets p hp).2.1, (h.packets p hp).2.2.trans hle⟩

omit [Controller T] in
/-- A packet went out. -/
theorem Looping.sent (h : Looping c tcp l) (hlt : l.seqNum < 2 ^ 31 - 1)
    (hack : tcp'.largestAck = tcp.largestAck) (n : ℕ) (buf : Buf) :
    Looping (c.extend [] [⟨n, createHeader l.seqNum l.call.fid l.call.sid l.currTs⟩]) tcp'
      { l with buf := buf, seqNum := l.seqNum + 1 } := by
  have hnn := h.seqNum_nonneg
  have hseq : (Int32.ofInt l.seqNum).toInt = l.seqNum :=
    Int32.toInt_ofInt_of_le (by omega) (by omega)
  have hla := h.largestAck
  refine ⟨h.call, by simpa [Cycle.extend] using h.clock, by simp; omega, by simp; omega,
    by simp; omega, ?_⟩
  intro p hp
  rcases List.mem_append.mp hp with hp | hp
  · obtain ⟨h₀, h₁, h₂⟩ := h.packets p hp
    exact ⟨h₀, by simp; omega, h₂⟩
  · obtain rfl := List.mem_singleton.mp hp
    simp only [createHeader, hseq]
    exact ⟨hnn, by simp, le_rfl⟩

/-- A send leaves the sender in the loop, unless it divides by zero or overflows. -/
theorem Looping.sendOne_stands (h : Looping c tcp l) (n : ℕ) :
    Stands (c.extend [] [⟨n, createHeader l.seqNum l.call.fid l.call.sid l.currTs⟩])
      (tcp.sendOne l).val := by
  by_cases hbn : tcp.bnTrain = 0
  · rw [sendOne_of_eq hbn]
    exact .dead _
  · rw [sendOne_of_ne hbn]
    simp only [advance]
    split_ifs with hlt
    · have hack : (tcp.spend.record { l with buf := stamped l }).val.largestAck =
          tcp.largestAck := record_largestAck
      exact .sending (h.sent hlt hack n _)
    · exact .dead _

/-- A receive goes back to the top of the loop, as an ack for a packet sent before cannot raise
`largest_ack` to `seq_num`. -/
theorem Looping.receive_stands (h : Looping c tcp l) (hbn : tcp.bnTrain ≠ 0)
    {c₂ c₃ : Double} {out : Recv}
    (hfwd : (c.readings ++ [c₂.val, c₃.val]).Pairwise (· ≤ ·))
    (hack : (recvData pktSz out l.buf).val.rc ≠ 0 →
      l.call.accepts (PacketHeader.read (recvData pktSz out l.buf).val.buf) = true →
      (PacketHeader.read (recvData pktSz out l.buf).val.buf).seqNum.toInt < l.seqNum) :
    Stands (c.extend [c₂.val, c₃.val] []) (tcp.receive l c₂ out c₃).val := by
  have hla := h.largestAck
  obtain ⟨log, -, -, hv | hv | hv⟩ := receive_cases hbn l c₂ out c₃
  · obtain ⟨-, cong, -, hv⟩ := hv
    rw [hv]
    exact .top (h.later hfwd rfl rfl (by simp) (by simpa using hla))
  · rw [hv.2.2]
    exact .top (h.later hfwd rfl rfl (by simp) (by simpa using hla))
  · obtain ⟨hrc, hacc, cong, rateEst, -, hv⟩ := hv
    have hlt := hack hrc hacc
    rw [hv]
    refine .top (h.later hfwd rfl rfl (by simp) ?_)
    simp only [setCong_largestAck, credited_largestAck, snap_largestAck]
    omega

theorem packetIn_eq_some {hdr : PacketHeader} (h : packetIn s i = some hdr) :
    ∃ l, s.phase = .sending l ∧ hdr = createHeader l.seqNum l.call.fid l.call.sid l.currTs := by
  unfold packetIn at h
  split at h
  · rename_i l hphase
    split_ifs at h
    exact ⟨l, hphase, (Option.some.inj h).symm⟩
  · simp at h

/-- One step within a cycle, in which every ack accepted is for a packet sent before. -/
theorem move_stands (h : Move s i r) (hcall : ∀ call, i ≠ .sendData call) (hs : Stands c s)
    (hfwd : (c.readings ++ i.readings).Pairwise (· ≤ ·))
    (hack : ∀ l, s.phase = .sending l → ∀ h ∈ ackIn s i, h.seqNum.toInt < l.seqNum) (n : ℕ) :
    Stands (c.extend i.readings ((packetIn s i).toList.map (Posted.mk n))) r.val := by
  cases h with
  | sendData tcp call => exact absurd rfl (hcall call)
  | handshake tcp call buf lastSTs c₁ out =>
    cases hs with
    | shaking _ _ hp ha =>
      have hp' : (c.extend [] []).packets = [] := by simp [Cycle.extend, hp]
      simp only [shake, Traced.bind_val, packetIn]
      split_ifs
      · exact .connected hp' ha
      · exact .shaking _ _ hp' ha
  | start tcp call t₀ t₁ =>
    cases hs with
    | connected hp ha =>
      refine .top ⟨rfl, by simp [Input.readings, Cycle.extend], le_rfl, by simp, ?_, ?_⟩
      · have hneg : (-1 : ℤ) ≤ 0 := by decide
        exact ha.le.trans hneg
      · simp [Cycle.extend, packetIn, hp]
  | enter tcp l c₁ =>
    cases hs with
    | top hl =>
      refine .sending (hl.later hfwd rfl rfl (by simp [Input.readings]) ?_)
      have hla := hl.largestAck
      rw [giveUp_largestAck]
      split_ifs
      · exact (sub_one_lt l.seqNum).le
      · exact hla
  | finish tcp l c₁ => exact .idle _
  | crash tcp l => exact .dead _
  | send tcp l ht =>
    cases hs with
    | sending hl =>
      have hp : packetIn (⟨tcp, .sending l⟩ : Sender T) (.send : Input Recv) =
          some (createHeader l.seqNum l.call.fid l.call.sid l.currTs) := if_pos ht
      rw [hp]
      exact hl.sendOne_stands n
  | receive tcp l c₂ out c₃ ht =>
    cases hs with
    | sending hl =>
      exact hl.receive_stands (test_eq_false ht).2.1 hfwd fun hrc hacc =>
        hack l rfl _ (if_pos ⟨hrc, hacc⟩)

theorem move_idle (h : Move s i r) (hp : s.phase = .idle) : ∃ call, i = .sendData call := by
  cases h with
  | sendData tcp call => exact ⟨call, rfl⟩
  | _ => simp at hp

def Phase.isIdle : Phase → Bool
  | .idle => true
  | _ => false

theorem Phase.isIdle_iff {p : Phase} : p.isIdle = true ↔ p = .idle := by
  cases p <;> simp [isIdle]

/-- `seq_num`, while it exists. -/
def Phase.seqNum : Phase → Option ℤ
  | .shaking _ _ _ | .connected _ => some 0
  | .top l | .sending l => some l.seqNum
  | .idle | .dead => none

omit [Controller T] in
theorem Stands.largestAck (h : Stands c s) : ∀ n ∈ s.phase.seqNum, s.tcp.largestAck ≤ n := by
  cases h with
  | idle | dead => simp [Phase.seqNum]
  | shaking _ _ _ ha | connected _ ha => simp [Phase.seqNum, ha]
  | top hl | sending hl => simpa [Phase.seqNum] using hl.largestAck

end TcpEyenet
