import TcpEyenet.Transport.Acks

/-! The headers acted upon, and where they come from. -/
namespace TcpEyenet

open TcpTransport

variable {T : Type} [Controller T] {tcp : TcpTransport T} {s : Sender T} {i : Input Recv}
  {trs : List (Action T)} {tr : Action T}

/-- The receive brought a whole header, and this is it. -/
def Recv.Brings (out : Recv) (h : PacketHeader) : Prop :=
  ∃ d, out = .datagram d ∧ hdrSz ≤ d.length ∧ h = PacketHeader.ofBytes d

def Recv.whole : Recv → Bool
  | .datagram d => hdrSz ≤ d.length
  | _ => false

theorem Recv.Brings.whole {out : Recv} {h : PacketHeader} (hb : out.Brings h) : out.whole := by
  obtain ⟨d, rfl, hd, -⟩ := hb
  exact decide_eq_true hd

theorem Recv.brings_of_whole {out : Recv} {b : Buf} (h : out.whole) :
    out.Brings (PacketHeader.read (recvData pktSz out b).val.buf) := by
  cases out with
  | datagram d =>
    have hd : hdrSz ≤ d.length := of_decide_eq_true h
    exact ⟨d, rfl, hd, read_recvData (by decide) hd⟩
  | _ => simp [Recv.whole] at h

/-- What an ack can change. -/
def progress (tcp : TcpTransport T) : ℚ × ℤ × ℤ × Int32 × ℚ :=
  (tcp.lastAckTs, tcp.largestAck, tcp.npkts, tcp.nbytes, tcp.delayAggr)

/-- A handshake ends, and an ack counts, only by a header received in that same iteration. -/
def HeaderBacked (tr : Action T) : Prop :=
  match tr.src.phase, tr.input with
  | .shaking _ _ _, .handshake _ out =>
    (∃ call, tr.dst.phase = .connected call) → ∃ h, out.Brings h ∧ h.isHello
  | .sending l, .recv _ out c₃ =>
    progress tr.dst.tcp = progress tr.src.tcp ∨
      ∃ h, out.Brings h ∧ l.call.accepts h ∧
        progress tr.dst.tcp = progress (tr.src.tcp.credited h c₃)
  | _, _ => True

/-- The receive brought no whole header, but it did not time out and what lies in the buffer
passes the test on headers. -/
def stale (s : Sender T) (i : Input Recv) : Bool :=
  match s.phase, i with
  | .shaking _ buf lastSTs, .handshake c out =>
    let r := (recvData pktSz out (greet buf lastSTs c).val.1).val
    r.rc ≠ 0 ∧ ¬ out.whole ∧ (PacketHeader.read r.buf).isHello
  | .sending l, .recv _ out _ =>
    let r := (recvData pktSz out l.buf).val
    r.rc ≠ 0 ∧ ¬ out.whole ∧ l.call.accepts (PacketHeader.read r.buf)
  | _, _ => false

omit [Controller T] in
theorem shake_connected {call : Call} {buf : Buf} {lastSTs : ℚ} {c : Double} {out : Recv} :
    (∃ call', (tcp.shake call buf lastSTs c out).val.phase = .connected call') ↔
      (recvData pktSz out (greet buf lastSTs c).val.1).val.rc ≠ 0 ∧
        (PacketHeader.read (recvData pktSz out (greet buf lastSTs c).val.1).val.buf).isHello := by
  simp only [shake, Traced.bind_val]
  split_ifs with hpass
  · exact iff_of_true ⟨call, rfl⟩ hpass
  · refine iff_of_false ?_ hpass
    rintro ⟨call', hphase⟩
    simp at hphase

omit [Controller T] in
theorem shake_backed {call : Call} {buf : Buf} {lastSTs : ℚ} {c : Double} {out : Recv} :
    ((∃ call', (tcp.shake call buf lastSTs c out).val.phase = .connected call') →
      ∃ h, out.Brings h ∧ h.isHello) ↔
    stale ⟨tcp, .shaking call buf lastSTs⟩ (.handshake c out) = false := by
  rw [shake_connected]
  simp only [stale, decide_eq_false_iff_not]
  constructor
  · rintro hback ⟨hrc, hwhole, hhello⟩
    obtain ⟨h, hb, -⟩ := hback ⟨hrc, hhello⟩
    exact hwhole hb.whole
  · rintro hstale ⟨hrc, hhello⟩
    have hwhole : out.whole := by
      by_contra hwhole
      exact hstale ⟨hrc, hwhole, hhello⟩
    exact ⟨_, Recv.brings_of_whole hwhole, hhello⟩

@[simp] theorem progress_snap {l : Locals} : progress (tcp.snap l) = progress tcp := by
  obtain ⟨ts, h⟩ := snap_eq tcp l
  rw [h]
  rfl

theorem progress_credited_snap {l : Locals} {h : PacketHeader} {c : Double} :
    progress ((tcp.snap l).credited h c) = progress (tcp.credited h c) := by
  obtain ⟨ts, h⟩ := snap_eq tcp l
  rw [h]
  rfl

omit [Controller T] in
/-- An accepted ack is never without effect. -/
theorem progress_credited_ne {h : PacketHeader} {c : Double} :
    progress (tcp.credited h c) ≠ progress tcp := by
  intro heq
  have hnpkts : tcp.npkts + 1 = tcp.npkts := congrArg (fun p => p.2.2.1) heq
  omega

theorem receive_backed {l : Locals} {c₂ c₃ : Double} {out : Recv} (hbn : tcp.bnTrain ≠ 0) :
    (progress (tcp.receive l c₂ out c₃).val.tcp = progress tcp ∨
      ∃ h, out.Brings h ∧ l.call.accepts h ∧
        progress (tcp.receive l c₂ out c₃).val.tcp = progress (tcp.credited h c₃)) ↔
    stale ⟨tcp, .sending l⟩ (.recv c₂ out c₃) = false := by
  simp only [stale, decide_eq_false_iff_not]
  obtain ⟨log, -, -, hv | hv | hv⟩ := receive_cases hbn l c₂ out c₃
  · obtain ⟨hrc, cong, -, hv⟩ := hv
    rw [hv]
    exact iff_of_true (.inl progress_snap) fun hst => hst.1 hrc
  · obtain ⟨-, hacc, hv⟩ := hv
    rw [hv]
    exact iff_of_true (.inl progress_snap) fun hst => by simp [hacc] at hst
  · obtain ⟨hrc, hacc, cong, rateEst, -, hv⟩ := hv
    have hprog : progress (tcp.receive l c₂ out c₃).val.tcp = progress (tcp.credited
        (PacketHeader.read (recvData pktSz out l.buf).val.buf) c₃) := by
      rw [hv, ← progress_credited_snap]
      rfl
    rw [hprog]
    constructor
    · rintro (hsame | ⟨h, hb, -⟩) ⟨-, hwhole, -⟩
      · exact progress_credited_ne hsame
      · exact hwhole hb.whole
    · intro hstale
      have hwhole : out.whole := by
        by_contra hwhole
        exact hstale ⟨hrc, hwhole, hacc⟩
      exact .inr ⟨_, Recv.brings_of_whole hwhole, hacc, rfl⟩

theorem headerBacked_iff (ht : Move tr.src tr.input ⟨tr.dst, tr.out⟩) :
    HeaderBacked tr ↔ stale tr.src tr.input = false := by
  obtain ⟨src, i, out, dst⟩ := tr
  generalize hr : (⟨dst, out⟩ : Traced Event (Sender T)) = r at ht
  obtain rfl : dst = r.val := congrArg Traced.val hr
  cases ht with
  | handshake => exact shake_backed
  | receive tcp l c₂ out c₃ ht => exact receive_backed (test_eq_false ht).2.1
  | _ => exact iff_of_true trivial rfl

/-- Progress is backed by received headers in just the runs where nothing stale passes. -/
theorem headers_backed_iff (hr : Sender.machine.Run ⟨tcp, .idle⟩ trs s) :
    (∀ tr ∈ trs, HeaderBacked tr) ↔ ∀ tr ∈ trs, stale tr.src tr.input = false :=
  forall₂_congr fun _ hm => headerBacked_iff (takes_move (hr.takes hm))

/-- An error of the receive. -/
def Recv.isError : Recv → Bool
  | .pollError | .recvError => true
  | _ => false

/-- The header that a receive leaves in the buffer, unless it leaves only a part of one. -/
def Recv.leaves (out : Recv) (h : Option PacketHeader) : Option PacketHeader :=
  match out with
  | .datagram d => if hdrSz ≤ d.length then some (PacketHeader.ofBytes d) else none
  | _ => h

/-- The header in the buffer after one more step. -/
def nextHeader (h : Option PacketHeader) (s : Sender T) (i : Input Recv) : Option PacketHeader :=
  match s.phase, i with
  | .shaking _ _ lastSTs, .handshake c out =>
    out.leaves (if lastSTs < c.val - 200 then some hello else h)
  | .sending l, .send => some (createHeader l.seqNum l.call.fid l.call.sid l.currTs)
  | .sending _, .recv _ out _ => out.leaves h
  | .top _, _ => h
  | _, _ => none

/-- The header that the buffer was given last as a whole: a greeting, that of a packet, or that of
a datagram. -/
def lastHeader (trs : List (Action T)) : Option PacketHeader :=
  trs.foldl (fun h tr => nextHeader h tr.src tr.input) none

/-- The buffer of the sender holds the header. -/
def Holds (h : Option PacketHeader) (s : Sender T) : Prop :=
  match s.phase with
  | .shaking _ buf _ => ∀ x ∈ h, PacketHeader.read buf = x
  | .top l | .sending l => ∀ x ∈ h, PacketHeader.read l.buf = x
  | _ => True

/-- A greeting that goes out stays in the buffer. -/
theorem read_greet {buf : Buf} {lastSTs : ℚ} {c : Double} (h : lastSTs < c.val - 200) :
    PacketHeader.read (greet buf lastSTs c).val.1 = hello := by
  simp only [greet, if_pos h]
  exact PacketHeader.ofBytes_load_store hello buf le_rfl

theorem greet_of_not_due {buf : Buf} {lastSTs : ℚ} {c : Double} (h : ¬ lastSTs < c.val - 200) :
    (greet buf lastSTs c).val.1 = buf := by
  simp only [greet, if_neg h]
  rfl

/-- So does the header of a packet. -/
theorem read_stamped (l : Locals) : PacketHeader.read (stamped l) =
    createHeader l.seqNum l.call.fid l.call.sid l.currTs :=
  PacketHeader.ofBytes_load_store _ l.buf le_rfl

/-- A receive without a datagram leaves the buffer as it is, one with a header puts that in. -/
theorem read_leaves {out : Recv} {buf : Buf} {h : Option PacketHeader}
    (hbuf : ∀ x ∈ h, PacketHeader.read buf = x) :
    ∀ x ∈ out.leaves h, PacketHeader.read (recvData pktSz out buf).val.buf = x := by
  cases out with
  | datagram d =>
    simp only [Recv.leaves]
    split_ifs with hlen
    · rintro x ⟨⟩
      exact read_recvData (by decide) hlen
    · simp
  | _ => exact hbuf

theorem move_holds {h : Option PacketHeader} {r : Traced Event (Sender T)} (hm : Move s i r)
    (hh : Holds h s) : Holds (nextHeader h s i) r.val := by
  cases hm with
  | sendData => simp [Holds, nextHeader]
  | handshake tcp call buf lastSTs c out =>
    have hgreet : ∀ x ∈ (if lastSTs < c.val - 200 then some hello else h),
        PacketHeader.read (greet buf lastSTs c).val.1 = x := by
      split_ifs with hdue
      · rintro x ⟨⟩
        exact read_greet hdue
      · rw [greet_of_not_due hdue]
        exact hh
    simp only [shake, Traced.bind_val]
    split_ifs
    · trivial
    · exact read_leaves hgreet
  | start => simp [Holds, nextHeader, start]
  | enter tcp l c => exact hh
  | finish => trivial
  | crash => trivial
  | send tcp l ht =>
    by_cases hbn : tcp.bnTrain = 0
    · rw [sendOne_of_eq hbn]
      trivial
    · rw [sendOne_of_ne hbn, advance]
      split_ifs
      · rintro x ⟨⟩
        exact read_stamped l
      · trivial
  | receive tcp l c₂ out c₃ ht =>
    have hread : ∀ x ∈ out.leaves h, PacketHeader.read (recvData pktSz out l.buf).val.buf = x :=
      read_leaves hh
    obtain ⟨log, -, -, hv | hv | hv⟩ := receive_cases (test_eq_false ht).2.1 l c₂ out c₃
    · obtain ⟨-, cong, -, hv⟩ := hv
      rw [hv]
      exact hread
    · rw [hv.2.2]
      exact hread
    · obtain ⟨-, -, cong, rateEst, -, hv⟩ := hv
      rw [hv]
      exact hread

theorem holds_run (hr : Sender.machine.Run ⟨tcp, .idle⟩ trs s) : Holds (lastHeader trs) s :=
  hr.history (I := fun trs s => Holds (lastHeader trs) s) (C := fun _ => True) (by simp) trivial
    fun trs tr ht _ h => by
      rw [lastHeader, List.foldl_append]
      exact move_holds (takes_move ht) h

theorem recvData_error {out : Recv} (he : out.isError) (sz : ℕ) (buf : Buf) :
    (recvData sz out buf).val = ⟨-1, buf⟩ ∧ ¬ out.whole := by
  cases out with
  | pollError | recvError => exact ⟨rfl, by simp [Recv.whole]⟩
  | _ => simp [Recv.isError] at he

omit [Controller T] in
/-- An error of a receive is taken for an answer where a greeting has just gone out, or the buffer
holds one. -/
theorem stale_shaking {call : Call} {buf : Buf} {lastSTs : ℚ} {c : Double} {out : Recv}
    (he : out.isError) : stale ⟨tcp, .shaking call buf lastSTs⟩ (.handshake c out) ↔
      lastSTs < c.val - 200 ∨ (PacketHeader.read buf).isHello := by
  obtain ⟨hrecv, hwhole⟩ := recvData_error he pktSz (greet buf lastSTs c).val.1
  simp only [stale, decide_eq_true_eq, hrecv]
  by_cases hdue : lastSTs < c.val - 200
  · rw [read_greet hdue]
    exact iff_of_true ⟨by decide, hwhole, rfl⟩ (.inl hdue)
  · rw [greet_of_not_due hdue]
    exact ⟨fun h => .inr h.2.2, fun h => ⟨by decide, hwhole, h.resolve_left hdue⟩⟩

omit [Controller T] in
/-- In the loop it is taken for an ack where the header in the buffer is one of the flow, as that
of the last packet is. -/
theorem stale_sending {l : Locals} {c₂ c₃ : Double} {out : Recv} (he : out.isError) :
    stale ⟨tcp, .sending l⟩ (.recv c₂ out c₃) ↔ l.call.accepts (PacketHeader.read l.buf) := by
  obtain ⟨hrecv, hwhole⟩ := recvData_error he pktSz l.buf
  simp only [stale, decide_eq_true_eq, hrecv]
  exact ⟨fun h => h.2.2, fun h => ⟨by decide, hwhole, h⟩⟩

/-- So an error right after a packet is taken for its ack. -/
theorem sent_stale {l : Locals} {c₂ c₃ : Double} {out : Recv} {r : Traced Event (Sender T)}
    (hm : Move s .send r) (hphase : r.val.phase = .sending l) (he : out.isError) :
    stale r.val (.recv c₂ out c₃) := by
  cases hm with
  | crash => simp at hphase
  | send tcp l₀ ht =>
    by_cases hbn : tcp.bnTrain = 0
    · simp [sendOne_of_eq hbn] at hphase
    · simp only [sendOne_of_ne hbn, advance] at hphase ⊢
      split_ifs at hphase ⊢
      rw [stale_sending he, read_stamped]
      simp [Call.accepts, createHeader]

/-- By the run: an error counts as an ack just where the last whole header to come into the buffer
is one of the flow. -/
theorem stale_run {l : Locals} {h : PacketHeader} {c₂ c₃ : Double} {out : Recv}
    (hr : Sender.machine.Run ⟨tcp, .idle⟩ trs s) (hphase : s.phase = .sending l)
    (hlast : lastHeader trs = some h) (he : out.isError) :
    stale s (.recv c₂ out c₃) ↔ l.call.accepts h := by
  have hholds := holds_run hr
  obtain ⟨tcp', phase⟩ := s
  obtain rfl : phase = .sending l := hphase
  rw [stale_sending he, hholds h hlast]

/-- The first receive of a handshake fails. -/
def failedReceive : List (Input Recv) := [.sendData ⟨5000, false, 1, 7⟩, .handshake ⟨0⟩ .pollError]

theorem failedReceive_accepted :
    (Sender.machine.exec (freshSender 1) failedReceive).isSome := by
  decide +kernel

/-- The greeting still in the buffer passes for its own echo, and the handshake is over. -/
theorem handshake_unanswered :
    ∃ trs s, Sender.machine.Run (freshSender 1) trs s ∧ ∃ tr ∈ trs, ¬ HeaderBacked tr := by
  have hr := Machine.exec_get_run failedReceive_accepted
  have hstale : ∃ tr ∈ (Option.get _ failedReceive_accepted).1, stale tr.src tr.input = true := by
    decide +kernel
  obtain ⟨tr, hm, hst⟩ := hstale
  refine ⟨_, _, hr, tr, hm, ?_⟩
  rw [headerBacked_iff (takes_move (hr.takes hm)), hst]
  decide

theorem headers_backed_iff_failedReceive :
    ∃ trs s, Sender.machine.Run (freshSender 1) trs s ∧
      ((∀ tr ∈ trs, HeaderBacked tr) ↔ ∀ tr ∈ trs, stale tr.src tr.input = false) :=
  ⟨_, _, Machine.exec_get_run failedReceive_accepted,
    headers_backed_iff (Machine.exec_get_run failedReceive_accepted)⟩

end TcpEyenet
