import TcpEyenet.Args
import TcpEyenet.Transport.Throughput

/-! The divisors of `send_data`. -/
namespace TcpEyenet

open TcpTransport

variable {T : Type} [Controller T] {tcp : TcpTransport T} {s : Sender T} {i : Input Recv}
  {trs pre post : List (Action T)} {tr : Action T} {l : Locals} {h : PacketHeader}
  {c₂ c₃ : Double} {out : Recv} {cong : T} {bn : ℤ} {d gap rateEst : ℚ} {gs : List ℚ}

/-- Not a division by 0. -/
def Event.Whole : Event → Prop
  | .divisor d => d ≠ 0
  | _ => True

def Divides (log : List Event) : Prop := ∀ e ∈ log, e.Whole

@[simp] theorem divides_nil : Divides [] := by simp [Divides]

@[simp] theorem divides_append {log log' : List Event} :
    Divides (log ++ log') ↔ Divides log ∧ Divides log' := List.forall_mem_append

@[simp] theorem divides_cons {e : Event} {log : List Event} :
    Divides (e :: log) ↔ e.Whole ∧ Divides log := List.forall_mem_cons

/-- What the state before a step must meet, with trains of `bnTrain` packets: no train is empty
where packets go out, an ack that is far enough along does not bring the estimate of the rate to
0, and a call ends with counters that are not 0. -/
def Safe (bnTrain : ℤ) (s : Sender T) (i : Input Recv) : Prop :=
  match s.phase, i with
  | .sending _, .send => bnTrain ≠ 0
  | .sending l, .recv _ _ c₃ => ∀ h ∈ ackIn s i, h.seqNum.toInt ≠ 0 → s.tcp.lastRTs ≠ 0 →
      h.seqNum.toInt + 1 > 2 * bnTrain → smoothRate l.rateEst (c₃.val - s.tcp.lastRTs) ≠ 0
  | .top l, .top c => s.tcp.switchSz l < l.call.fsz ∨
      s.tcp.transTimeAggr + c.val ≠ 0 ∧ s.tcp.npkts ≠ 0
  | _, _ => True

/-- The reading at which the last ack was accepted, 0 before the first, and the gaps between such
readings that the latest call has taken into the estimate of its rate. -/
structure AckTimes where
  last : ℚ
  gaps : List ℚ

def AckTimes.after (a : AckTimes) (s : Sender T) (i : Input Recv) : AckTimes :=
  match i with
  | .sendData _ => { a with gaps := [] }
  | .recv _ _ c₃ =>
    (ackIn s i).elim a fun h =>
      { last := c₃.val
        gaps := if h.seqNum.toInt ≠ 0 ∧ a.last ≠ 0 then a.gaps ++ [c₃.val - a.last] else a.gaps }
  | _ => a

def ackTimes (trs : List (Action T)) : AckTimes :=
  trs.foldl (fun a tr => a.after tr.src tr.input) ⟨0, []⟩

/-- The step ends a call. -/
def Ends (s : Sender T) (i : Input Recv) : Prop :=
  ∃ l c, s.phase = .top l ∧ i = .top c ∧ ¬ s.tcp.switchSz l < l.call.fsz

/-- What a step must meet, by the acks and the readings up to it: the trains are not empty where
the loop comes to a packet; where an ack later than the second train takes a gap into the
estimate, the gaps of the call do not smooth out to 0; and where a call ends, an ack has been
accepted and the calls have not taken 0 ms in all. -/
structure Sound (bnTrain : ℤ) (pre : List (Action T)) (tr : Action T) : Prop where
  send : tr.input = .send → bnTrain ≠ 0
  ack : ∀ h ∈ ackIn tr.src tr.input, h.seqNum.toInt ≠ 0 → (ackTimes pre).last ≠ 0 →
    h.seqNum.toInt + 1 > 2 * bnTrain → (ackTimes (pre ++ [tr])).gaps.foldl smoothRate 0 ≠ 0
  ends : Ends tr.src tr.input → acked pre ≠ 0 ∧ elapsed (pre ++ [tr]) ≠ 0

omit [Controller T] in
@[simp] theorem ackTimes_concat :
    ackTimes (trs ++ [tr]) = (ackTimes trs).after tr.src tr.input := by
  simp [ackTimes]

theorem test_log_eq (tcp : TcpTransport T) (l : Locals) : (tcp.test l).log =
    if tcp.windowOpen l then [] else [.divisor tcp.bnTrain] := by
  unfold test
  split_ifs <;> rfl

theorem test_divides (hbn : tcp.bnTrain ≠ 0) (l : Locals) : Divides (tcp.test l).log := by
  rw [test_log_eq]
  split_ifs <;> simp [Event.Whole, hbn]

theorem record_divides (hbn : tcp.bnTrain ≠ 0) (l : Locals) : Divides (tcp.record l).log := by
  unfold record
  split_ifs <;> simp [Event.Whole, hbn]

theorem sendOne_divides : Divides (tcp.sendOne l).log ↔ tcp.bnTrain ≠ 0 := by
  by_cases hbn : tcp.bnTrain = 0
  · simp [sendOne, rem, hbn, Event.Whole]
  · have hspend : tcp.spend.bnTrain ≠ 0 := hbn
    simp [sendOne_log_of_ne hbn, record_divides hspend l, Event.Whole, hbn]

/-- The test fails on an empty train, or its packet does. -/
theorem trySend_divides {r : Traced Event (Sender T)} (h : tcp.trySend l = some r) :
    Divides r.log ↔ tcp.bnTrain ≠ 0 := by
  simp only [trySend] at h
  split at h
  · rename_i ht
    obtain rfl := Option.some.inj h
    have hbn := test_eq_none ht
    have hclosed : ¬ tcp.windowOpen l = true := by
      intro hopen
      rw [test, if_pos hopen] at ht
      simp at ht
    simp [test_log_eq, hclosed, hbn, Event.Whole]
  · obtain rfl := Option.some.inj h
    rw [divides_append, sendOne_divides]
    exact ⟨fun h => h.2, fun hbn => ⟨test_divides hbn l, hbn⟩⟩
  · simp at h

theorem estimateRate_divides {seq : ℤ} : Divides (tcp.estimateRate l seq).log ↔
    (seq * tcp.bnTrain ≠ 0 → tcp.lastRTs ≠ 0 → seq + 1 > 2 * tcp.bnTrain →
      smoothRate l.rateEst (l.currTs.val - tcp.lastRTs) ≠ 0) := by
  simp only [estimateRate]
  split_ifs with hfirst hfar
  · simp only [Traced.bind_log, Traced.report_log, Traced.pure_log, divides_append, divides_cons,
      divides_nil, Event.Whole, and_true]
    exact ⟨fun h _ _ _ => h, fun h => h hfirst.1 hfirst.2 hfar⟩
  · simp [hfar]
  · simp only [Traced.pure_log, divides_nil, true_iff]
    intro hseq hlast
    exact absurd ⟨hseq, hlast⟩ hfirst

omit [Controller T] in
theorem mem_ackIn :
    h ∈ ackIn ⟨tcp, .sending l⟩ (.recv c₂ out c₃) ↔
      ((recvData pktSz out l.buf).val.rc ≠ 0 ∧
        l.call.accepts (PacketHeader.read (recvData pktSz out l.buf).val.buf)) ∧
      h = PacketHeader.read (recvData pktSz out l.buf).val.buf := by
  simp only [ackIn]
  split_ifs with hif
  · simp [hif, eq_comm]
  · simp [hif]

/-- Only the estimate of the rate divides in a receive. -/
theorem receive_divides (hbn : tcp.bnTrain ≠ 0) :
    Divides (tcp.receive l c₂ out c₃).log ↔
      Safe tcp.bnTrain ⟨tcp, .sending l⟩ (.recv c₂ out c₃) := by
  have hsnap : (tcp.snap l).bnTrain = tcp.bnTrain := snap_bnTrain
  have hlast : (tcp.snap l).lastRTs = tcp.lastRTs := by
    obtain ⟨ts, h⟩ := snap_eq tcp l
    rw [h]
  have hbn' : (tcp.snap l).bnTrain ≠ 0 := by rwa [hsnap]
  simp only [Safe, mem_ackIn, receive, Traced.bind_log, Traced.report_log, divides_append,
    divides_cons, divides_nil, Event.Whole, true_and]
  by_cases hrc : (recvData pktSz out l.buf).val.rc = 0
  · refine iff_of_true ?_ (fun h hm => absurd hrc hm.1.1)
    simp only [hrc, if_true, idleTick]
    split_ifs <;> simp [Event.Whole]
  · simp only [hrc, if_false, not_false_eq_true, ne_eq, true_and]
    by_cases hacc : l.call.accepts (PacketHeader.read (recvData pktSz out l.buf).val.buf) = true
    · obtain ⟨cong, rateEst, -, heq⟩ := accept_eq hbn'
        { l with buf := (recvData pktSz out l.buf).val.buf, currTs := c₃ }
        (PacketHeader.read (recvData pktSz out l.buf).val.buf)
      simp only [hacc, if_true, heq, true_and, forall_eq, estimateRate_divides]
      simp only [heard, hsnap, hlast, ne_eq, mul_eq_zero, hbn, or_false]
    · simp [hacc]

theorem takes_divides (ht : Sender.machine.Takes tr) :
    Divides tr.out ↔ Safe tr.src.tcp.bnTrain tr.src tr.input := by
  by_cases hsend : ∃ l, tr.src.phase = .sending l ∧ tr.input = .send
  · obtain ⟨⟨tcp, phase⟩, i, out, dst⟩ := tr
    obtain ⟨l, hphase, hi⟩ := hsend
    obtain rfl : phase = .sending l := hphase
    obtain rfl : i = .send := hi
    exact trySend_divides ht
  · have hmove := takes_move ht
    obtain ⟨src, i, out, dst⟩ := tr
    simp only at hmove hsend ⊢
    generalize hr : (⟨dst, out⟩ : Traced Event (Sender T)) = r at hmove
    obtain rfl : out = r.log := congrArg Traced.log hr
    cases hmove with
    | sendData => exact iff_of_true divides_nil trivial
    | handshake tcp call buf lastSTs c o =>
      refine iff_of_true ?_ trivial
      simp only [shake, greet]
      split_ifs <;> simp [Event.Whole]
    | start tcp call t₀ t₁ => exact iff_of_true (by simp [start, Event.Whole]) trivial
    | enter tcp l c hsz =>
      refine iff_of_true ?_ (.inl hsz)
      simp only [enter, giveUp]
      split_ifs <;> simp [Event.Whole]
    | finish tcp l c hsz => simp [finish, Event.Whole, Safe, hsz]
    | crash tcp l => exact absurd ⟨l, rfl, rfl⟩ hsend
    | send tcp l => exact absurd ⟨l, rfl, rfl⟩ hsend
    | receive tcp l c₂ o c₃ htest =>
      have hbn := (test_eq_false htest).2.1
      rw [divides_append, receive_divides hbn]
      exact ⟨fun h => h.2, fun h => ⟨test_divides hbn l, h⟩⟩

theorem estimateRate_rate (tcp : TcpTransport T) (l : Locals) (seq : ℤ) :
    (tcp.estimateRate l seq).val.2 = if seq * tcp.bnTrain ≠ 0 ∧ tcp.lastRTs ≠ 0 then
      smoothRate l.rateEst (l.currTs.val - tcp.lastRTs) else l.rateEst := by
  unfold estimateRate
  dsimp only
  split_ifs <;> rfl

/-- An accepted ack leaves its reading, and takes the gap before it into the estimate. -/
theorem accept_rate (hbn : tcp.bnTrain ≠ 0) (l : Locals) (h : PacketHeader) :
    ∃ tcp' rateEst, (tcp.accept l h).val = ⟨tcp', .top { l with rateEst := rateEst }⟩ ∧
      tcp'.lastRTs = l.currTs.val ∧
      rateEst = if h.seqNum.toInt ≠ 0 ∧ tcp.lastRTs ≠ 0 then
        smoothRate l.rateEst (l.currTs.val - tcp.lastRTs) else l.rateEst := by
  obtain ⟨cong, -, hest⟩ := estimateRate_eq (tcp.heard l.currTs) l h.seqNum.toInt
  have hdel : ((tcp.heard l.currTs).setCong cong |>.credit h l.currTs).deliver h l.currTs =
      pure (some (((tcp.heard l.currTs).setCong cong).credit h l.currTs)) := deliver_eq hbn
  refine ⟨((tcp.heard l.currTs).setCong cong |>.credit h l.currTs).raiseAck h.seqNum.toInt,
    ((tcp.heard l.currTs).estimateRate l h.seqNum.toInt).val.2, ?_, rfl, ?_⟩
  · simp only [accept, Traced.bind_val, hest, hdel, Traced.pure_val]
  · simp only [estimateRate_rate, heard, ne_eq, mul_eq_zero, hbn, or_false]

theorem snap_lastRTs : (tcp.snap l).lastRTs = tcp.lastRTs := by
  obtain ⟨ts, h⟩ := snap_eq tcp l
  rw [h]

/-- What `last_r_ts` and the estimate of the rate hold: the reading of the last ack, and in a call
what its gaps smooth out to. -/
def Estimated (a : AckTimes) (s : Sender T) : Prop :=
  s.tcp.lastRTs = a.last ∧
    match s.phase with
    | .shaking _ _ _ | .connected _ => a.gaps = []
    | .top l | .sending l => l.rateEst = a.gaps.foldl smoothRate 0
    | _ => True

theorem receive_estimated {a : AckTimes} (hbn : tcp.bnTrain ≠ 0)
    (ha : Estimated a ⟨tcp, .sending l⟩) :
    Estimated (a.after ⟨tcp, .sending l⟩ (.recv c₂ out c₃)) (tcp.receive l c₂ out c₃).val := by
  obtain ⟨hlast, hrate⟩ := ha
  simp only at hlast hrate
  have hbn' : (tcp.snap l).bnTrain ≠ 0 := by rwa [snap_bnTrain]
  simp only [receive, Traced.bind_val, AckTimes.after, ackIn]
  by_cases hrc : (recvData pktSz out l.buf).val.rc = 0
  · simp only [hrc, if_true, ne_eq, not_true_eq_false, false_and, if_false, Option.elim, idleTick]
    split_ifs <;> exact ⟨snap_lastRTs.trans hlast, hrate⟩
  · simp only [hrc, if_false, ne_eq, not_false_eq_true, true_and]
    split_ifs with hacc
    · obtain ⟨tcp', rateEst, hv, hts, hest⟩ := accept_rate hbn'
        { l with buf := (recvData pktSz out l.buf).val.buf, currTs := c₃ }
        (PacketHeader.read (recvData pktSz out l.buf).val.buf)
      rw [hv]
      refine ⟨hts, ?_⟩
      rw [snap_lastRTs, hlast] at hest
      simp only [Option.elim, hest, hrate, ne_eq]
      split_ifs <;> simp
    · exact ⟨snap_lastRTs.trans hlast, hrate⟩

theorem move_estimated {a : AckTimes} {r : Traced Event (Sender T)} (h : Move s i r)
    (ha : Estimated a s) : Estimated (a.after s i) r.val := by
  cases h with
  | sendData tcp call => exact ⟨ha.1, rfl⟩
  | handshake tcp call buf lastSTs c out =>
    obtain ⟨hlast, hnone⟩ := ha
    simp only [shake, Traced.bind_val]
    split_ifs
    · exact ⟨hlast, hnone⟩
    · exact ⟨hlast, hnone⟩
  | start tcp call t₀ t₁ =>
    obtain ⟨hlast, hnone⟩ := ha
    refine ⟨hlast, ?_⟩
    simp only at hnone
    simp [start, AckTimes.after, hnone]
  | enter tcp l c =>
    obtain ⟨hlast, hrate⟩ := ha
    refine ⟨?_, hrate⟩
    simp only [enter, giveUp, AckTimes.after, Traced.bind_val] at hlast ⊢
    split_ifs <;> exact hlast
  | finish tcp l c => exact ⟨ha.1, trivial⟩
  | crash tcp l => exact ⟨ha.1, trivial⟩
  | send tcp l ht =>
    obtain ⟨hlast, hrate⟩ := ha
    obtain ⟨cong, ts, htcp⟩ := sendOne_tcp tcp l
    refine ⟨by rw [htcp]; exact hlast, ?_⟩
    by_cases hbn : tcp.bnTrain = 0
    · rw [sendOne_of_eq hbn]
      trivial
    · rw [sendOne_of_ne hbn, advance]
      split_ifs
      · exact hrate
      · trivial
  | receive tcp l c₂ out c₃ ht => exact receive_estimated (test_eq_false ht).2.1 ha

theorem estimated_run (hr : Sender.machine.Run ⟨new cong bn, .idle⟩ trs s) :
    Estimated (ackTimes trs) s :=
  hr.history (I := fun trs s => Estimated (ackTimes trs) s) (C := fun _ => True) (by simp)
    ⟨rfl, trivial⟩ fun trs tr ht _ h => by
      rw [ackTimes_concat]
      exact move_estimated (takes_move ht) h

/-- `npkts` is 0 just where no ack has been accepted since the transport was built. -/
theorem npkts_run (hr : Sender.machine.Run ⟨new cong bn, .idle⟩ trs s) :
    s.tcp.npkts = acked trs := by
  refine hr.history (I := fun trs s => s.tcp.npkts = acked trs) (C := fun _ => True) (by simp)
    rfl ?_
  rintro pre tr ht - hnpkts
  have hstep := move_npkts (takes_move ht)
  simp only at hstep
  rw [hstep, hnpkts, acked_append, acked_singleton]
  push_cast
  rfl

omit [Controller T] in
theorem sound_of_none (hsend : tr.input ≠ .send) (hack : ackIn tr.src tr.input = none)
    (hends : ¬ Ends tr.src tr.input) : Sound bn pre tr :=
  ⟨fun h => absurd h hsend, by simp [hack], fun h => absurd h hends⟩

omit [Controller T] in
theorem not_ends (h : ∀ l, s.phase ≠ .top l) : ¬ Ends s i := by
  rintro ⟨l, c, hphase, -⟩
  exact h l hphase

omit [Controller T] in
theorem sound_send (hphase : tr.src.phase = .sending l) (hsend : tr.input = .send) :
    Sound bn pre tr ↔ bn ≠ 0 := by
  refine ⟨fun h => h.send hsend, fun h => ⟨fun _ => h, ?_, fun hend => ?_⟩⟩
  · simp [ackIn, hsend]
  · exact absurd hend (not_ends (by simp [hphase]))

/-- In a run the counters and the estimate of a state are what the acks and readings up to it make
them. -/
theorem safe_iff (hr : Sender.machine.Run ⟨new cong bn, .idle⟩ pre tr.src)
    (ht : Sender.machine.Takes tr) : Safe bn tr.src tr.input ↔ Sound bn pre tr := by
  have hnpkts := npkts_run hr
  have htime := (counters_run hr).2
  obtain ⟨hlast, hrate⟩ := estimated_run hr
  have hmove := takes_move ht
  obtain ⟨src, i, out, dst⟩ := tr
  generalize hr : (⟨dst, out⟩ : Traced Event (Sender T)) = r at hmove
  cases hmove with
  | finish tcp l c hsz =>
    simp only at hnpkts htime
    simp only [Safe, hsz, false_or, hnpkts, htime]
    constructor
    · rintro ⟨htime, hacks⟩
      refine ⟨by simp, by simp [ackIn], fun _ => ⟨by exact_mod_cast hacks, ?_⟩⟩
      simpa [elapsed_concat, endedIn, hsz] using htime
    · intro h
      obtain ⟨hacks, htime⟩ := h.ends ⟨l, c, rfl, rfl, hsz⟩
      exact ⟨by simpa [elapsed_concat, endedIn, hsz] using htime, by exact_mod_cast hacks⟩
  | enter tcp l c hsz =>
    refine iff_of_true (.inl hsz) (sound_of_none (by simp) rfl ?_)
    rintro ⟨l', c', hphase, -, hend⟩
    obtain rfl := Phase.top.inj hphase
    exact hend hsz
  | crash | send => exact (sound_send rfl rfl).symm
  | receive tcp l c₂ o c₃ hclosed =>
    simp only at hlast hrate
    have hgaps : ∀ h ∈ ackIn ⟨tcp, .sending l⟩ (.recv c₂ o c₃), h.seqNum.toInt ≠ 0 →
        (ackTimes pre).last ≠ 0 →
        ((ackTimes pre).after ⟨tcp, .sending l⟩ (.recv c₂ o c₃)).gaps.foldl smoothRate 0 =
          smoothRate l.rateEst (c₃.val - tcp.lastRTs) := by
      intro h hh hseq hprev
      simp only [AckTimes.after, Option.mem_def.mp hh, Option.elim, if_pos (And.intro hseq hprev),
        List.foldl_append, List.foldl_cons, List.foldl_nil, hlast, hrate]
    constructor
    · intro h
      refine ⟨by simp, fun ack hack hseq hprev hfar => ?_, fun h => absurd h (not_ends (by simp))⟩
      rw [ackTimes_concat, hgaps ack hack hseq hprev]
      exact h ack hack hseq (by rwa [hlast]) hfar
    · intro h ack hack hseq hprev hfar
      have hprev' : (ackTimes pre).last ≠ 0 := by rwa [← hlast]
      have hest := h.ack ack hack hseq hprev' hfar
      rwa [ackTimes_concat, hgaps ack hack hseq hprev'] at hest
  | _ => exact iff_of_true trivial (sound_of_none (by simp) rfl (not_ends (by simp)))

/-- An estimate of no negative gaps is not negative, and 0 only with the gap. -/
theorem smoothRate_nonneg (hest : 0 ≤ rateEst) (hgap : 0 ≤ gap) :
    0 ≤ smoothRate rateEst gap ∧ (smoothRate rateEst gap = 0 ↔ rateEst = 0 ∧ gap = 0) := by
  unfold smoothRate
  split_ifs with hzero
  · simp [hzero, hgap]
  · have hpos : 0 < rateEst := lt_of_le_of_ne hest (Ne.symm hzero)
    have hsum : 0 < (1 - 1 / 16) * rateEst + 1 / 16 * gap := by linarith
    exact ⟨hsum.le, iff_of_false hsum.ne' fun h => hzero h.1⟩

theorem smoothed_nonneg (h : ∀ g ∈ gs, 0 ≤ g) :
    0 ≤ gs.foldl smoothRate 0 ∧ (gs.foldl smoothRate 0 = 0 ↔ ∀ g ∈ gs, g = 0) := by
  induction gs using List.reverseRecOn with
  | nil => simp
  | append_singleton gs g ih =>
    obtain ⟨hest, hiff⟩ := ih fun g' h' => h g' (by simp [h'])
    obtain ⟨hnext, hzero⟩ := smoothRate_nonneg hest (h g (by simp))
    rw [List.foldl_append, List.foldl_cons, List.foldl_nil]
    refine ⟨hnext, ?_⟩
    rw [hzero, hiff, List.forall_mem_append, List.forall_mem_singleton]

omit [Controller T] in
theorem elapsed_eq_zero (h : ∀ tr ∈ trs, 0 ≤ endedIn tr.src tr.input) :
    elapsed trs = 0 ↔ ∀ tr ∈ trs, endedIn tr.src tr.input = 0 := by
  have hnonneg : ∀ x ∈ trs.map fun tr => endedIn tr.src tr.input, (0 : ℚ) ≤ x := by
    simpa using h
  constructor
  · intro hsum tr htr
    exact List.all_zero_of_le_zero_le_of_sum_eq_zero hnonneg hsum (List.mem_map_of_mem htr)
  · intro hall
    refine List.sum_eq_zero fun x hx => ?_
    obtain ⟨tr, htr, rfl⟩ := List.mem_map.mp hx
    exact hall tr htr

omit [Controller T] in
/-- Where no gap and no duration is negative, one of them that is not 0 is enough. -/
theorem sound_steady (hgaps : ∀ g ∈ (ackTimes (pre ++ [tr])).gaps, 0 ≤ g)
    (hdur : ∀ tr' ∈ pre ++ [tr], 0 ≤ endedIn tr'.src tr'.input) :
    Sound bn pre tr ↔ (tr.input = .send → bn ≠ 0) ∧
      (∀ h ∈ ackIn tr.src tr.input, h.seqNum.toInt ≠ 0 → (ackTimes pre).last ≠ 0 →
        h.seqNum.toInt + 1 > 2 * bn → ∃ g ∈ (ackTimes (pre ++ [tr])).gaps, g ≠ 0) ∧
      (Ends tr.src tr.input → acked pre ≠ 0 ∧
        ∃ tr' ∈ pre ++ [tr], endedIn tr'.src tr'.input ≠ 0) := by
  have hest : (∃ g ∈ (ackTimes (pre ++ [tr])).gaps, g ≠ 0) ↔
      (ackTimes (pre ++ [tr])).gaps.foldl smoothRate 0 ≠ 0 := by
    rw [ne_eq, (smoothed_nonneg hgaps).2]
    push Not
    rfl
  have htime : (∃ tr' ∈ pre ++ [tr], endedIn tr'.src tr'.input ≠ 0) ↔
      elapsed (pre ++ [tr]) ≠ 0 := by
    rw [ne_eq, elapsed_eq_zero hdur]
    push Not
    rfl
  rw [hest, htime]
  exact ⟨fun h => ⟨h.send, h.ack, h.ends⟩, fun ⟨hsend, hack, hends⟩ => ⟨hsend, hack, hends⟩⟩

/-- `main`, where it runs a flow over the congestion control of the repository. -/
def launch (parsed : Option Given) : Option (Sender Eyenet) :=
  match (parseSenderArgs parsed).val with
  | some args =>
    if args.cong = .eyenet then some ⟨.new (Eyenet.new 1) args.bnTrain.toInt, .idle⟩ else none
  | none => none

theorem launch_new {parsed : Option Given} {s₀ : Sender Eyenet} (h : launch parsed = some s₀) :
    s₀ = ⟨.new (Eyenet.new 1) s₀.tcp.bnTrain, .idle⟩ := by
  unfold launch at h
  split at h
  · split_ifs at h
    rw [← Option.some.inj h]
    rfl
  · simp at h

/-- A flow divides by 0 in just the runs in which the acks and readings up to a step make it. -/
theorem divides_iff {parsed : Option Given} {s₀ s : Sender Eyenet} {trs : List (Action Eyenet)}
    (hl : launch parsed = some s₀) (hr : Sender.machine.Run s₀ trs s) :
    (∀ tr ∈ trs, Divides tr.out) ↔
      ∀ pre tr post, trs = pre ++ tr :: post → Sound s₀.tcp.bnTrain pre tr := by
  rw [launch_new hl] at hr
  have hstep : ∀ pre tr post, trs = pre ++ tr :: post →
      (Divides tr.out ↔ Sound s₀.tcp.bnTrain pre tr) := by
    intro pre tr post he
    obtain ⟨hpre, ht⟩ := hr.split he
    rw [takes_divides ht, bnTrain_run hpre, ← safe_iff hpre ht]
    rfl
  constructor
  · intro h pre tr post he
    exact (hstep pre tr post he).mp (h tr (by simp [he]))
  · intro h tr hm
    obtain ⟨pre, post, he⟩ := List.append_of_mem hm
    exact (hstep pre tr post he).mpr (h pre tr post he)

theorem launch_eyenetLine (bnTrain : Int32) :
    launch (some (eyenetLine bnTrain)) = some (freshSender bnTrain.toInt) := by
  obtain ⟨args, hparse, hcong, rfl⟩ := parse_eyenetLine bnTrain
  simp only [launch, hparse, if_pos hcong]
  rfl

theorem not_divides {log : List Event} (h : .divisor 0 ∈ log) : ¬ Divides log :=
  fun hall => hall _ h rfl

/-- A call up to its first packet. -/
def firstPacket : List (Input Recv) := firstWindow.take 5

theorem firstPacket_accepted : (Sender.machine.exec (freshSender 0) firstPacket).isSome := by
  decide +kernel

/-- A call whose packets are all lost. -/
def allLost : List (Input Recv) := firstWindow ++ [.recv ⟨0⟩ .timeout eightSec, .top eightSec]

theorem allLost_accepted : (Sender.machine.exec (freshSender 1) allLost).isSome := by
  decide +kernel

/-- Trains of no packets are accepted, and the first packet divides by their length. With trains
of one packet a call without an ack divides by the count of acks. -/
theorem divides_by_zero :
    (∃ s₀ trs s, launch (some (eyenetLine 0)) = some s₀ ∧ Sender.machine.Run s₀ trs s ∧
      ¬ ∀ tr ∈ trs, Divides tr.out) ∧
    ∃ s₀ trs s, launch (some (eyenetLine 1)) = some s₀ ∧ Sender.machine.Run s₀ trs s ∧
      ¬ ∀ tr ∈ trs, Divides tr.out := by
  have hzero : ∃ tr ∈ (Option.get _ firstPacket_accepted).1, .divisor 0 ∈ tr.out := by
    decide +kernel
  have hlost : ∃ tr ∈ (Option.get _ allLost_accepted).1, .divisor 0 ∈ tr.out := by
    decide +kernel
  obtain ⟨tr₀, hm₀, hd₀⟩ := hzero
  obtain ⟨tr₁, hm₁, hd₁⟩ := hlost
  exact ⟨⟨_, _, _, launch_eyenetLine 0, Machine.exec_get_run firstPacket_accepted,
      fun h => not_divides hd₀ (h tr₀ hm₀)⟩,
    ⟨_, _, _, launch_eyenetLine 1, Machine.exec_get_run allLost_accepted,
      fun h => not_divides hd₁ (h tr₁ hm₁)⟩⟩

theorem divides_iff_lostAck :
    ∃ s₀ trs s, launch (some (eyenetLine 1)) = some s₀ ∧ Sender.machine.Run s₀ trs s ∧
      ((∀ tr ∈ trs, Divides tr.out) ↔
        ∀ pre tr post, trs = pre ++ tr :: post → Sound s₀.tcp.bnTrain pre tr) :=
  ⟨_, _, _, launch_eyenetLine 1, Machine.exec_get_run lostAck_accepted,
    divides_iff (launch_eyenetLine 1) (Machine.exec_get_run lostAck_accepted)⟩

end TcpEyenet
