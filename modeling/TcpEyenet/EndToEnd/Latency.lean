import TcpEyenet.EndToEnd.Authenticity
import TcpEyenet.Transport.Throughput

/-! The latency that the sender prints. -/
namespace TcpEyenet

open TcpTransport

variable {T : Type} [Controller T] {s : Sender T} {i : Input Recv} {r : Traced Event (Sender T)}
  {tput delay d : ℚ} {tr : Transition (System T) Turn Event} {cong : T} {bn : ℤ} {buf : Buf}
  {trs pre post : List (Transition (System T) Turn Event)}

/-- Statistics are printed at the end of a call and nowhere else. -/
theorem move_finish (h : Move s i r) (hm : .stats tput delay ∈ r.log) :
    ∃ l c, s.phase = .top l ∧ i = .top c ∧ r = s.tcp.finish c := by
  cases h with
  | sendData => simp at hm
  | handshake tcp call buf lastSTs c out =>
    simp only [shake, greet] at hm
    split_ifs at hm <;> simp at hm
  | start tcp call t₀ t₁ => simp [start] at hm
  | enter tcp l c =>
    simp only [enter, giveUp] at hm
    split_ifs at hm <;> simp at hm
  | finish tcp l c => exact ⟨l, c, rfl, rfl, rfl⟩
  | crash => exact absurd hm test_stats
  | send tcp l =>
    obtain ⟨log, hlog, hsend⟩ := sendOne_log tcp l
    rw [hsend, List.mem_append, List.mem_cons] at hm
    rcases hm with hm | hm | hm
    · exact absurd hm test_stats
    · simp at hm
    · exact (hlog _ hm).elim
  | receive tcp l c₂ out c₃ ht =>
    obtain ⟨log, hlog, hrecv, -⟩ := receive_cases (test_eq_false ht).2.1 l c₂ out c₃
    rw [hrecv, List.mem_append, List.mem_cons] at hm
    rcases hm with hm | hm | hm
    · exact absurd hm test_stats
    · simp at hm
    · exact (hlog _ hm).elim

theorem move_latency (h : Move s i r) (hm : .stats tput delay ∈ r.log) :
    delay = s.tcp.delayAggr / s.tcp.npkts := by
  obtain ⟨l, c, -, -, rfl⟩ := move_finish h hm
  simp only [finish, Traced.bind_log, Traced.report_log, Traced.pure_log, List.mem_append,
    List.mem_singleton, List.not_mem_nil, or_false, reduceCtorEq, false_or] at hm
  exact (Event.stats.inj hm).2

/-- The delay of the ack that a turn makes the sender accept. -/
def System.delayOf (s : System T) (t : Turn) : Option ℚ :=
  match t with
  | .sender (.recv _ _ c₃) => (s.ackIn t).map fun h => c₃.val - h.sendTs.val
  | _ => none

/-- The delays of all acks accepted so far. -/
def delays (trs : List (Transition (System T) Turn Event)) : List ℚ :=
  trs.filterMap fun tr => tr.src.delayOf tr.input

omit [Controller T] in
theorem delays_concat : delays (trs ++ [tr]) = delays trs ++ (tr.src.delayOf tr.input).toList := by
  rw [delays, delays, List.filterMap_append]
  cases h : tr.src.delayOf tr.input <;> simp [h]

omit [Controller T] in
theorem delayOf_resolve {s : System T} {i₀ : Input (Option ℕ)}
    (hres : i₀.resolve (Reply.arrival s.replies) = some i) :
    (s.delayOf (.sender i₀)).toList.sum = delayIn s.sender i ∧
      (s.delayOf (.sender i₀)).toList.length = (TcpEyenet.ackIn s.sender i).toList.length := by
  cases i₀ with
  | recv c₂ out₀ c₃ =>
    obtain ⟨out, hout, rfl⟩ := Option.map_eq_some_iff.mp hres
    have hack : s.ackIn (.sender (.recv c₂ out₀ c₃)) =
        TcpEyenet.ackIn s.sender (.recv c₂ out c₃) := by
      rw [System.ackIn, hres, Option.bind_some]
    rw [System.delayOf, hack]
    cases hin : TcpEyenet.ackIn s.sender (.recv c₂ out c₃) <;> simp [delayIn, hin]
  | handshake c out₀ =>
    obtain ⟨out, -, rfl⟩ := Option.map_eq_some_iff.mp hres
    have hnone := ackIn_eq_none (s := s.sender) (i := .handshake c out) (by simp)
    rw [hnone, delayIn_of_none hnone]
    exact ⟨rfl, rfl⟩
  | _ =>
    obtain rfl := Option.some.inj hres
    rw [ackIn_eq_none (by simp), delayIn_of_none (ackIn_eq_none (by simp))]
    exact ⟨rfl, rfl⟩

theorem delays_step (ht : System.machine.Takes tr)
    (h : tr.src.sender.tcp.delayAggr = (delays trs).sum ∧
      tr.src.sender.tcp.npkts = (delays trs).length) :
    tr.dst.sender.tcp.delayAggr = (delays (trs ++ [tr])).sum ∧
      tr.dst.sender.tcp.npkts = (delays (trs ++ [tr])).length := by
  obtain ⟨haggr, hnpkts⟩ := h
  rw [delays_concat, List.sum_append, List.length_append, ← haggr, Nat.cast_add, ← hnpkts]
  cases hin : tr.input with
  | receiver out t =>
    obtain ⟨buf, replies, hdst, -⟩ := takes_receiver ht hin
    rw [hdst]
    simp [System.delayOf]
  | sender i₀ =>
    obtain ⟨i, r, hres, hm, hdst⟩ := takes_sender ht hin
    obtain ⟨hsum, hlen⟩ := delayOf_resolve hres
    rw [hdst, hsum, hlen]
    exact ⟨move_delayAggr hm, move_npkts hm⟩

/-- A turn of the sender reports what its step reports. -/
theorem takes_log (ht : System.machine.Takes tr) {i₀ : Input (Option ℕ)}
    (hi : tr.input = .sender i₀) :
    ∃ i r, i₀.resolve (Reply.arrival tr.src.replies) = some i ∧ Move tr.src.sender i r ∧
      tr.dst.sender = r.val ∧ tr.out = r.log := by
  simp only [Machine.Takes, System.machine, System.step, System.senderStep, hi, bind,
    Option.bind_eq_some_iff] at ht
  obtain ⟨i, hres, r, hr, hdst⟩ := ht
  obtain ⟨hval, hlog⟩ := Traced.mk.inj (Option.some.inj hdst)
  exact ⟨i, r, hres, step_move hr, (congrArg System.sender hval).symm, hlog.symm⟩

theorem out_receiver (ht : System.machine.Takes tr) {rcv : Option ℕ} {c : Double}
    (hi : tr.input = .receiver rcv c) : tr.out = [] ∧ tr.dst.sender = tr.src.sender := by
  simp only [Machine.Takes, System.machine, System.step, System.receiverStep, hi] at ht
  cases rcv with
  | none =>
    obtain ⟨hval, hlog⟩ := Traced.mk.inj (Option.some.inj ht)
    exact ⟨hlog.symm, (congrArg System.sender hval).symm⟩
  | some n =>
    obtain ⟨d, -, hdst⟩ := Option.bind_eq_some_iff.mp ht
    obtain ⟨hval, hlog⟩ := Traced.mk.inj (Option.some.inj hdst)
    exact ⟨hlog.symm, (congrArg System.sender hval).symm⟩

/-- A delay that is counted is the time from the sending of a packet to the acceptance of its ack
in one and the same cycle, and the clock of the cycle did not go back. -/
def Sampled (pre : List (Transition (System T) Turn Event)) (d : ℚ) : Prop :=
  0 ≤ d ∧ ∃ before tr after, pre = before ++ tr :: after ∧
    ∃ c ∈ (cycles before).head?, ∃ p ∈ c.packets, ∃ c₂ k c₃,
      tr.input = .sender (.recv c₂ (some k) c₃) ∧ d = c₃.val - p.header.sendTs.val

theorem sampled_of_mem {s : System T}
    (hr : System.machine.Run (System.fresh (.new cong bn) buf) trs s) (ho : Orderly (cycles trs))
    (hd : d ∈ delays trs) : Sampled trs d := by
  obtain ⟨tr, htr, hdelay⟩ := List.mem_filterMap.mp hd
  obtain ⟨before, after, rfl⟩ := List.append_of_mem htr
  obtain ⟨hpre, ht⟩ := hr.split rfl
  rw [List.append_cons] at ho
  have hnext := orderly_prefix ho
  rw [cycles_concat] at hnext
  have hauth := ((inv_run hpre (orderly_of_record hnext)).authentic ht hnext).2
  cases hin : tr.input with
  | receiver out t => simp [hin, System.delayOf] at hdelay
  | sender i₀ =>
    cases i₀ with
    | recv c₂ out c₃ =>
      rw [hin] at hdelay hauth
      obtain ⟨h, hack, rfl⟩ := Option.map_eq_some_iff.mp hdelay
      obtain ⟨c, hc, l, c₂', k, c₃', e, p, -, hinput, -, hech, -⟩ := hauth h hack
      obtain ⟨rfl, rfl, rfl⟩ := Input.recv.inj (Turn.sender.inj hinput)
      have hts : h.sendTs = p.header.sendTs := congrArg (·.sendTs) hech.header
      refine ⟨sub_nonneg.mpr hech.sent_before, before, tr, after, rfl, c, hc, p, hech.packet, c₂, k,
        c₃, hin, ?_⟩
      rw [hts]
    | _ => simp [hin, System.delayOf] at hdelay

/-- Whatever the network does, the latency that a call prints is the mean, over all acks accepted
since the start, of the time between the sending of the packet and the acceptance of its ack; no
such time is negative. -/
theorem latency_mean {s : System T}
    (hr : System.machine.Run (System.fresh (.new cong bn) buf) trs s) (ho : Orderly (cycles trs))
    (he : trs = pre ++ tr :: post) (hm : .stats tput delay ∈ tr.out) :
    delay = (delays pre).sum / (delays pre).length ∧ ∀ d ∈ delays pre, Sampled pre d := by
  obtain ⟨hpre, ht⟩ := hr.split he
  have hbefore := orderly_prefix (he ▸ ho)
  have hcounters := hpre.history (C := fun _ => True) (I := fun trs s =>
    s.sender.tcp.delayAggr = (delays trs).sum ∧ s.sender.tcp.npkts = (delays trs).length)
    (fun _ _ => trivial) ⟨rfl, rfl⟩ fun _ _ ht _ => delays_step ht
  refine ⟨?_, fun d hd => sampled_of_mem hpre hbefore hd⟩
  cases hin : tr.input with
  | receiver rcv c =>
    rw [(out_receiver ht hin).1] at hm
    exact absurd hm List.not_mem_nil
  | sender i₀ =>
    obtain ⟨i, r, -, hmove, -, hout⟩ := takes_log ht hin
    rw [hout] at hm
    rw [move_latency hmove hm, hcounters.1, hcounters.2, Int.cast_natCast]

def threeMs : Double := ⟨0x4008000000000000#64⟩

/-- A call of 1 ms: a window of packets, the ack of the first 3 ms after it was sent, the end. -/
def lateAck : List Turn :=
  ([.sender (.sendData ⟨1, false, 1, 7⟩), .sender (.handshake ⟨0⟩ none),
    .receiver (some 0) ⟨0⟩, .sender (.handshake ⟨0⟩ (some 0)), .sender (.start ⟨0⟩ ⟨0⟩),
    .sender (.top ⟨0⟩)] : List Turn) ++
  List.replicate 10 (.sender .send) ++
  ([.receiver (some 1) ⟨0⟩, .sender (.recv ⟨0⟩ (some 1) threeMs), .sender (.top threeMs)] :
    List Turn)

theorem lateAck_accepted : (System.machine.exec freshSystem lateAck).isSome := by decide +kernel

theorem latency_mean_lateAck :
    ∃ pre tr s, System.machine.Run freshSystem (pre ++ [tr]) s ∧ .stats (1408000 / 3) 3 ∈ tr.out ∧
      3 = (delays pre).sum / (delays pre).length ∧ ∀ d ∈ delays pre, Sampled pre d := by
  have hrun := Machine.exec_get_run lateAck_accepted
  have ho : Orderly (cycles (Option.get _ lateAck_accepted).1) :=
    ⟨by decide +kernel, by decide +kernel, by decide +kernel⟩
  have hlast : (Option.get _ lateAck_accepted).1.getLast?.any fun tr =>
      .stats (1408000 / 3) 3 ∈ tr.out := by
    decide +kernel
  generalize (Option.get _ lateAck_accepted).1 = trs at hrun ho hlast
  obtain ⟨tr, htr, hstats⟩ := (Option.any_eq_true ..).mp hlast
  obtain ⟨pre, rfl⟩ := List.getLast?_eq_some_iff.mp htr
  exact ⟨pre, tr, _, hrun, of_decide_eq_true hstats,
    latency_mean hrun ho rfl (of_decide_eq_true hstats)⟩

end TcpEyenet
