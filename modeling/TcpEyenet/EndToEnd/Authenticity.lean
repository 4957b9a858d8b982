import TcpEyenet.EndToEnd.Standing
import TcpEyenet.EndToEnd.Wire

/-! Every ack that is accepted echoes a packet of the cycle in progress. -/
namespace TcpEyenet

open TcpTransport PacketHeader

variable {T : Type} [Controller T] {s : Sender T} {i : Input Recv} {r : Traced Event (Sender T)}
  {c : Cycle} {cs : List Cycle} {tcp : TcpTransport T} {l : Locals}
  {tr : Transition (System T) Turn Event} {trs : List (Transition (System T) Turn Event)}

omit [Controller T] in
/-- A reply that names the flow in progress can only answer a packet of it. -/
theorem Wired.answers {s : System T} (hw : Wired (c :: cs) s) (ho : Orderly (c :: cs))
    {e : Reply} (he : e ∈ s.replies) (hfid : (ofBytes e.bytes).fid = c.call.fid) :
    ∃ p ∈ c.packets, e.source = p.pos ∧
      ofBytes e.bytes = { p.header with recvTs := (ofBytes e.bytes).recvTs } := by
  obtain ⟨-, d, hd, t, hbytes⟩ := hw.replies e he
  obtain ⟨-, hhello | ⟨c', hc', hp⟩⟩ := hw.sent _ d hd
  · have hnamed := ho.named c (by simp)
    have hneg : (-1 : Int32) = c.call.fid := by rw [← hfid, hbytes, hhello]; rfl
    rw [← hneg] at hnamed
    exact absurd hnamed (by decide)
  · have hfid' : c'.call.fid = c.call.fid := by
      rw [← hfid, hbytes]
      exact (hw.named c' hc' _ hp).symm
    obtain rfl := List.inj_on_of_nodup_map ho.distinct hc' (by simp) hfid'
    exact ⟨_, hp, rfl, by rw [hbytes]⟩

/-- The header of the ack that a turn makes the sender accept. -/
def System.ackIn (s : System T) : Turn → Option PacketHeader
  | .sender i => (i.resolve (Reply.arrival s.replies)).bind (TcpEyenet.ackIn s.sender)
  | .receiver _ _ => none

omit [Controller T] in
/-- An ack is one of the replies, and the sender reads its header and nothing else. -/
theorem ackIn_reply {s : System T} (hw : Wired cs s) {i₀ : Input (Option ℕ)} {h : PacketHeader}
    (hres : i₀.resolve (Reply.arrival s.replies) = some i) (hack : ackIn s.sender i = some h) :
    ∃ l c₂ k c₃, ∃ e ∈ s.replies[k]?, s.sender.phase = .sending l ∧
      i₀ = .recv c₂ (some k) c₃ ∧ i = .recv c₂ (.datagram e.bytes) c₃ ∧
      h = ofBytes e.bytes ∧ l.call.accepts h := by
  obtain ⟨l, c₂, out, c₃, hphase, rfl, hrc, hacc, hh⟩ := ackIn_eq_some hack
  cases i₀ with
  | recv c₂' out₀ c₃' =>
    obtain ⟨out', hout, heq⟩ := Option.map_eq_some_iff.mp hres
    obtain ⟨rfl, rfl, rfl⟩ := Input.recv.inj heq
    cases out₀ with
    | none =>
      obtain rfl : Recv.timeout = out' := Option.some.inj hout
      exact absurd rfl hrc
    | some k =>
      obtain ⟨e, he, rfl⟩ := Option.map_eq_some_iff.mp hout
      have hlen := (hw.replies e (List.mem_of_getElem? he)).1
      rw [read_recvData (by decide) hlen] at hh
      exact ⟨l, c₂', k, c₃', e, he, hphase, rfl, rfl, hh, hacc⟩
  | handshake =>
    obtain ⟨out', -, heq⟩ := Option.map_eq_some_iff.mp hres
    exact absurd heq (by simp)
  | _ => simp [Input.resolve] at hres

/-- What holds of both ends and the network after every turn. -/
structure System.Inv (cs : List Cycle) (s : System T) : Prop where
  wired : Wired cs s
  start : cs = [] → s.sender.phase = .idle
  stands : ∀ c ∈ cs.head?, Stands c s.sender

omit [Controller T] in
theorem inv_fresh (tcp : TcpTransport T) (buf : Buf) : System.Inv [] (System.fresh tcp buf) :=
  ⟨wired_fresh tcp buf, fun _ => rfl, by simp⟩

theorem record_of_ne {s : System T} {i₀ : Input (Option ℕ)} (h : ∀ call, i₀ ≠ .sendData call) :
    s.record cs (.sender i₀) = cs.modifyHead fun c =>
      c.extend i₀.readings ((packetIn s.sender i₀).toList.map (Posted.mk s.sent.length)) := by
  cases i₀ with
  | sendData call => exact absurd rfl (h call)
  | _ => rfl

/-- The ack echoes a packet of the cycle in progress. -/
structure Echoes (c : Cycle) (l : Locals) (now : ℚ) (e : Reply) (p : Posted) (h : PacketHeader) :
    Prop where
  call : c.call = l.call
  packet : p ∈ c.packets
  source : e.source = p.pos
  header : h = { p.header with recvTs := h.recvTs }
  seqNum_nonneg : 0 ≤ h.seqNum.toInt
  seqNum_lt : h.seqNum.toInt < l.seqNum
  sent_before : h.sendTs.val ≤ now

/-- Every ack accepted in a turn is genuine, and so is the delay that is counted for it. -/
def Authentic (cs : List Cycle) (tr : Transition (System T) Turn Event) : Prop :=
  tr.src.sender.tcp.delayAggr ≤ tr.dst.sender.tcp.delayAggr ∧
    ∀ h ∈ tr.src.ackIn tr.input, ∃ c ∈ cs.head?, ∃ l c₂ k c₃ e p,
      tr.src.sender.phase = .sending l ∧ tr.input = .sender (.recv c₂ (some k) c₃) ∧
      tr.src.replies[k]? = some e ∧ Echoes c l c₃.val e p h ∧
      tr.dst.sender.tcp.delayAggr = tr.src.sender.tcp.delayAggr + (c₃.val - h.sendTs.val)

omit [Controller T] in
theorem Echoes.mono {now now' : ℚ} {e : Reply} {p : Posted} {h : PacketHeader}
    (he : Echoes c l now e p h) (hle : now ≤ now') : Echoes c l now' e p h :=
  { he with sent_before := he.sent_before.trans hle }

omit [Controller T] in
theorem System.Inv.echoes {s : System T} (hi : System.Inv (c :: cs) s) (ho : Orderly (c :: cs))
    {i₀ : Input (Option ℕ)} {h : PacketHeader}
    (hres : i₀.resolve (Reply.arrival s.replies) = some i)
    (hack : TcpEyenet.ackIn s.sender i = some h) :
    ∃ l c₂ k c₃, ∃ e ∈ s.replies[k]?, ∃ p, s.sender.phase = .sending l ∧
      i₀ = .recv c₂ (some k) c₃ ∧ i = .recv c₂ (.datagram e.bytes) c₃ ∧
      l.currTs.val ∈ c.readings ∧ Echoes c l l.currTs.val e p h := by
  obtain ⟨l, c₂, k, c₃, e, he, hphase, hi₀, hi', hh, hacc⟩ := ackIn_reply hi.wired hres hack
  have hl : Looping c s.sender.tcp l := by
    have hst := hi.stands c (by simp)
    generalize s.sender = sender at hst hphase
    cases hst <;> simp_all
  have hfid : (ofBytes e.bytes).fid = c.call.fid := by
    simp only [Call.accepts, decide_eq_true_eq, hh] at hacc
    rw [hl.call, hacc.2]
  obtain ⟨p, hp, hsrc, hheader⟩ := hi.wired.answers ho (List.mem_of_getElem? he) hfid
  have hpkt := hl.packets p hp
  rw [← hh] at hheader
  have hseq : h.seqNum = p.header.seqNum := congrArg (·.seqNum) hheader
  have hts : h.sendTs = p.header.sendTs := congrArg (·.sendTs) hheader
  exact ⟨l, c₂, k, c₃, e, he, p, hphase, hi₀, hi', hl.clock, hl.call, hp, hsrc, hheader,
    hseq ▸ hpkt.1, hseq ▸ hpkt.2.1, hts ▸ hpkt.2.2⟩

omit [Controller T] in
theorem resolve_sendData {f : Option ℕ → Option Recv} {i₀ : Input (Option ℕ)} {call : Call}
    (h : i₀.resolve f = some (.sendData call)) : i₀ = .sendData call := by
  cases i₀ with
  | sendData call' =>
    obtain rfl := Input.sendData.inj (Option.some.inj h)
    rfl
  | _ => simp [Input.resolve] at h

/-- A turn of the sender within a cycle. -/
theorem System.Inv.within {s : System T} (hi : System.Inv (c :: cs) s) (ho : Orderly (c :: cs))
    {i₀ : Input (Option ℕ)} (hres : i₀.resolve (Reply.arrival s.replies) = some i)
    (hm : Move s.sender i r) (hcall : ∀ call, i ≠ .sendData call)
    (hfwd : (c.readings ++ i.readings).Pairwise (· ≤ ·)) :
    System.Inv
      (c.extend i.readings ((packetIn s.sender i).toList.map (Posted.mk s.sent.length)) :: cs)
      { s with sender := r.val, sent := s.sent ++ r.log.filterMap Event.datagram? } := by
  have hst := hi.stands c (by simp)
  have hfid : ∀ hdr ∈ packetIn s.sender i, hdr.fid = c.call.fid := by
    intro hdr hh
    obtain ⟨l, hphase, rfl⟩ := packetIn_eq_some hh
    generalize s.sender = sender at hst hphase
    cases hst with
    | sending hl =>
      obtain rfl := Phase.sending.inj hphase
      exact congrArg Call.fid hl.call.symm
    | _ => simp at hphase
  refine ⟨hi.wired.sender hm ?_ ?_ ?_, by simp, ?_⟩
  · intro c' hc' p hp
    rcases List.mem_cons.mp hc' with rfl | hc'
    · exact ⟨_, List.mem_cons_self, List.mem_append_left _ hp⟩
    · exact ⟨c', by simp [hc'], hp⟩
  · intro hdr hh
    refine ⟨_, List.mem_cons_self, List.mem_append_right _ ?_⟩
    exact List.mem_map.mpr ⟨hdr, Option.mem_toList.mpr hh, rfl⟩
  · intro c' hc' p hp
    rcases List.mem_cons.mp hc' with rfl | hc'
    · rcases List.mem_append.mp hp with hp | hp
      · exact hi.wired.named c (by simp) p hp
      · obtain ⟨hdr, hh, rfl⟩ := List.mem_map.mp hp
        exact hfid hdr (Option.mem_toList.mp hh)
    · exact hi.wired.named c' (by simp [hc']) p hp
  · rintro _ ⟨⟩
    refine move_stands hm hcall hst hfwd (fun l hl h hh => ?_) _
    obtain ⟨l', _, _, _, _, _, _, hphase, -, -, -, hech⟩ := hi.echoes ho hres hh
    obtain rfl := Phase.sending.inj (hl.symm.trans hphase)
    exact hech.seqNum_lt

theorem inv_step (ht : System.machine.Takes tr) (ho : Orderly (tr.src.record cs tr.input))
    (ho' : Orderly cs) (hi : System.Inv cs tr.src) :
    System.Inv (tr.src.record cs tr.input) tr.dst := by
  cases hin : tr.input with
  | receiver out t =>
    obtain ⟨buf, replies, hdst, hr⟩ := takes_receiver ht hin
    rw [hdst]
    exact ⟨hi.wired.receiver hr, hi.start, hi.stands⟩
  | sender i₀ =>
    obtain ⟨i, r, hres, hm, hdst⟩ := takes_sender ht hin
    rw [hin] at ho
    rw [hdst]
    by_cases hcall : ∃ call, i = .sendData call
    · obtain ⟨call, rfl⟩ := hcall
      obtain rfl := resolve_sendData hres
      refine ⟨hi.wired.sender hm ?_ ?_ ?_, by simp [System.record], ?_⟩
      · exact fun c hc p hp => ⟨c, List.mem_cons_of_mem _ hc, hp⟩
      · simp [packetIn_of_ne]
      · intro c hc p hp
        rcases List.mem_cons.mp hc with rfl | hc
        · simp at hp
        · exact hi.wired.named c hc p hp
      · rintro _ ⟨⟩
        generalize tr.src.sender = sender at hm
        cases hm with
        | sendData => exact .shaking _ _ rfl rfl
    · have hcall : ∀ call, i ≠ .sendData call := fun call hc => hcall ⟨call, hc⟩
      have hcall₀ : ∀ call, i₀ ≠ .sendData call := by
        rintro call rfl
        exact hcall call (Option.some.inj hres).symm
      rw [record_of_ne hcall₀] at ho ⊢
      cases cs with
      | nil =>
        obtain ⟨call, hc⟩ := move_idle hm (hi.start rfl)
        exact absurd hc (hcall call)
      | cons c cs =>
        rw [← resolve_readings hres, ← resolve_packetIn hres] at ho ⊢
        exact hi.within ho' hres hm hcall (ho.forward _ List.mem_cons_self)

theorem orderly_of_record {s : System T} {t : Turn} (h : Orderly (s.record cs t)) :
    Orderly cs := by
  cases t with
  | receiver out t => exact h
  | sender i =>
    by_cases hcall : ∃ call, i = .sendData call
    · obtain ⟨call, rfl⟩ := hcall
      exact
        { named := fun c hc => h.named c (List.mem_cons_of_mem _ hc)
          distinct := h.distinct.of_cons
          forward := fun c hc => h.forward c (List.mem_cons_of_mem _ hc) }
    · rw [record_of_ne fun call hc => hcall ⟨call, hc⟩] at h
      cases cs with
      | nil => exact h
      | cons c cs =>
        exact
          { named := List.forall_mem_cons.mpr (List.forall_mem_cons.mp h.named)
            distinct := h.distinct
            forward := by
              obtain ⟨hhead, htail⟩ := List.forall_mem_cons.mp h.forward
              exact List.forall_mem_cons.mpr ⟨(List.pairwise_append.mp hhead).1, htail⟩ }

theorem cycles_concat : cycles (trs ++ [tr]) = tr.src.record (cycles trs) tr.input := by
  simp [cycles]

theorem orderly_prefix {pre post : List (Transition (System T) Turn Event)}
    (h : Orderly (cycles (pre ++ post))) : Orderly (cycles pre) := by
  induction post using List.reverseRecOn with
  | nil => simpa using h
  | append_singleton post tr ih =>
    rw [← List.append_assoc, cycles_concat] at h
    exact ih (orderly_of_record h)

theorem inv_run {buf : Buf} {s : System T}
    (hr : System.machine.Run (System.fresh tcp buf) trs s) (ho : Orderly (cycles trs)) :
    System.Inv (cycles trs) s := by
  refine hr.history (I := fun trs s => Orderly (cycles trs) → System.Inv (cycles trs) s)
    (C := fun _ => True) (by simp) (fun _ => inv_fresh tcp buf) ?_ ho
  intro trs tr ht _ ih ho
  have ho' := orderly_prefix ho
  rw [cycles_concat] at ho ⊢
  exact inv_step ht ho ho' (ih ho')

/-- One turn, from what holds before it. -/
theorem System.Inv.authentic (hi : System.Inv cs tr.src) (ht : System.machine.Takes tr)
    (ho : Orderly (tr.src.record cs tr.input)) : Authentic cs tr := by
  have ho' := orderly_of_record ho
  cases hin : tr.input with
  | receiver out t =>
    obtain ⟨buf, replies, hdst, -⟩ := takes_receiver ht hin
    exact ⟨by rw [hdst], by simp [System.ackIn, hin]⟩
  | sender i₀ =>
    obtain ⟨i, r, hres, hm, hdst⟩ := takes_sender ht hin
    have hdelay : tr.dst.sender.tcp.delayAggr =
        tr.src.sender.tcp.delayAggr + delayIn tr.src.sender i := by
      rw [hdst]
      exact move_delayAggr hm
    have hackIn : tr.src.ackIn tr.input = TcpEyenet.ackIn tr.src.sender i := by
      rw [hin, System.ackIn, hres, Option.bind_some]
    rw [Authentic, hackIn, hdelay]
    cases hack : TcpEyenet.ackIn tr.src.sender i with
    | none => exact ⟨by rw [delayIn_of_none hack, add_zero], by simp⟩
    | some h =>
      cases cs with
      | nil =>
        obtain ⟨l, _, _, _, hphase, -⟩ := ackIn_eq_some hack
        exact absurd ((hi.start rfl).symm.trans hphase) (by simp)
      | cons c cs =>
        obtain ⟨l, c₂, k, c₃, e, he, p, hphase, rfl, rfl, hclock, hech⟩ := hi.echoes ho' hres hack
        -- the second reading of the turn is no earlier than the clock of the loop
        have hle : l.currTs.val ≤ c₃.val := by
          rw [hin, record_of_ne (by simp)] at ho
          have hfwd := ho.forward _ List.mem_cons_self
          exact (List.pairwise_append.mp hfwd).2.2 _ hclock _ (by simp [Input.readings])
        have hech := hech.mono hle
        have hterm : delayIn tr.src.sender (.recv c₂ (.datagram e.bytes) c₃) =
            c₃.val - h.sendTs.val := by
          simp [delayIn, hack]
        have hnonneg := sub_nonneg.mpr hech.sent_before
        rw [hterm]
        refine ⟨le_add_of_nonneg_right hnonneg, ?_⟩
        rintro _ ⟨⟩
        exact ⟨c, rfl, l, c₂, k, c₃, e, p, hphase, hin, he, hech, rfl⟩

/-- However the network loses, delays, repeats and reorders, every ack accepted in a cycle echoes
a packet that was sent earlier in that cycle, and none is above `seq_num`. -/
theorem acks_authentic {buf : Buf} {s : System T}
    (hr : System.machine.Run (System.fresh tcp buf) trs s) (ho : Orderly (cycles trs)) :
    (∀ pre tr post, trs = pre ++ tr :: post → Authentic (cycles pre) tr) ∧
      ∀ n ∈ s.sender.phase.seqNum, s.sender.tcp.largestAck ≤ n := by
  constructor
  · intro pre tr post heq
    obtain ⟨hpre, ht⟩ := hr.split heq
    have hsplit : trs = (pre ++ [tr]) ++ post := by simp [heq]
    rw [hsplit] at ho
    have hnext := orderly_prefix ho
    rw [cycles_concat] at hnext
    exact (inv_run hpre (orderly_of_record hnext)).authentic ht hnext
  · have hi := inv_run hr ho
    cases hc : cycles trs with
    | nil => simp [hi.start hc, Phase.seqNum]
    | cons c cs => exact (hi.stands c (by simp [hc])).largestAck

/-- A handshake, one window of packets, and the ack of the first. -/
def oneAck : List Turn :=
  ([.sender (.sendData ⟨5000, false, 1, 7⟩), .sender (.handshake ⟨0⟩ none),
    .receiver (some 0) ⟨0⟩, .sender (.handshake ⟨0⟩ (some 0)), .sender (.start ⟨0⟩ ⟨0⟩),
    .sender (.top ⟨0⟩)] : List Turn) ++
  List.replicate 10 (.sender .send) ++
  ([.receiver (some 1) ⟨0⟩, .sender (.recv ⟨0⟩ (some 1) ⟨0⟩)] : List Turn)

def freshSystem : System Eyenet := System.fresh (.new (Eyenet.new 1) 1) fun _ => 0

theorem oneAck_accepted : (System.machine.exec freshSystem oneAck).isSome := by
  decide +kernel

theorem acks_authentic_oneAck :
    ∃ trs s, System.machine.Run freshSystem trs s ∧
      (∃ tr ∈ trs, (tr.src.ackIn tr.input).isSome) ∧
      (∀ pre tr post, trs = pre ++ tr :: post → Authentic (cycles pre) tr) ∧
      ∀ n ∈ s.sender.phase.seqNum, s.sender.tcp.largestAck ≤ n := by
  have hr := Machine.exec_get_run oneAck_accepted
  have ho : Orderly (cycles (Option.get _ oneAck_accepted).1) :=
    ⟨by decide +kernel, by decide +kernel, by decide +kernel⟩
  exact ⟨_, _, hr, by decide +kernel, acks_authentic hr ho⟩

end TcpEyenet
