import TcpEyenet.EndToEnd.Authenticity

/-! What `npkts` counts over a network that may repeat datagrams. -/
namespace TcpEyenet

open TcpTransport PacketHeader

abbrev Step (T : Type) := Transition (System T) Turn Event

variable {T : Type} [Controller T] {s : Sender T} {i : Input Recv} {r : Traced Event (Sender T)}
  {c : Cycle} {cs : List Cycle} {tcp : TcpTransport T} {tr : Step T} {trs : List (Step T)} {k n : ℕ}

/-- The datagram of the sender that arrives at the receiver. -/
def Turn.arrival : Turn → Option ℕ
  | .receiver out _ => out
  | .sender _ => none

/-- The reply that arrives at the sender. -/
def Turn.delivery : Turn → Option ℕ
  | .sender (.recv _ out _) => out
  | .sender (.handshake _ out) => out
  | _ => none

/-- The reply that a turn makes the sender accept as an ack. -/
def System.acceptedIn (s : System T) (t : Turn) : Option ℕ :=
  if (s.ackIn t).isSome then t.delivery else none

/-- All that arrived at the receiver, in the order of its replies. -/
def arrivals (trs : List (Step T)) : List ℕ := trs.filterMap fun tr => tr.input.arrival

def deliveries (trs : List (Step T)) : List ℕ := trs.filterMap fun tr => tr.input.delivery

def accepted (trs : List (Step T)) : List ℕ := trs.filterMap fun tr => tr.src.acceptedIn tr.input

/-- The datagrams that the accepted acks answer. -/
def credits (trs : List (Step T)) : List ℕ := (accepted trs).filterMap fun k => (arrivals trs)[k]?

/-- The data packets of a call that reached the receiver. -/
def reached (c : Cycle) (trs : List (Step T)) : Finset ℕ :=
  (c.packets.map Posted.pos).toFinset ∩ (arrivals trs).toFinset

/-- The call that the sender is in. -/
def Phase.call : Phase → Option Call
  | .shaking call _ _ | .connected call => some call
  | .top l | .sending l => some l.call
  | .idle | .dead => none

/-- There was one call at most, and the greeting does not go by its name. -/
structure Sole (cs : List Cycle) : Prop where
  length_le : cs.length ≤ 1
  named : ∀ c ∈ cs, c.call.accepts hello = false

/-- What ties `npkts` to the two streams of datagrams. -/
structure Credited (cs : List Cycle) (trs : List (Step T)) (s : System T) : Prop where
  wired : Wired cs s
  idle : cs = [] → s.sender.phase = .idle
  call : ∀ c ∈ cs, ∀ call ∈ s.sender.phase.call, call = c.call
  sources : s.replies.map Reply.source = arrivals trs
  npkts : s.sender.tcp.npkts = (accepted trs).length
  answered : ∀ k ∈ accepted trs, ∃ n ∈ (arrivals trs)[k]?, ∃ c ∈ cs, n ∈ c.packets.map Posted.pos
  returned : ∀ c ∈ cs, s.sender.phase = .idle → c.call.byteSwitcher →
    c.call.fsz ≤ s.sender.tcp.npkts * payload

omit [Controller T] in
theorem arrivals_concat : arrivals (trs ++ [tr]) = arrivals trs ++ tr.input.arrival.toList := by
  rw [arrivals, arrivals, List.filterMap_append]
  cases h : tr.input.arrival <;> simp [h]

omit [Controller T] in
theorem accepted_concat :
    accepted (trs ++ [tr]) = accepted trs ++ (tr.src.acceptedIn tr.input).toList := by
  rw [accepted, accepted, List.filterMap_append]
  cases h : tr.src.acceptedIn tr.input <;> simp [h]

omit [Controller T] in
theorem accepted_sublist : (accepted trs).Sublist (deliveries trs) := by
  induction trs with
  | nil => exact List.Sublist.refl _
  | cons tr trs ih =>
    simp only [accepted, deliveries, List.filterMap_cons, System.acceptedIn] at ih ⊢
    cases tr.input.delivery with
    | none => simpa using ih
    | some k =>
      split_ifs
      · exact ih.cons_cons k
      · exact ih.cons k

theorem move_call {call : Call} (h : Move s i r) (hi : ∀ call, i ≠ .sendData call)
    (hc : call ∈ r.val.phase.call) : call ∈ s.phase.call := by
  cases h with
  | sendData tcp call => exact absurd rfl (hi call)
  | handshake tcp call' buf lastSTs c out =>
    simp only [shake, Traced.bind_val] at hc
    split_ifs at hc <;> exact hc
  | start => exact hc
  | enter => exact hc
  | finish => simp [finish, Phase.call] at hc
  | crash => simp [Phase.call] at hc
  | send tcp l ht =>
    by_cases hbn : tcp.bnTrain = 0
    · rw [sendOne_of_eq hbn] at hc
      simp [Phase.call] at hc
    · rw [sendOne_of_ne hbn] at hc
      simp only [advance] at hc
      split_ifs at hc
      · exact hc
      · simp [Phase.call] at hc
  | receive tcp l c₂ out c₃ ht =>
    obtain ⟨log, -, -, h | h | h⟩ := receive_cases (test_eq_false ht).2.1 l c₂ out c₃
    · obtain ⟨-, cong, -, hv⟩ := h
      rw [hv] at hc
      exact hc
    · rw [h.2.2] at hc
      exact hc
    · obtain ⟨-, -, cong, rateEst, -, hv⟩ := h
      rw [hv] at hc
      exact hc

/-- A call returns once its size is reached. -/
theorem move_returns (h : Move s i r) (hi : r.val.phase = .idle) :
    ∃ l, s.phase = .top l ∧ ¬ s.tcp.switchSz l < l.call.fsz ∧ r.val.tcp.npkts = s.tcp.npkts := by
  cases h with
  | finish tcp l c hsz => exact ⟨l, rfl, hsz, rfl⟩
  | handshake tcp call buf lastSTs c out =>
    simp only [shake, Traced.bind_val] at hi
    split_ifs at hi
  | send tcp l ht =>
    by_cases hbn : tcp.bnTrain = 0
    · rw [sendOne_of_eq hbn] at hi
      simp at hi
    · rw [sendOne_of_ne hbn] at hi
      simp only [advance] at hi
      split_ifs at hi
  | receive tcp l c₂ out c₃ ht =>
    obtain ⟨log, -, -, h | h | h⟩ := receive_cases (test_eq_false ht).2.1 l c₂ out c₃
    · obtain ⟨-, cong, -, hv⟩ := h
      simp [hv] at hi
    · simp [h.2.2] at hi
    · obtain ⟨-, -, cong, rateEst, -, hv⟩ := h
      simp [hv] at hi
  | _ => simp [start, enter] at hi

/-- Every datagram that arrives at the receiver is answered. -/
theorem ackPackets_length (buf : Buf) (d : List UInt8) (t : Double) :
    (ackPackets buf (.datagram d) t).log.length = 1 := by
  have hrc : (recvData recvBufSz (.datagram d) buf).val.rc ≠ -1 := by
    change ((d.take recvBufSz).length : ℤ) ≠ -1
    omega
  simp only [ackPackets, if_neg hrc, List.length_singleton]

theorem takes_arrival (ht : System.machine.Takes tr) {out : Option ℕ} {t : Double}
    (hi : tr.input = .receiver out t) :
    tr.dst.replies.map Reply.source = tr.src.replies.map Reply.source ++ out.toList := by
  simp only [Machine.Takes, System.machine, System.step, System.receiverStep, hi] at ht
  cases out with
  | none =>
    have hdst : tr.dst = _ := (congrArg Traced.val (Option.some.inj ht)).symm
    rw [hdst]
    exact (List.append_nil _).symm
  | some n =>
    simp only [bind, Option.bind_eq_some_iff] at ht
    obtain ⟨d, hd, hsome⟩ := ht
    have hdst : tr.dst = _ := (congrArg Traced.val (Option.some.inj hsome)).symm
    obtain ⟨ack, hack⟩ := List.length_eq_one_iff.mp (ackPackets_length tr.src.receiver d t)
    rw [hdst]
    simp [hack]

theorem Sole.tail_eq_nil (h : Sole (c :: cs)) : cs = [] := by
  have hlen := h.length_le
  rw [List.length_cons] at hlen
  exact List.length_eq_zero_iff.mp (by omega)

/-- A turn of the receiver. -/
theorem Credited.receiver (h : Credited cs trs tr.src) (ht : System.machine.Takes tr)
    {out : Option ℕ} {t : Double} (hi : tr.input = .receiver out t) :
    Credited cs (trs ++ [tr]) tr.dst := by
  have hsrc := takes_arrival ht hi
  obtain ⟨buf, replies, hdst, hr⟩ := takes_receiver ht hi
  have hacc : accepted (trs ++ [tr]) = accepted trs := by
    rw [accepted_concat, hi]
    simp [System.acceptedIn, System.ackIn]
  have harr : arrivals (trs ++ [tr]) = arrivals trs ++ out.toList := by
    rw [arrivals_concat, hi]
    rfl
  refine ⟨?_, ?_, ?_, ?_, ?_, ?_, ?_⟩
  · rw [hdst]
    exact h.wired.receiver hr
  · rw [hdst]
    exact h.idle
  · rw [hdst]
    exact h.call
  · rw [hsrc, harr, h.sources]
  · rw [hdst, hacc]
    exact h.npkts
  · rw [hacc, harr]
    intro k hk
    obtain ⟨n, hn, hc⟩ := h.answered k hk
    obtain ⟨hlt, -⟩ := List.getElem?_eq_some_iff.mp hn
    exact ⟨n, by rwa [List.getElem?_append_left hlt], hc⟩
  · rw [hdst]
    exact h.returned

/-- The first call begins. -/
theorem Credited.begin {call : Call} (h : Credited [] trs tr.src)
    (ht : System.machine.Takes tr) (hi : tr.input = .sender (.sendData call)) :
    Credited [⟨call, [], []⟩] (trs ++ [tr]) tr.dst := by
  obtain ⟨i, r, hres, hm, hdst⟩ := takes_sender ht hi
  obtain rfl : i = .sendData call := (Option.some.inj hres).symm
  have hacc : accepted (trs ++ [tr]) = accepted trs := by
    rw [accepted_concat, hi]
    simp [System.acceptedIn, Turn.delivery]
  have harr : arrivals (trs ++ [tr]) = arrivals trs := by
    rw [arrivals_concat, hi]
    exact List.append_nil _
  have hnone : accepted trs = [] := by
    rw [List.eq_nil_iff_forall_not_mem]
    intro k hk
    obtain ⟨n, hn, c, hc, -⟩ := h.answered k hk
    simp at hc
  have hwired : Wired [⟨call, [], []⟩] tr.dst := by
    rw [hdst]
    refine h.wired.sender hm (by simp) (by simp [packetIn_of_ne]) (by simp)
  have hnpkts := move_npkts hm
  have hphase : r.val.phase.call = some call ∧ r.val.phase ≠ .idle := by
    generalize tr.src.sender = sender at hm
    cases hm with
    | sendData => exact ⟨rfl, by simp⟩
  have hsender : tr.dst.sender = r.val := by rw [hdst]
  refine ⟨hwired, by simp, ?_, ?_, ?_, ?_, ?_⟩
  · simp [hsender, hphase.1]
  · rw [harr, ← h.sources, hdst]
  · rw [hsender, hnpkts, h.npkts, hacc]
    simp [ackIn_eq_none]
  · simp [hacc, hnone]
  · intro c hc hidle
    rw [hsender] at hidle
    exact absurd hidle hphase.2

omit [Controller T] in
theorem Wired.credits {s : System T} (h : Wired [c] s) (hname : c.call.accepts hello = false)
    {e : Reply} (he : e ∈ s.replies) (hacc : c.call.accepts (ofBytes e.bytes)) :
    e.source ∈ c.packets.map Posted.pos := by
  obtain ⟨-, d, hd, t, hbytes⟩ := h.replies e he
  obtain ⟨-, hhello | ⟨c', hc', hp⟩⟩ := h.sent _ d hd
  · rw [hbytes, hhello] at hacc
    exact absurd (hname.symm.trans hacc) (by decide)
  · obtain rfl := List.mem_singleton.mp hc'
    exact List.mem_map.mpr ⟨_, hp, rfl⟩

omit [Controller T] in
theorem acceptedIn_length {s : System T} {i₀ : Input (Option ℕ)}
    (hres : i₀.resolve (Reply.arrival s.replies) = some i) (hw : Wired cs s) :
    (s.acceptedIn (.sender i₀)).toList.length = (ackIn s.sender i).toList.length := by
  have hack : s.ackIn (.sender i₀) = ackIn s.sender i := by
    rw [System.ackIn, hres, Option.bind_some]
  rw [System.acceptedIn, hack]
  cases h : ackIn s.sender i with
  | none => simp
  | some hdr =>
    obtain ⟨l, c₂, k, c₃, e, he, -, rfl, -⟩ := ackIn_reply hw hres h
    rfl

omit [Controller T] in
theorem acceptedIn_eq_some {s : System T} {i₀ : Input (Option ℕ)}
    (hres : i₀.resolve (Reply.arrival s.replies) = some i) (hw : Wired cs s)
    (hk : s.acceptedIn (.sender i₀) = some k) :
    ∃ l, ∃ e ∈ s.replies[k]?, s.sender.phase = .sending l ∧ l.call.accepts (ofBytes e.bytes) := by
  rw [System.acceptedIn, System.ackIn, hres, Option.bind_some] at hk
  split_ifs at hk with hsome
  obtain ⟨hdr, hh⟩ := Option.isSome_iff_exists.mp hsome
  obtain ⟨l, c₂, k', c₃, e, he, hphase, rfl, -, rfl, hacc⟩ := ackIn_reply hw hres hh
  obtain rfl : k' = k := Option.some.inj hk
  exact ⟨l, e, he, hphase, hacc⟩

section Within

variable {s₀ : System T} {i₀ : Input (Option ℕ)}

omit [Controller T] in
/-- The sender is in the call of the record. -/
theorem Credited.call_eq (h : Credited [c] trs s₀) {call : Call}
    (hcall : s₀.sender.phase.call = some call) : call = c.call :=
  h.call c (List.mem_singleton_self c) call hcall

theorem Credited.wired_within (h : Credited [c] trs s₀)
    (hres : i₀.resolve (Reply.arrival s₀.replies) = some i) (hm : Move s₀.sender i r) :
    Wired [c.extend i₀.readings
      ((packetIn s₀.sender i₀).toList.map (Posted.mk s₀.sent.length))]
      { s₀ with sender := r.val, sent := s₀.sent ++ r.log.filterMap Event.datagram? } := by
  refine h.wired.sender hm ?_ ?_ ?_
  · intro c' hc' p hp
    obtain rfl := List.mem_singleton.mp hc'
    exact ⟨_, List.mem_singleton_self _, List.mem_append_left _ hp⟩
  · intro hdr hh
    rw [resolve_packetIn hres] at hh
    refine ⟨_, List.mem_singleton_self _, List.mem_append_right _ ?_⟩
    exact List.mem_map.mpr ⟨hdr, Option.mem_toList.mpr hh, rfl⟩
  · intro c' hc' p hp
    obtain rfl := List.mem_singleton.mp hc'
    rcases List.mem_append.mp hp with hp | hp
    · exact h.wired.named c (List.mem_singleton_self c) p hp
    · obtain ⟨hdr, hh, rfl⟩ := List.mem_map.mp hp
      rw [← resolve_packetIn hres, Option.mem_toList] at hh
      obtain ⟨l, hphase, rfl⟩ := packetIn_eq_some hh
      exact congrArg Call.fid (h.call_eq (by rw [hphase]; rfl))

omit [Controller T] in
/-- What a turn accepts is the ack of a packet of the call. -/
theorem Credited.answered_within (h : Credited [c] trs s₀)
    (hres : i₀.resolve (Reply.arrival s₀.replies) = some i)
    (hname : c.call.accepts hello = false) (readings : List ℚ) (posts : List Posted) :
    ∀ k ∈ accepted trs ++ (s₀.acceptedIn (.sender i₀)).toList, ∃ n ∈ (arrivals trs)[k]?,
      ∃ c' ∈ [c.extend readings posts], n ∈ c'.packets.map Posted.pos := by
  have hkept : ∀ n ∈ c.packets.map Posted.pos,
      n ∈ (c.extend readings posts).packets.map Posted.pos := by
    intro n hn
    simp only [Cycle.extend, List.map_append]
    exact List.mem_append_left _ hn
  intro k hk
  rcases List.mem_append.mp hk with hk | hk
  · obtain ⟨n, hn, c', hc', hp⟩ := h.answered k hk
    obtain rfl := List.mem_singleton.mp hc'
    exact ⟨n, hn, _, List.mem_singleton_self _, hkept n hp⟩
  · obtain ⟨l, e, he, hphase, hacc⟩ := acceptedIn_eq_some hres h.wired (Option.mem_toList.mp hk)
    have hl : l.call = c.call := h.call_eq (by rw [hphase]; rfl)
    have hsrc : (arrivals trs)[k]? = some e.source := by
      rw [← h.sources, List.getElem?_map, he, Option.map_some]
    exact ⟨e.source, hsrc, _, List.mem_singleton_self _,
      hkept _ (h.wired.credits hname (List.mem_of_getElem? he) (hl ▸ hacc))⟩

/-- The call returns when enough bytes have been acked. -/
theorem Credited.returned_within (h : Credited [c] trs s₀) (hm : Move s₀.sender i r)
    (hidle : r.val.phase = .idle) (hbyte : c.call.byteSwitcher) :
    c.call.fsz ≤ r.val.tcp.npkts * payload := by
  obtain ⟨l, hphase, hsz, hnpkts⟩ := move_returns hm hidle
  have hl : l.call = c.call := h.call_eq (by rw [hphase]; rfl)
  have hbyte : l.call.byteSwitcher = true := by
    rw [hl]
    exact hbyte
  rw [switchSz, if_pos hbyte, hl] at hsz
  rw [hnpkts]
  exact not_lt.mp hsz

/-- A turn of the sender within the call. -/
theorem Credited.within (h : Credited [c] trs tr.src) (ht : System.machine.Takes tr)
    (hname : c.call.accepts hello = false) {i₀ : Input (Option ℕ)} (hi : tr.input = .sender i₀)
    (hcall : ∀ call, i₀ ≠ .sendData call) :
    Credited [c.extend i₀.readings
      ((packetIn tr.src.sender i₀).toList.map (Posted.mk tr.src.sent.length))]
      (trs ++ [tr]) tr.dst := by
  obtain ⟨i, r, hres, hm, hdst⟩ := takes_sender ht hi
  have hcall' : ∀ call, i ≠ .sendData call := by
    rintro call rfl
    exact hcall call (resolve_sendData hres)
  have harr : arrivals (trs ++ [tr]) = arrivals trs := by
    rw [arrivals_concat, hi]
    exact List.append_nil _
  have hsender : tr.dst.sender = r.val := by rw [hdst]
  refine ⟨?_, by simp, ?_, ?_, ?_, ?_, ?_⟩
  · rw [hdst]
    exact h.wired_within hres hm
  · intro c' hc' call hc
    obtain rfl := List.mem_singleton.mp hc'
    rw [hsender] at hc
    exact h.call_eq (move_call hm hcall' hc)
  · rw [harr, ← h.sources, hdst]
  · rw [hsender, move_npkts hm, h.npkts, accepted_concat, hi, List.length_append,
      acceptedIn_length hres h.wired]
    push_cast
    rfl
  · rw [accepted_concat, harr, hi]
    exact h.answered_within hres hname _ _
  · intro c' hc' hidle hbyte
    obtain rfl := List.mem_singleton.mp hc'
    rw [hsender] at hidle ⊢
    exact h.returned_within hm hidle hbyte

end Within

theorem sole_of_record {s : System T} {t : Turn} (h : Sole (s.record cs t)) : Sole cs := by
  cases t with
  | receiver out t => exact h
  | sender i =>
    by_cases hcall : ∃ call, i = .sendData call
    · obtain ⟨call, rfl⟩ := hcall
      obtain rfl := Sole.tail_eq_nil h
      exact ⟨by simp, by simp⟩
    · rw [record_of_ne fun call hc => hcall ⟨call, hc⟩] at h
      cases cs with
      | nil => exact h
      | cons c cs => exact ⟨h.length_le, List.forall_mem_cons.mpr (List.forall_mem_cons.mp h.named)⟩

theorem credited_step (ht : System.machine.Takes tr) (hs : Sole (tr.src.record cs tr.input))
    (h : Credited cs trs tr.src) :
    Credited (tr.src.record cs tr.input) (trs ++ [tr]) tr.dst := by
  have hs' := sole_of_record hs
  cases hi : tr.input with
  | receiver out t => exact h.receiver ht hi
  | sender i₀ =>
    rw [hi] at hs
    by_cases hcall : ∃ call, i₀ = .sendData call
    · obtain ⟨call, rfl⟩ := hcall
      obtain rfl := Sole.tail_eq_nil hs
      exact h.begin ht hi
    · have hcall : ∀ call, i₀ ≠ .sendData call := fun call hc => hcall ⟨call, hc⟩
      rw [record_of_ne hcall]
      cases cs with
      | nil =>
        obtain ⟨i, r, hres, hm, -⟩ := takes_sender ht hi
        obtain ⟨call, rfl⟩ := move_idle hm (h.idle rfl)
        exact absurd (resolve_sendData hres) (hcall call)
      | cons c cs =>
        obtain rfl := Sole.tail_eq_nil hs'
        exact h.within ht (hs'.named c (by simp)) hi hcall

theorem credited_run {cong : T} {bnTrain : ℤ} {buf : Buf} {s : System T}
    (hr : System.machine.Run (System.fresh (.new cong bnTrain) buf) trs s)
    (hs : Sole (cycles trs)) : Credited (cycles trs) trs s := by
  refine hr.history (I := fun trs s => Sole (cycles trs) → Credited (cycles trs) trs s)
    (C := fun _ => True) (by simp) (fun _ => ?_) ?_ hs
  · exact ⟨wired_fresh _ _, fun _ => rfl, by simp [cycles], rfl, rfl, by simp [accepted],
      by simp [cycles]⟩
  · intro trs tr ht _ ih hs
    rw [cycles_concat] at hs ⊢
    exact credited_step ht hs (ih (sole_of_record hs))

omit [Controller T] in
theorem Credited.length_credits {s : System T} (h : Credited cs trs s) :
    (credits trs).length = (accepted trs).length := by
  rw [credits, List.filterMap_length_eq_length]
  intro k hk
  obtain ⟨n, hn, -⟩ := h.answered k hk
  exact Option.isSome_of_mem hn

omit [Controller T] in
theorem Credited.reached {s : System T} (h : Credited [c] trs s) :
    ∀ n ∈ credits trs, n ∈ reached c trs := by
  intro n hn
  obtain ⟨k, hk, hkn⟩ := List.mem_filterMap.mp hn
  obtain ⟨n', hn', c', hc', hp⟩ := h.answered k hk
  obtain rfl := List.mem_singleton.mp hc'
  obtain rfl : n = n' := Option.some.inj (hkn.symm.trans hn')
  rw [TcpEyenet.reached, Finset.mem_inter, List.mem_toFinset, List.mem_toFinset]
  exact ⟨hp, List.mem_of_getElem? hkn⟩

omit [Controller T] in
/-- Where nothing arrives twice, nothing is credited twice. -/
theorem credits_nodup (ha : (arrivals trs).Nodup) (hd : (deliveries trs).Nodup) :
    (credits trs).Nodup := by
  refine List.Nodup.filterMap ?_ (accepted_sublist.nodup hd)
  intro k k' n hk hk'
  obtain ⟨hlt, -⟩ := List.getElem?_eq_some_iff.mp hk
  exact (List.getElem?_inj hlt ha).mp (hk.trans hk'.symm)

/-- In the first call `npkts` counts the acks that were accepted, each for a data packet that
reached the receiver. If no datagram arrives twice at either end, they are for distinct ones. -/
theorem npkts_credited {cong : T} {bnTrain : ℤ} {buf : Buf} {s : System T}
    (hr : System.machine.Run (System.fresh (.new cong bnTrain) buf) trs s)
    (hone : cycles trs = [c]) (hname : c.call.accepts hello = false) :
    s.sender.tcp.npkts = (credits trs).length ∧ (∀ n ∈ credits trs, n ∈ reached c trs) ∧
      ((arrivals trs).Nodup → (deliveries trs).Nodup →
        s.sender.tcp.npkts ≤ (reached c trs).card ∧
        (s.sender.phase.isIdle → c.call.byteSwitcher →
          c.call.fsz ≤ (credits trs).toFinset.card * payload)) := by
  have h : Credited [c] trs s :=
    hone ▸ credited_run hr (by rw [hone]; exact ⟨by simp, by simpa using hname⟩)
  have hnpkts : s.sender.tcp.npkts = (credits trs).length := by
    rw [h.npkts, h.length_credits]
  refine ⟨hnpkts, h.reached, fun ha hd => ?_⟩
  have hcard : (credits trs).toFinset.card = (credits trs).length :=
    List.toFinset_card_of_nodup (credits_nodup ha hd)
  constructor
  · have hsub : (credits trs).toFinset ⊆ reached c trs :=
      fun n hn => h.reached n (List.mem_toFinset.mp hn)
    have hle := Finset.card_le_card hsub
    rw [hcard] at hle
    rw [hnpkts]
    exact_mod_cast hle
  · intro hidle hbyte
    have hphase : s.sender.phase = .idle := Phase.isIdle_iff.mp hidle
    have hsz := h.returned c (by simp) hphase hbyte
    rw [hnpkts] at hsz
    rw [hcard]
    exact_mod_cast hsz

/-- A handshake, a window of packets, and the ack of packet 0. -/
def firstEcho (fsz : ℚ) : List Turn :=
  ([.sender (.sendData ⟨fsz, true, 1, 7⟩), .sender (.handshake ⟨0⟩ none), .receiver (some 0) ⟨0⟩,
    .sender (.handshake ⟨0⟩ (some 0)), .sender (.start ⟨0⟩ ⟨0⟩), .sender (.top ⟨0⟩)] : List Turn) ++
  List.replicate 10 (.sender .send) ++
  ([.receiver (some 1) ⟨0⟩, .sender (.recv ⟨0⟩ (some 1) ⟨0⟩), .sender (.top ⟨0⟩)] : List Turn)

theorem firstEcho_accepted : (System.machine.exec freshSystem (firstEcho 1408)).isSome := by
  decide +kernel

theorem npkts_credited_firstEcho :
    ∃ trs s c, System.machine.Run freshSystem trs s ∧ cycles trs = [c] ∧
      s.sender.tcp.npkts = (credits trs).length ∧ s.sender.tcp.npkts ≤ (reached c trs).card ∧
      c.call.fsz ≤ (credits trs).toFinset.card * payload := by
  have hc : ∃ c ∈ (cycles (Option.get _ firstEcho_accepted).1).head?,
      cycles (Option.get _ firstEcho_accepted).1 = [c] ∧ c.call.byteSwitcher ∧
      c.call.accepts hello = false := by
    decide +kernel
  have hidle : (Option.get _ firstEcho_accepted).2.sender.phase.isIdle := by decide +kernel
  have ha : (arrivals (Option.get _ firstEcho_accepted).1).Nodup ∧
      (deliveries (Option.get _ firstEcho_accepted).1).Nodup := by
    decide +kernel
  obtain ⟨c, -, hone, hbyte, hname⟩ := hc
  have hr := Machine.exec_get_run firstEcho_accepted
  obtain ⟨hnpkts, -, hdistinct⟩ := npkts_credited hr hone hname
  obtain ⟨hle, hfsz⟩ := hdistinct ha.1 ha.2
  exact ⟨_, _, c, hr, hone, hnpkts, hle, hfsz hidle hbyte⟩

/-- The network brings the ack of packet 0 a second time. -/
def repeatedEcho : List Turn :=
  firstEcho 2816 ++ List.replicate 2 (.sender .send) ++
    ([.sender (.recv ⟨0⟩ (some 1) ⟨0⟩), .sender (.top ⟨0⟩)] : List Turn)

theorem repeatedEcho_accepted : (System.machine.exec freshSystem repeatedEcho).isSome := by
  decide +kernel

/-- A call for the payload of two packets returns though only one reached the receiver. -/
theorem npkts_exceeds :
    ∃ trs s c, System.machine.Run freshSystem trs s ∧ cycles trs = [c] ∧ c.call.byteSwitcher ∧
      s.sender.phase.isIdle ∧ ((reached c trs).card : ℤ) < s.sender.tcp.npkts ∧
      (credits trs).toFinset.card * payload < c.call.fsz := by
  have hc : ∃ c ∈ (cycles (Option.get _ repeatedEcho_accepted).1).head?,
      cycles (Option.get _ repeatedEcho_accepted).1 = [c] ∧ c.call.byteSwitcher ∧
      (reached c (Option.get _ repeatedEcho_accepted).1).card = 1 ∧
      (credits (Option.get _ repeatedEcho_accepted).1).toFinset.card * payload < c.call.fsz := by
    decide +kernel
  have hidle : (Option.get _ repeatedEcho_accepted).2.sender.phase.isIdle := by decide +kernel
  have hnpkts : (Option.get _ repeatedEcho_accepted).2.sender.tcp.npkts = 2 := by decide +kernel
  obtain ⟨c, -, hone, hbyte, hreached, hcredits⟩ := hc
  refine ⟨_, _, c, Machine.exec_get_run repeatedEcho_accepted, hone, hbyte, hidle, ?_, hcredits⟩
  rw [hreached, hnpkts]
  decide

end TcpEyenet
