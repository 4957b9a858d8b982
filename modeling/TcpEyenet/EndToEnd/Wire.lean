import TcpEyenet.EndToEnd.Model

/-! What is under way between the sender and the receiver. -/
namespace TcpEyenet

open TcpTransport PacketHeader

variable {T : Type} [Controller T] {s : Sender T} {i : Input Recv} {r : Traced Event (Sender T)}
  {cs : List Cycle} {tr : Transition (System T) Turn Event} {i₀ : Input (Option ℕ)} {d : List UInt8}

theorem move_sent_length (h : Move s i r) : (r.log.filterMap Event.datagram?).length ≤ 1 := by
  cases h with
  | handshake tcp call buf lastSTs c out =>
    simp only [shake, greet, Traced.bind_log, Traced.report_log, Traced.ite_log]
    split_ifs
    · simp
    · simp
    · exact List.length_filterMap_le _ _
    · exact List.length_filterMap_le _ _
  | crash tcp l => simp [filterMap_quiet (test_log tcp l)]
  | send tcp l =>
    rw [List.filterMap_append, filterMap_quiet (test_log tcp l), sendOne_datagrams]
    rfl
  | sendData => simp
  | start tcp call t₀ t₁ => simp [move_datagrams (.start tcp call t₀ t₁) rfl]
  | enter tcp l c h => simp [move_datagrams (.enter tcp l c h) rfl]
  | finish tcp l c h => simp [move_datagrams (.finish tcp l c h) rfl]
  | receive tcp l c₂ out c₃ h => simp [move_datagrams (.receive tcp l c₂ out c₃ h) rfl]

/-- Whatever the sender sends holds a header: the greeting, or that of a data packet. -/
theorem move_header (h : Move s i r) (hd : d ∈ r.log.filterMap Event.datagram?) :
    hdrSz ≤ d.length ∧ (ofBytes d = hello ∨ packetIn s i = some (ofBytes d)) := by
  have hs := move_sent h d hd
  cases h with
  | handshake tcp call buf lastSTs c out =>
    obtain rfl := Option.some.inj hs
    exact ⟨by simp [hdrSz], .inl (ofBytes_load_store hello buf (by decide))⟩
  | send tcp l ht =>
    obtain rfl := Option.some.inj hs
    refine ⟨by simp [hdrSz, pktSz], .inr ?_⟩
    rw [stamped, ofBytes_load_store _ _ (by decide)]
    simp [packetIn, ht]
  | crash tcp l => simp [filterMap_quiet (test_log tcp l)] at hd
  | _ => simp [sentIn] at hs

/-- A turn of the sender is a step of the sender on what the network brings it. -/
theorem takes_sender (ht : System.machine.Takes tr) (hi : tr.input = .sender i₀) :
    ∃ i r, i₀.resolve (Reply.arrival tr.src.replies) = some i ∧ Move tr.src.sender i r ∧
      tr.dst = { tr.src with
        sender := r.val
        sent := tr.src.sent ++ r.log.filterMap Event.datagram? } := by
  simp only [Machine.Takes, System.machine, System.step, System.senderStep, hi, bind,
    Option.bind_eq_some_iff] at ht
  obtain ⟨i, hres, r, hr, hdst⟩ := ht
  exact ⟨i, r, hres, step_move hr, (congrArg Traced.val (Option.some.inj hdst)).symm⟩

/-- A turn of the receiver adds at most the ack of something that was sent. -/
theorem takes_receiver (ht : System.machine.Takes tr) {out : Option ℕ} {c : Double}
    (hi : tr.input = .receiver out c) :
    ∃ buf replies, tr.dst = { tr.src with receiver := buf, replies := tr.src.replies ++ replies } ∧
      ∀ e ∈ replies, ∃ d ∈ tr.src.sent[e.source]?, hdrSz ≤ d.length →
        e.bytes.length = hdrSz ∧ ofBytes e.bytes = { ofBytes d with recvTs := c } := by
  simp only [Machine.Takes, System.machine, System.step, System.receiverStep, hi] at ht
  cases out with
  | none => exact ⟨_, [], by simpa using (congrArg Traced.val (Option.some.inj ht)).symm, by simp⟩
  | some n =>
    simp only [bind, Option.bind_eq_some_iff] at ht
    obtain ⟨d, hd, hdst⟩ := ht
    refine ⟨_, _, (congrArg Traced.val (Option.some.inj hdst)).symm, ?_⟩
    intro e he
    obtain ⟨ack, hack, rfl⟩ := List.mem_map.mp he
    refine ⟨d, hd, fun hlen => ?_⟩
    obtain ⟨ack', hlog, hlen', hbytes⟩ := ackPackets_datagram hlen tr.src.receiver c
    obtain rfl : ack = ack' := by simpa [hlog] using hack
    exact ⟨hlen', hbytes⟩

theorem resolve_readings {ρ ρ' : Type} {f : ρ → Option ρ'} {i : Input ρ} {i' : Input ρ'}
    (h : i.resolve f = some i') : i'.readings = i.readings := by
  cases i with
  | handshake | recv =>
    obtain ⟨out, -, rfl⟩ := Option.map_eq_some_iff.mp h
    rfl
  | _ => exact Option.some.inj h ▸ rfl

theorem packetIn_of_ne {ρ : Type} {s : Sender T} {i : Input ρ} (h : i ≠ .send) :
    packetIn s i = none := by
  unfold packetIn
  split
  · exact absurd rfl h
  · rfl

theorem resolve_packetIn {ρ ρ' : Type} {f : ρ → Option ρ'} {i : Input ρ} {i' : Input ρ'}
    (h : i.resolve f = some i') (s : Sender T) : packetIn s i' = packetIn s i := by
  cases i with
  | send =>
    obtain rfl := Option.some.inj h
    unfold packetIn
    cases s.phase <;> rfl
  | handshake | recv =>
    obtain ⟨out, -, rfl⟩ := Option.map_eq_some_iff.mp h
    rw [packetIn_of_ne (by simp), packetIn_of_ne (by simp)]
  | _ =>
    obtain rfl := Option.some.inj h
    rw [packetIn_of_ne (by simp), packetIn_of_ne (by simp)]

/-- Only greetings and packets that meet `P` at their place are under way, and acks of these. -/
structure Carries (P : ℕ → PacketHeader → Prop) (s : System T) : Prop where
  sent : ∀ n, ∀ d ∈ s.sent[n]?, hdrSz ≤ d.length ∧ (ofBytes d = hello ∨ P n (ofBytes d))
  replies : ∀ e ∈ s.replies, hdrSz ≤ e.bytes.length ∧
    ∃ d ∈ s.sent[e.source]?, ∃ t, ofBytes e.bytes = { ofBytes d with recvTs := t }

section Carries

variable {P P' : ℕ → PacketHeader → Prop} {s : System T}

omit [Controller T] in
theorem carries_fresh (P : ℕ → PacketHeader → Prop) (tcp : TcpTransport T) (buf : Buf) :
    Carries P (System.fresh tcp buf) :=
  ⟨by simp [System.fresh], by simp [System.fresh]⟩

omit [Controller T] in
theorem Carries.receiver (h : Carries P s) {buf : Buf} {replies : List Reply} {t : Double}
    (hr : ∀ e ∈ replies, ∃ d ∈ s.sent[e.source]?, hdrSz ≤ d.length →
      e.bytes.length = hdrSz ∧ ofBytes e.bytes = { ofBytes d with recvTs := t }) :
    Carries P { s with receiver := buf, replies := s.replies ++ replies } := by
  refine ⟨h.sent, ?_⟩
  intro e he
  rcases List.mem_append.mp he with he | he
  · exact h.replies e he
  · obtain ⟨d, hd, hdec⟩ := hr e he
    obtain ⟨hlen, hbytes⟩ := hdec (h.sent _ d hd).1
    exact ⟨hlen.ge, d, hd, t, hbytes⟩

/-- A step of the sender, with the packet that it sends. -/
theorem Carries.sender {r : Traced Event (Sender T)} (h : Carries P s) (hm : Move s.sender i r)
    (hkeep : ∀ n hdr, P n hdr → P' n hdr)
    (hnew : ∀ hdr ∈ packetIn s.sender i, P' s.sent.length hdr) :
    Carries P' { s with
      sender := r.val, sent := s.sent ++ r.log.filterMap Event.datagram? } := by
  refine ⟨?_, ?_⟩
  · intro n d hd
    rw [List.getElem?_append] at hd
    split_ifs at hd with hlt
    · obtain ⟨hlen, hsent⟩ := h.sent n d hd
      exact ⟨hlen, hsent.imp_right (hkeep n _)⟩
    · -- at most one datagram is new, so its place is the first free one
      obtain ⟨hnlt, -⟩ := List.getElem?_eq_some_iff.mp hd
      have hone := move_sent_length hm
      obtain rfl : n = s.sent.length := by omega
      obtain ⟨hlen, hsent⟩ := move_header hm (List.mem_of_getElem? hd)
      exact ⟨hlen, hsent.imp_right (hnew _)⟩
  · intro e he
    obtain ⟨hlen, d, hd, t, hbytes⟩ := h.replies e he
    refine ⟨hlen, d, ?_, t, hbytes⟩
    obtain ⟨hlt, -⟩ := List.getElem?_eq_some_iff.mp hd
    rwa [List.getElem?_append_left hlt]

end Carries

/-- The packets under way are those of the cycles, each with the name of its flow. -/
structure Wired (cs : List Cycle) (s : System T) : Prop
    extends Carries (fun n hdr => ∃ c ∈ cs, ⟨n, hdr⟩ ∈ c.packets) s where
  named : ∀ c ∈ cs, ∀ p ∈ c.packets, p.header.fid = c.call.fid

omit [Controller T] in
theorem wired_fresh (tcp : TcpTransport T) (buf : Buf) : Wired [] (System.fresh tcp buf) :=
  ⟨carries_fresh _ tcp buf, by simp⟩

omit [Controller T] in
theorem Wired.receiver {s : System T} (h : Wired cs s) {buf : Buf} {replies : List Reply}
    {t : Double} (hr : ∀ e ∈ replies, ∃ d ∈ s.sent[e.source]?, hdrSz ≤ d.length →
      e.bytes.length = hdrSz ∧ ofBytes e.bytes = { ofBytes d with recvTs := t }) :
    Wired cs { s with receiver := buf, replies := s.replies ++ replies } :=
  ⟨h.toCarries.receiver hr, h.named⟩

/-- A step of the sender, where the record keeps its packets and gets the one that is sent. -/
theorem Wired.sender {s : System T} {cs' : List Cycle} {i : Input Recv}
    {r : Traced Event (Sender T)} (h : Wired cs s) (hm : Move s.sender i r)
    (hkeep : ∀ c ∈ cs, ∀ p ∈ c.packets, ∃ c' ∈ cs', p ∈ c'.packets)
    (hnew : ∀ hdr ∈ packetIn s.sender i, ∃ c ∈ cs', ⟨s.sent.length, hdr⟩ ∈ c.packets)
    (hnamed : ∀ c ∈ cs', ∀ p ∈ c.packets, p.header.fid = c.call.fid) :
    Wired cs' { s with sender := r.val, sent := s.sent ++ r.log.filterMap Event.datagram? } :=
  ⟨h.toCarries.sender hm (fun _ _ ⟨c, hc, hp⟩ => hkeep c hc _ hp) hnew, hnamed⟩

end TcpEyenet
