import TcpEyenet.EndToEnd.Latency
import TcpEyenet.Transport.Flows

/-! The handshake: how often the sender greets, and what it takes for an answer. -/
namespace TcpEyenet

open TcpTransport PacketHeader

variable {T : Type} [Controller T] {tcp : TcpTransport T} {s : Sender T} {i : Input Recv}
  {r : Traced Event (Sender T)} {tr : Transition (System T) Turn Event} {call : Call} {buf : Buf}
  {lastSTs : ℚ} {c : Double} {out : Recv}
  {trs pre post : List (Transition (System T) Turn Event)}

omit [Controller T] in
/-- One iteration of the loop: the greeting goes out or not, and the answer is one or not. -/
theorem shake_cases (tcp : TcpTransport T) (call : Call) (buf : Buf) (lastSTs : ℚ) (c : Double)
    (out : Recv) :
    let r := tcp.shake call buf lastSTs c out
    let g := (greet buf lastSTs c).val
    (r.log.filterMap Event.datagram? = [] ↔ ¬ lastSTs < c.val - 200) ∧
      ((r.val.phase = .connected call ∧ (recvData pktSz out g.1).val.rc ≠ 0 ∧
          (PacketHeader.read (recvData pktSz out g.1).val.buf).isHello) ∨
        ∃ buf', r.val.phase =
          .shaking call buf' (if lastSTs < c.val - 200 then c.val else lastSTs)) := by
  by_cases hdue : lastSTs < c.val - 200
  · simp only [shake, greet, hdue, if_true, Traced.bind_val, Traced.bind_log]
    refine ⟨?_, ?_⟩
    · simp
    · split_ifs with hyes
      · exact .inl ⟨rfl, hyes⟩
      · exact .inr ⟨_, rfl⟩
  · simp only [shake, greet, hdue, if_false, Traced.bind_val, Traced.bind_log]
    refine ⟨?_, ?_⟩
    · split_ifs <;> simp
    · split_ifs with hyes
      · exact .inl ⟨rfl, hyes⟩
      · exact .inr ⟨_, rfl⟩

/-- The reading of the clock at which a turn of a handshake sends a greeting. -/
def greetedIn (tr : Transition (System T) Turn Event) : Option ℚ :=
  match tr.src.sender.phase, tr.input with
  | .shaking _ _ _, .sender (.handshake c _) =>
    if tr.out.filterMap Event.datagram? = [] then none else some c.val
  | _, _ => none

/-- The greetings of the latest handshake, the last one first. -/
def greetings (trs : List (Transition (System T) Turn Event)) : List ℚ :=
  trs.foldl (fun gs tr =>
    match tr.input with
    | .sender (.sendData _) => []
    | _ => (greetedIn tr).toList ++ gs) []

/-- More than 200 ms are between two greetings, and none is later than the sender remembers. -/
structure Spaced (gs : List ℚ) (phase : Phase) : Prop where
  apart : gs.Pairwise fun later earlier => earlier + 200 < later
  last : ∀ call buf lastSTs, phase = .shaking call buf lastSTs → ∀ g ∈ gs, g ≤ lastSTs

/-- Before the connection. -/
def Phase.IsEarly : Phase → Prop
  | .shaking _ _ _ | .connected _ => True
  | _ => False

theorem move_early (h : Move s i r) (he : r.val.phase.IsEarly) :
    (∃ call, i = .sendData call) ∨ ∃ c out, i = .handshake c out := by
  cases h with
  | sendData tcp call => exact .inl ⟨call, rfl⟩
  | handshake tcp call buf lastSTs c out => exact .inr ⟨c, out, rfl⟩
  | send tcp l ht =>
    by_cases hbn : tcp.bnTrain = 0
    · rw [sendOne_of_eq hbn] at he
      exact he.elim
    · obtain ⟨tcp', -, ⟨-, hval⟩ | ⟨-, hval⟩⟩ := sendOne_cases hbn l
      · rw [hval] at he
        exact he.elim
      · rw [hval] at he
        exact he.elim
  | receive tcp l c₂ out c₃ ht =>
    obtain ⟨log, -, -, h | h | h⟩ := receive_cases (test_eq_false ht).2.1 l c₂ out c₃
    · obtain ⟨-, cong, -, hv⟩ := h
      rw [hv] at he
      exact he.elim
    · rw [h.2.2] at he
      exact he.elim
    · obtain ⟨-, -, cong, rateEst, -, hv⟩ := h
      rw [hv] at he
      exact he.elim
  | _ => exact he.elim

omit [Controller T] in
theorem greetings_concat : greetings (trs ++ [tr]) =
    match tr.input with
    | .sender (.sendData _) => []
    | _ => (greetedIn tr).toList ++ greetings trs := by
  simp [greetings]

omit [Controller T] in
theorem greetedIn_of_ne (h : ∀ c out, tr.input ≠ .sender (.handshake c out)) :
    greetedIn tr = none := by
  unfold greetedIn
  split
  · rename_i hin
    exact absurd hin (h _ _)
  · rfl

/-- A turn of a handshake. -/
theorem spaced_shake (ht : System.machine.Takes tr) {out₀ : Option ℕ}
    (hin : tr.input = .sender (.handshake c out₀))
    (h : Spaced (greetings trs) tr.src.sender.phase) :
    Spaced ((greetedIn tr).toList ++ greetings trs) tr.dst.sender.phase := by
  obtain ⟨i, r, hres, hm, hdst, hout⟩ := takes_log ht hin
  obtain ⟨out, -, rfl⟩ := Option.map_eq_some_iff.mp hres
  generalize hs : tr.src.sender = sender at hm h
  cases hm with
  | handshake tcp call buf lastSTs =>
    obtain ⟨hsilent, hphase⟩ := shake_cases tcp call buf lastSTs c out
    have hlast : ∀ g ∈ greetings trs, g ≤ lastSTs := h.last call buf lastSTs rfl
    rw [← hout] at hsilent
    rw [← hdst] at hphase
    by_cases hdue : lastSTs < c.val - 200
    · have hgreet : greetedIn tr = some c.val := by
        simp only [greetedIn, hs, hin]
        exact if_neg fun hnil => hsilent.mp hnil hdue
      rw [hgreet]
      refine ⟨List.pairwise_cons.mpr ⟨fun g hg => ?_, h.apart⟩, ?_⟩
      · have hle := hlast g hg
        linarith
      · intro call' buf' ts hshaking g hg
        rcases hphase with ⟨hconnected, -⟩ | ⟨buf'', hnext⟩
        · rw [hshaking] at hconnected
          cases hconnected
        · rw [hshaking, if_pos hdue] at hnext
          obtain ⟨-, -, rfl⟩ := Phase.shaking.inj hnext
          rcases List.mem_cons.mp hg with rfl | hg
          · exact le_rfl
          · have hle := hlast g hg
            linarith
    · have hgreet : greetedIn tr = none := by
        simp only [greetedIn, hs, hin]
        exact if_pos (hsilent.mpr hdue)
      rw [hgreet]
      refine ⟨h.apart, fun call' buf' ts hshaking g hg => ?_⟩
      rcases hphase with ⟨hconnected, -⟩ | ⟨buf'', hnext⟩
      · rw [hshaking] at hconnected
        cases hconnected
      · rw [hshaking, if_neg hdue] at hnext
        obtain ⟨-, -, rfl⟩ := Phase.shaking.inj hnext
        exact hlast g hg

theorem spaced_step (ht : System.machine.Takes tr)
    (h : Spaced (greetings trs) tr.src.sender.phase) :
    Spaced (greetings (trs ++ [tr])) tr.dst.sender.phase := by
  rw [greetings_concat]
  cases hin : tr.input with
  | receiver rcv c =>
    rw [(out_receiver ht hin).2, greetedIn_of_ne (by simp [hin])]
    exact h
  | sender i₀ =>
    have hlate (hcall : ∀ call, i₀ ≠ .sendData call) (hne : ∀ c out, i₀ ≠ .handshake c out) :
        Spaced ((greetedIn tr).toList ++ greetings trs) tr.dst.sender.phase := by
      obtain ⟨i, r, hres, hm, hdst, -⟩ := takes_log ht hin
      rw [greetedIn_of_ne (by simpa [hin] using hne)]
      refine ⟨h.apart, fun call buf ts hshaking => ?_⟩
      rw [hdst] at hshaking
      rcases move_early hm (by rw [hshaking]; trivial) with ⟨call', rfl⟩ | ⟨c, out, rfl⟩
      · exact absurd (resolve_sendData hres) (hcall call')
      · cases i₀ with
        | handshake c' out' => exact absurd rfl (hne c' out')
        | recv c₂ out' c₃ =>
          obtain ⟨out'', -, heq⟩ := Option.map_eq_some_iff.mp hres
          cases heq
        | _ => cases hres
    cases i₀ with
    | sendData call => exact ⟨.nil, fun _ _ _ _ g hg => absurd hg List.not_mem_nil⟩
    | handshake c out₀ => exact spaced_shake ht hin h
    | _ => exact hlate (by simp) (by simp)

/-- The part of a run that is the sender's. -/
theorem System.sender_run {s t : System T} (hr : System.machine.Run s trs t) :
    ∃ us, Sender.machine.Run s.sender us t.sender := by
  refine hr.invariant (I := fun t => ∃ us, Sender.machine.Run s.sender us t.sender)
    (C := fun _ => True) (fun _ _ => trivial) ⟨[], .refl⟩ ?_
  rintro tr ht - ⟨us, hus⟩
  cases hin : tr.input with
  | receiver out c =>
    rw [(out_receiver ht hin).2]
    exact ⟨us, hus⟩
  | sender i₀ =>
    simp only [Machine.Takes, System.machine, System.step, System.senderStep, hin, bind,
      Option.bind_eq_some_iff] at ht
    obtain ⟨i, -, r, hstep, hdst⟩ := ht
    have htake : Sender.machine.Takes ⟨tr.src.sender, i, r.log, r.val⟩ := hstep
    have hnext : r.val = tr.dst.sender := congrArg (·.val.sender) (Option.some.inj hdst)
    rw [← hnext]
    exact ⟨_, hus.snoc htake⟩

/-- The numbers of data packets are not negative, so none of them passes for a greeting. -/
theorem carries_run {tcp : TcpTransport T} {s : System T}
    (hr : System.machine.Run (System.fresh tcp buf) trs s) :
    Carries (fun _ hdr => 0 ≤ hdr.seqNum.toInt) s := by
  refine hr.along (I := fun _ s => Carries (fun _ hdr => 0 ≤ hdr.seqNum.toInt) s)
    (C := fun _ _ => True) (fun _ _ _ _ => trivial) (carries_fresh _ tcp buf) ?_
  intro pre tr hpre ht _ h
  cases hin : tr.input with
  | receiver out t =>
    obtain ⟨buf, replies, hdst, hreplies⟩ := takes_receiver ht hin
    rw [hdst]
    exact h.receiver hreplies
  | sender i₀ =>
    obtain ⟨i, r, hres, hm, hdst⟩ := takes_sender ht hin
    rw [hdst]
    refine h.sender hm (fun _ _ => id) fun hdr hpkt => ?_
    obtain ⟨us, hus⟩ := System.sender_run hpre
    obtain ⟨l, hphase, rfl⟩ := packetIn_eq_some hpkt
    have hlatest := (serial_run hus).latest
    simp only [hphase, Latest] at hlatest
    obtain ⟨hnn, hlt, -⟩ := hlatest
    rw [createHeader_seqNum l.call l.currTs hnn hlt]
    exact hnn

omit [Controller T] in
/-- Of all that is under way only a greeting is answered by a greeting. -/
theorem Carries.greeted {s : System T} (hw : Carries (fun _ hdr => 0 ≤ hdr.seqNum.toInt) s)
    {e : Reply} (he : e ∈ s.replies) (hhello : (ofBytes e.bytes).isHello) :
    ∃ d ∈ s.sent[e.source]?, hdrSz ≤ d.length ∧ ofBytes d = hello := by
  obtain ⟨-, d, hd, t, hbytes⟩ := hw.replies e he
  obtain ⟨hlen, hsent | hdata⟩ := hw.sent _ d hd
  · exact ⟨d, hd, hlen, hsent⟩
  · have hneg : (ofBytes d).seqNum = -1 := by
      rw [hbytes] at hhello
      simp only [isHello, decide_eq_true_eq] at hhello
      exact hhello.1
    rw [hneg] at hdata
    exact absurd hdata (by decide)

/-- The sender goes past its handshake only on the receiver's echo of a greeting that it sent. -/
theorem connected_step (ht : System.machine.Takes tr)
    (hw : Carries (fun _ hdr => 0 ≤ hdr.seqNum.toInt) tr.src)
    (hsrc : tr.src.sender.phase ≠ .connected call)
    (hdst : tr.dst.sender.phase = .connected call) :
    ∃ c k, tr.input = .sender (.handshake c (some k)) ∧ ∃ e ∈ tr.src.replies[k]?,
      ∃ d ∈ tr.src.sent[e.source]?, hdrSz ≤ d.length ∧ ofBytes d = hello := by
  cases hin : tr.input with
  | receiver rcv c =>
    rw [(out_receiver ht hin).2] at hdst
    exact absurd hdst hsrc
  | sender i₀ =>
    obtain ⟨i, r, hres, hm, hval, -⟩ := takes_log ht hin
    rw [hval] at hdst
    generalize tr.src.sender = sender at hm
    rcases move_early hm (by rw [hdst]; trivial) with ⟨call', rfl⟩ | ⟨c, out, rfl⟩
    · cases hm
      cases hdst
    · cases hm with
      | handshake tcp call' buf lastSTs =>
        obtain ⟨-, ⟨-, hrc, hhello⟩ | ⟨buf', hagain⟩⟩ := shake_cases tcp call' buf lastSTs c out
        · cases i₀ with
          | handshake c' out₀ =>
            obtain ⟨out', harrival, heq⟩ := Option.map_eq_some_iff.mp hres
            obtain ⟨rfl, rfl⟩ := Input.handshake.inj heq
            cases out₀ with
            | none =>
              obtain rfl : Recv.timeout = out' := Option.some.inj harrival
              exact absurd rfl hrc
            | some k =>
              obtain ⟨e, he, rfl⟩ := Option.map_eq_some_iff.mp harrival
              have hmem := List.mem_of_getElem? he
              rw [read_recvData (by decide) (hw.replies e hmem).1] at hhello
              exact ⟨c', k, rfl, e, he, hw.greeted hmem hhello⟩
          | recv c₂ out' c₃ =>
            obtain ⟨out'', -, heq⟩ := Option.map_eq_some_iff.mp hres
            cases heq
          | _ => cases hres
        · rw [hdst] at hagain
          cases hagain

/-- A handshake ends only with the receiver's echo of a greeting of this sender, of this cycle or
an earlier one; and between two greetings of a handshake are more than 200 ms. -/
theorem handshake_sound {tcp : TcpTransport T} {s : System T}
    (hr : System.machine.Run (System.fresh tcp buf) trs s) :
    (∀ pre tr post call, trs = pre ++ tr :: post → tr.src.sender.phase ≠ .connected call →
      tr.dst.sender.phase = .connected call →
      ∃ c k, tr.input = .sender (.handshake c (some k)) ∧ ∃ e ∈ tr.src.replies[k]?,
        ∃ d ∈ tr.src.sent[e.source]?, hdrSz ≤ d.length ∧ ofBytes d = hello) ∧
      (greetings trs).Pairwise fun later earlier => earlier + 200 < later := by
  constructor
  · intro pre tr post call he hsrc hdst
    obtain ⟨hpre, ht⟩ := hr.split he
    exact connected_step ht (carries_run hpre) hsrc hdst
  · have hspaced := hr.history (I := fun trs s => Spaced (greetings trs) s.sender.phase)
      (C := fun _ => True) (fun _ _ => trivial)
      ⟨.nil, fun _ _ _ _ g hg => absurd hg List.not_mem_nil⟩ fun _ _ ht _ => spaced_step ht
    exact hspaced.apart

def threeHundredMs : Double := ⟨0x4072C00000000000#64⟩

/-- The first greeting is answered after the second has been sent. -/
def twoGreetings : List Turn :=
  [.sender (.sendData ⟨1, false, 1, 7⟩), .sender (.handshake ⟨0⟩ none),
    .sender (.handshake threeHundredMs none), .receiver (some 0) ⟨0⟩,
    .sender (.handshake threeHundredMs (some 0))]

theorem twoGreetings_accepted : (System.machine.exec freshSystem twoGreetings).isSome := by
  decide +kernel

theorem handshake_sound_twoGreetings :
    ∃ trs s, System.machine.Run freshSystem trs s ∧ greetings trs = [300, 0] ∧
      (∀ pre tr post call, trs = pre ++ tr :: post → tr.src.sender.phase ≠ .connected call →
        tr.dst.sender.phase = .connected call →
        ∃ c k, tr.input = .sender (.handshake c (some k)) ∧ ∃ e ∈ tr.src.replies[k]?,
          ∃ d ∈ tr.src.sent[e.source]?, hdrSz ≤ d.length ∧ ofBytes d = hello) ∧
      (greetings trs).Pairwise fun later earlier => earlier + 200 < later := by
  have hrun := Machine.exec_get_run twoGreetings_accepted
  have hgreetings : greetings (Option.get _ twoGreetings_accepted).1 = [300, 0] := by
    decide +kernel
  exact ⟨_, _, hrun, hgreetings, handshake_sound hrun⟩

end TcpEyenet
