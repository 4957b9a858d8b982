import TcpEyenet.EndToEnd.Wire
import TcpEyenet.Transport.Trains

/-! The data packets that a sender's calls put on the wire, in order. -/
namespace TcpEyenet

open TcpTransport

/-- What a data packet says of where it belongs. -/
structure PacketId where
  sid : Int32
  fid : Int32
  seqNum : Int32
  deriving DecidableEq

def PacketHeader.id (h : PacketHeader) : PacketId := ⟨h.sid, h.fid, h.seqNum⟩

variable {T : Type} [Controller T] {tcp : TcpTransport T} {s : Sender T} {i : Input Recv}
  {r : Traced Event (Sender T)} {trs : List (Action T)} {tr : Action T} {l : Locals} {call : Call}
  {flows : List (Call × ℕ)} {cs : List Call} {ids : List PacketId}

/-- Everything in a log but the greetings. -/
def dataIn (log : List Event) : List PacketId :=
  (((log.filterMap Event.datagram?).map PacketHeader.ofBytes).filter fun h => !h.isHello).map
    PacketHeader.id

def dataPackets (trs : List (Action T)) : List PacketId := trs.flatMap fun tr => dataIn tr.out

def callIn {ρ : Type} : Input ρ → Option Call
  | .sendData call => some call
  | _ => none

/-- The calls of `send_data`, in order. -/
def callsOf (trs : List (Action T)) : List Call := trs.filterMap fun tr => callIn tr.input

/-- The first packets of a call. -/
def Call.firstPackets (call : Call) (n : ℕ) : List PacketId :=
  (List.range n).map fun k => ⟨call.sid, call.fid, Int32.ofNat k⟩

/-- One call after the other, with as many packets of each as it got to send. -/
def onTheWire (flows : List (Call × ℕ)) : List PacketId :=
  flows.flatMap fun f => f.1.firstPackets f.2

/-- The calls and how many packets each has sent, after one more step. -/
def nextFlows (flows : List (Call × ℕ)) (s : Sender T) (i : Input Recv) : List (Call × ℕ) :=
  match callIn i, packetIn s i with
  | some call, _ => flows ++ [(call, 0)]
  | none, some _ => flows.modifyLast fun f => (f.1, f.2 + 1)
  | none, none => flows

def flowsOf (trs : List (Action T)) : List (Call × ℕ) :=
  trs.foldl (fun flows tr => nextFlows flows tr.src tr.input) []

/-- How far the latest call has come. -/
def Latest (flows : List (Call × ℕ)) : Phase → Prop
  | .idle | .dead => True
  | .shaking call _ _ | .connected call => ∃ pre, flows = pre ++ [(call, 0)]
  | .top l | .sending l => 0 ≤ l.seqNum ∧ l.seqNum < 2 ^ 31 ∧
      ∃ pre, flows = pre ++ [(l.call, l.seqNum.toNat)]

/-- What was sent up to a state is the first packets of each call. -/
structure Serial (cs : List Call) (ids : List PacketId) (flows : List (Call × ℕ))
    (s : Sender T) : Prop where
  calls : flows.map Prod.fst = cs
  ids : onTheWire flows = ids
  sizes : ∀ f ∈ flows, f.2 ≤ 2 ^ 31
  latest : Latest flows s.phase

theorem Call.firstPackets_succ (call : Call) (n : ℕ) :
    call.firstPackets (n + 1) = call.firstPackets n ++ [⟨call.sid, call.fid, Int32.ofNat n⟩] := by
  simp [firstPackets, List.range_succ]

@[simp] theorem onTheWire_concat (f : Call × ℕ) :
    onTheWire (flows ++ [f]) = onTheWire flows ++ f.1.firstPackets f.2 := by
  simp [onTheWire]

omit [Controller T] in
@[simp] theorem dataPackets_concat :
    dataPackets (trs ++ [tr]) = dataPackets trs ++ dataIn tr.out := by
  simp [dataPackets]

omit [Controller T] in
theorem callsOf_concat : callsOf (trs ++ [tr]) = callsOf trs ++ (callIn tr.input).toList := by
  cases h : callIn tr.input <;> simp [callsOf, h]

@[simp] theorem flowsOf_concat :
    flowsOf (trs ++ [tr]) = nextFlows (flowsOf trs) tr.src tr.input := by
  simp [flowsOf]

theorem mem_dataIn {log : List Event} {d : List UInt8} (hd : d ∈ log.filterMap Event.datagram?) :
    (PacketHeader.ofBytes d).isHello = true ∨ (PacketHeader.ofBytes d).id ∈ dataIn log := by
  cases hhello : (PacketHeader.ofBytes d).isHello with
  | true => exact .inl rfl
  | false =>
    refine .inr (List.mem_map_of_mem (List.mem_filter.mpr ⟨List.mem_map_of_mem hd, ?_⟩))
    simp [hhello]

/-- A step that is no send puts out greetings at most. -/
theorem move_dataIn_of_none (h : Move s i r) (hp : packetIn s i = none) : dataIn r.log = [] := by
  have hall : ∀ hdr ∈ (r.log.filterMap Event.datagram?).map PacketHeader.ofBytes,
      hdr = hello := by
    intro hdr hmem
    obtain ⟨d, hd, rfl⟩ := List.mem_map.mp hmem
    obtain ⟨-, hhello | hpkt⟩ := move_header h hd
    · exact hhello
    · simp [hp] at hpkt
  rw [dataIn, List.map_eq_nil_iff, List.filter_eq_nil_iff]
  intro hdr hmem
  rw [hall hdr hmem]
  decide

/-- A send puts out one data packet, which is the next one of its call. -/
theorem sendOne_dataIn (hnn : 0 ≤ l.seqNum) (hfit : l.seqNum < 2 ^ 31) :
    dataIn ((tcp.test l).log ++ (tcp.sendOne l).log) =
      [⟨l.call.sid, l.call.fid, Int32.ofNat l.seqNum.toNat⟩] := by
  have hseq : (createHeader l.seqNum l.call.fid l.call.sid l.currTs).seqNum.toInt = l.seqNum :=
    createHeader_seqNum l.call l.currTs hnn hfit
  have hdata : (createHeader l.seqNum l.call.fid l.call.sid l.currTs).isHello = false := by
    simp only [PacketHeader.isHello, decide_eq_false_iff_not]
    rintro ⟨hneg, -⟩
    rw [hneg] at hseq
    have hone : (-1 : Int32).toInt = -1 := rfl
    omega
  have hnum : Int32.ofInt l.seqNum = Int32.ofNat l.seqNum.toNat := by
    rw [← Int32.ofInt_eq_ofNat, Int.toNat_of_nonneg hnn]
  rw [dataIn, sendOne_packets, List.filter_cons_of_pos (by simp [hdata]), List.filter_nil]
  simp [PacketHeader.id, createHeader, hnum]

theorem nextFlows_of_none (hc : callIn i = none) (hp : packetIn s i = none) :
    nextFlows flows s i = flows := by
  simp only [nextFlows, hc, hp]

theorem nextFlows_send {pre : List (Call × ℕ)} {n : ℕ} (ht : (tcp.test l).val = some true) :
    nextFlows (pre ++ [(l.call, n)]) (⟨tcp, .sending l⟩ : Sender T) .send =
      pre ++ [(l.call, n + 1)] := by
  simp [nextFlows, callIn, packetIn, ht, List.modifyLast_concat]

/-- The packet sent joins those of the call it belongs to. -/
theorem Serial.send (h : Serial cs ids flows (⟨tcp, .sending l⟩ : Sender T))
    (ht : (tcp.test l).val = some true) :
    Serial cs (ids ++ dataIn ((tcp.test l).log ++ (tcp.sendOne l).log))
      (nextFlows flows (⟨tcp, .sending l⟩ : Sender T) .send) (tcp.sendOne l).val := by
  obtain ⟨hcalls, hids, hsizes, hnn, hfit, pre, rfl⟩ := h
  rw [nextFlows_send ht]
  refine ⟨?_, ?_, ?_, ?_⟩
  · rw [← hcalls]
    simp
  · rw [sendOne_dataIn hnn hfit, ← hids]
    simp [Call.firstPackets_succ]
  · intro f hf
    rcases List.mem_append.mp hf with hf | hf
    · exact hsizes f (List.mem_append_left _ hf)
    · obtain rfl := List.mem_singleton.mp hf
      simp only
      omega
  · by_cases hbn : tcp.bnTrain = 0
    · rw [sendOne_of_eq hbn]
      trivial
    · obtain ⟨tcp', -, ⟨hlt, hv⟩ | ⟨-, hv⟩⟩ := sendOne_cases hbn l
      · rw [hv]
        refine ⟨by simp only; omega, by simp only; omega, pre, ?_⟩
        rw [Int.toNat_add hnn Int.one_nonneg]
        rfl
      · rw [hv]
        trivial

/-- A step that neither calls nor sends. -/
theorem Serial.still (h : Serial cs ids flows s) (hm : Move s i r) (hc : callIn i = none)
    (hp : packetIn s i = none) (hl : Latest flows r.val.phase) :
    Serial (cs ++ (callIn i).toList) (ids ++ dataIn r.log) (nextFlows flows s i) r.val := by
  rw [nextFlows_of_none hc hp, move_dataIn_of_none hm hp, hc]
  exact ⟨by simpa using h.calls, by simpa using h.ids, h.sizes, hl⟩

/-- A sender that dies of its test has sent nothing. -/
theorem test_of_crash (hs : (⟨tcp, .sending l⟩ : Sender T).step .send =
    some ⟨⟨tcp, .dead⟩, (tcp.test l).log⟩) : (tcp.test l).val ≠ some true := by
  intro ht
  obtain ⟨log, -, hlog⟩ := sendOne_log tcp l
  simp only [Sender.step, trySend, ht, hlog, Option.some.injEq, Traced.mk.injEq] at hs
  simp at hs

/-- One step more of a sender that sends in series. -/
theorem step_serial (hs : s.step i = some r) (h : Serial cs ids flows s) :
    Serial (cs ++ (callIn i).toList) (ids ++ dataIn r.log) (nextFlows flows s i) r.val := by
  have hlatest := h.latest
  cases step_move hs with
  | sendData tcp call =>
    refine ⟨?_, ?_, ?_, flows, rfl⟩
    · simp [nextFlows, callIn, h.calls]
    · simpa [nextFlows, callIn, Call.firstPackets, dataIn] using h.ids
    · intro f hf
      rcases List.mem_append.mp hf with hf | hf
      · exact h.sizes f hf
      · obtain rfl := List.mem_singleton.mp hf
        exact Nat.zero_le _
  | handshake tcp call buf lastSTs c out =>
    refine h.still (.handshake tcp call buf lastSTs c out) rfl rfl ?_
    simp only [shake, Traced.bind_val]
    split_ifs
    · exact hlatest
    · exact hlatest
  | start tcp call t₀ t₁ =>
    exact h.still (.start tcp call t₀ t₁) rfl rfl ⟨le_rfl, (by decide : (0 : ℤ) < 2 ^ 31), hlatest⟩
  | enter tcp l c hsz => exact h.still (.enter tcp l c hsz) rfl rfl hlatest
  | finish tcp l c hsz => exact h.still (.finish tcp l c hsz) rfl rfl trivial
  | crash tcp l hz =>
    exact h.still (.crash tcp l hz) rfl (if_neg (test_of_crash hs)) trivial
  | send tcp l ht => simpa [callIn] using h.send ht
  | receive tcp l c₂ out c₃ ht =>
    refine h.still (.receive tcp l c₂ out c₃ ht) rfl rfl ?_
    obtain ⟨log, -, -, hv | hv | hv⟩ := receive_cases (test_eq_false ht).2.1 l c₂ out c₃
    · obtain ⟨-, cong, -, hv⟩ := hv
      rw [hv]
      exact hlatest
    · rw [hv.2.2]
      exact hlatest
    · obtain ⟨-, -, cong, rateEst, -, hv⟩ := hv
      rw [hv]
      exact hlatest

theorem serial_run (hr : Sender.machine.Run ⟨tcp, .idle⟩ trs s) :
    Serial (callsOf trs) (dataPackets trs) (flowsOf trs) s := by
  refine hr.history (I := fun trs s => Serial (callsOf trs) (dataPackets trs) (flowsOf trs) s)
    (C := fun _ => True) (by simp) ⟨rfl, rfl, by simp [flowsOf], trivial⟩ ?_
  intro ts tr ht _ h
  rw [callsOf_concat, dataPackets_concat, flowsOf_concat]
  exact step_serial ht h

/-- What tells the calls apart tells their packets apart. -/
theorem onTheWire_nodup (hdistinct : (flows.map fun f => (f.1.sid, f.1.fid)).Nodup)
    (hsizes : ∀ f ∈ flows, f.2 ≤ 2 ^ 31) : (onTheWire flows).Nodup := by
  induction flows with
  | nil => exact List.nodup_nil
  | cons f flows ih =>
    obtain ⟨hnew, hrest⟩ := List.nodup_cons.mp hdistinct
    have hsmall := hsizes f (by simp)
    rw [onTheWire, List.flatMap_cons, List.nodup_append]
    refine ⟨?_, ih hrest fun g hg => hsizes g (by simp [hg]), ?_⟩
    · -- numbers below `2 ^ 31` are told apart by their last 32 bits
      refine (List.nodup_map_iff_inj_on List.nodup_range).mpr ?_
      intro j hj k hk hjk
      rw [List.mem_range] at hj hk
      have hnum := congrArg (fun p => p.seqNum.toInt) hjk
      simp only at hnum
      rw [Int32.toInt_ofNat_of_lt (by omega), Int32.toInt_ofNat_of_lt (by omega)] at hnum
      omega
    · rintro p hp q hq rfl
      obtain ⟨j, -, rfl⟩ := List.mem_map.mp hp
      obtain ⟨g, hg, hpg⟩ := List.mem_flatMap.mp hq
      obtain ⟨k, -, hk⟩ := List.mem_map.mp hpg
      refine hnew (List.mem_map.mpr ⟨g, hg, ?_⟩)
      simp only [PacketId.mk.injEq] at hk
      rw [hk.1, hk.2.1]

/-- The bytes for which acks have come, in this call and in all before it. -/
def ackedBytes {T : Type} (tcp : TcpTransport T) : ℚ := tcp.npkts * payload

/-- Where calls are measured in bytes: each that is over got at least what it asked for, counting
the calls before it too, and one that sends asks for more. -/
def Outgrown (flows : List (Call × ℕ)) (s : Sender T) : Prop :=
  (flows.Pairwise fun f g => 0 < g.2 → f.1.fsz < g.1.fsz) ∧
    match s.phase with
    | .idle => ∀ f ∈ flows, f.1.fsz ≤ ackedBytes s.tcp
    | .sending l => (∀ f ∈ flows.dropLast, f.1.fsz ≤ ackedBytes s.tcp) ∧
        ackedBytes s.tcp < l.call.fsz
    | .dead => True
    | _ => ∀ f ∈ flows.dropLast, f.1.fsz ≤ ackedBytes s.tcp

theorem ackedBytes_mono (hm : Move s i r) : ackedBytes s.tcp ≤ ackedBytes r.val.tcp := by
  have hle : (s.tcp.npkts : ℚ) ≤ r.val.tcp.npkts := by
    rw [move_npkts hm]
    exact_mod_cast Int.le_add_of_nonneg_right (Int.natCast_nonneg _)
  exact mul_le_mul_of_nonneg_right hle (Nat.cast_nonneg _)

theorem step_outgrown (hs : s.step i = some r) (hlatest : Latest flows s.phase)
    (hbytes : ∀ f ∈ flows, f.1.byteSwitcher = true) (h : Outgrown flows s) :
    Outgrown (nextFlows flows s i) r.val := by
  obtain ⟨hpair, hpast⟩ := h
  have hmono := ackedBytes_mono (step_move hs)
  cases step_move hs with
  | sendData tcp call =>
    refine ⟨List.pairwise_append.mpr ⟨hpair, by simp, ?_⟩, ?_⟩
    · intro f _ g hg hpos
      obtain rfl := List.mem_singleton.mp hg
      exact absurd hpos (lt_irrefl 0)
    · intro f hf
      exact hpast f (by simpa [nextFlows, callIn] using hf)
  | handshake tcp call buf lastSTs c out =>
    refine ⟨hpair, ?_⟩
    simp only [shake, Traced.bind_val]
    split_ifs
    · exact hpast
    · exact hpast
  | start tcp call t₀ t₁ => exact ⟨hpair, hpast⟩
  | enter tcp l c hsz =>
    refine ⟨hpair, fun f hf => (hpast f hf).trans hmono, ?_⟩
    obtain ⟨-, -, pre, rfl⟩ := hlatest
    have hcall : l.call.byteSwitcher = true := hbytes (l.call, l.seqNum.toNat) (by simp)
    rw [switchSz, if_pos hcall] at hsz
    simpa [ackedBytes, enter, giveUp_npkts] using hsz
  | finish tcp l c hsz =>
    refine ⟨hpair, ?_⟩
    obtain ⟨-, -, pre, rfl⟩ := hlatest
    have hcall : l.call.byteSwitcher = true := hbytes (l.call, l.seqNum.toNat) (by simp)
    rw [switchSz, if_pos hcall, not_lt] at hsz
    intro f hf
    rcases List.mem_append.mp hf with hf | hf
    · exact hpast f (by simpa using hf)
    · obtain rfl := List.mem_singleton.mp hf
      exact hsz
  | crash tcp l hz =>
    have hp : packetIn (⟨tcp, .sending l⟩ : Sender T) (.send : Input Recv) = none :=
      if_neg (test_of_crash hs)
    rw [nextFlows_of_none rfl hp]
    exact ⟨hpair, trivial⟩
  | send tcp l ht =>
    obtain ⟨hpre, hlt⟩ := hpast
    obtain ⟨-, -, pre, rfl⟩ := hlatest
    rw [List.dropLast_concat] at hpre
    have hpair' : (pre ++ [(l.call, l.seqNum.toNat + 1)]).Pairwise
        fun f g => 0 < g.2 → f.1.fsz < g.1.fsz := by
      refine List.pairwise_append.mpr ⟨(List.pairwise_append.mp hpair).1, by simp, ?_⟩
      intro f hf g hg _
      obtain rfl := List.mem_singleton.mp hg
      exact (hpre f hf).trans_lt hlt
    rw [nextFlows_send ht]
    refine ⟨hpair', ?_⟩
    have hacked : ackedBytes (tcp.sendOne l).val.tcp = ackedBytes tcp := by
      rw [ackedBytes, sendOne_npkts, ackedBytes]
    by_cases hbn : tcp.bnTrain = 0
    · rw [sendOne_of_eq hbn]
      trivial
    · obtain ⟨tcp', -, ⟨-, hv⟩ | ⟨-, hv⟩⟩ := sendOne_cases hbn l
      · rw [hv] at hacked ⊢
        exact ⟨by simpa [hacked] using hpre, hacked.trans_lt hlt⟩
      · rw [hv]
        trivial
  | receive tcp l c₂ out c₃ ht =>
    obtain ⟨hpre, -⟩ := hpast
    have hpast' : ∀ f ∈ flows.dropLast,
        f.1.fsz ≤ ackedBytes (tcp.receive l c₂ out c₃).val.tcp :=
      fun f hf => (hpre f hf).trans hmono
    obtain ⟨log, -, -, hv | hv | hv⟩ := receive_cases (test_eq_false ht).2.1 l c₂ out c₃
    · obtain ⟨-, cong, -, hv⟩ := hv
      rw [hv] at hpast' ⊢
      exact ⟨hpair, hpast'⟩
    · rw [hv.2.2] at hpast' ⊢
      exact ⟨hpair, hpast'⟩
    · obtain ⟨-, -, cong, rateEst, -, hv⟩ := hv
      rw [hv] at hpast' ⊢
      exact ⟨hpair, hpast'⟩

theorem outgrown_run (hr : Sender.machine.Run ⟨tcp, .idle⟩ trs s)
    (hbytes : ∀ c ∈ callsOf trs, c.byteSwitcher = true) : Outgrown (flowsOf trs) s := by
  have hcall : ∀ pre tr post, trs = pre ++ tr :: post →
      ∀ c ∈ callsOf pre, c.byteSwitcher = true := by
    intro pre tr post he c hc
    refine hbytes c ?_
    rw [he, callsOf, List.filterMap_append]
    exact List.mem_append_left _ hc
  refine hr.along (I := fun trs s => Outgrown (flowsOf trs) s)
    (C := fun pre _ => ∀ c ∈ callsOf pre, c.byteSwitcher = true) hcall ?_ ?_
  · exact ⟨List.Pairwise.nil, by simp [flowsOf]⟩
  · intro pre tr hpre ht hb h
    have hserial := serial_run hpre
    rw [flowsOf_concat]
    refine step_outgrown ht hserial.latest ?_ h
    intro f hf
    exact hb _ (hserial.calls ▸ List.mem_map_of_mem hf)

end TcpEyenet
