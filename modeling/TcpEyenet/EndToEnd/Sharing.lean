import TcpEyenet.Echo
import TcpEyenet.EndToEnd.Authenticity
import TcpEyenet.PacketSender

/-! Many sending programs and the one receiver they share, over a network that may lose, delay,
repeat and reorder whole datagrams. -/
namespace TcpEyenet

open PacketHeader

/-- A datagram for the receiver. -/
structure Parcel where
  source : Endpoint
  bytes : List UInt8

/-- A datagram of the receiver, with the place of the one that it answers. -/
structure Answer where
  source : ℕ
  echo : Echo

/-- The programs, the receiver, and all that was ever sent either way. -/
structure Hub (ι T : Type) where
  programs : ι → Program T
  receiver : Echoing
  sent : List Parcel
  answers : List Answer

/-- Whose turn it is. Receives name what arrives by its place, as between one sender and the
receiver. -/
inductive HubTurn (ι : Type)
  | program (i : ι) (d : Drive (Option ℕ))
  | receiver (out : Option ℕ) (c : Double)

def Drive.resolve {ρ ρ' : Type} (f : ρ → Option ρ') : Drive ρ → Option (Drive ρ')
  | .cycle onSample offSample => some (.cycle onSample offSample)
  | .inside i => (i.resolve f).map .inside

/-- Only what was sent to an endpoint arrives there. -/
def Answer.arrival (dest : Endpoint) (answers : List Answer) : Option ℕ → Option Recv
  | none => some .timeout
  | some k =>
    (answers[k]?).bind fun a => if a.echo.dest = dest then some (.datagram a.echo.bytes) else none

namespace Hub

variable {ι T : Type} [DecidableEq ι] [Controller T]

/-- No program has begun. -/
def fresh (settings : ι → PacketSender) (sid : ι → Int32) (tcp : ι → TcpTransport T)
    (receiver : Echoing) : Hub ι T :=
  { programs := fun i => .new (settings i) (sid i) (tcp i)
    receiver := receiver
    sent := []
    answers := [] }

def programStep (addr : ι → Endpoint) (h : Hub ι T) (i : ι) (d : Drive (Option ℕ)) :
    Option (Traced (ι × Output) (Hub ι T)) := do
  let d ← d.resolve (Answer.arrival (addr i) h.answers)
  let r ← (h.programs i).step d
  let out := (r.log.filterMap Output.event?).filterMap Event.datagram?
  some
    ⟨{ h with
        programs := Function.update h.programs i r.val
        sent := h.sent ++ out.map (Parcel.mk (addr i)) },
      r.log.map (Prod.mk i)⟩

def receiverStep (h : Hub ι T) (out : Option ℕ) (c : Double) :
    Option (Traced (ι × Output) (Hub ι T)) :=
  match out with
  | none =>
    let buf := (ackPackets h.receiver.buf .recvError c).val
    some (pure { h with receiver := ⟨buf, h.receiver.addr⟩ })
  | some n => do
    let p ← h.sent[n]?
    let r := h.receiver.serve ⟨p.source, p.bytes, c⟩
    some (pure { h with receiver := r.val, answers := h.answers ++ r.log.map (Answer.mk n) })

def step (addr : ι → Endpoint) (h : Hub ι T) : HubTurn ι → Option (Traced (ι × Output) (Hub ι T))
  | .program i d => h.programStep addr i d
  | .receiver out c => h.receiverStep out c

/-- The programs with the endpoints they send from. -/
def machine (addr : ι → Endpoint) : Machine (Hub ι T) (HubTurn ι) (ι × Output) := ⟨step addr⟩

end Hub

abbrev HubStep (ι T : Type) := Transition (Hub ι T) (HubTurn ι) (ι × Output)

namespace Hub

variable {ι T : Type} [DecidableEq ι] [Controller T] {addr : ι → Endpoint} {h : Hub ι T}
  {tr : HubStep ι T} {trs : List (HubStep ι T)} {i : ι} {d₀ : Drive (Option ℕ)}
  {settings : ι → PacketSender} {sid : ι → Int32} {tcp : ι → TcpTransport T} {rx : Echoing}

/-- The step of program `i` in a turn, if it is its turn. -/
def stride (addr : ι → Endpoint) (i : ι) (tr : HubStep ι T) : Option (Stride T) :=
  match tr.input with
  | .program j d =>
    if j = i then
      (d.resolve (Answer.arrival (addr i) tr.src.answers)).map fun d =>
        ⟨tr.src.programs i, d, tr.out.map Prod.snd, tr.dst.programs i⟩
    else none
  | .receiver _ _ => none

/-- The history of program `i`. -/
def strides (addr : ι → Endpoint) (i : ι) (trs : List (HubStep ι T)) : List (Stride T) :=
  trs.filterMap (stride addr i)

/-- The datagrams of a step of a program. -/
def datagrams (r : Traced Output (Program T)) : List (List UInt8) :=
  (r.log.filterMap Output.event?).filterMap Event.datagram?

/-- A turn of a program is a step of it on what the network brings it. -/
theorem takes_program (ht : (machine addr).Takes tr) (hi : tr.input = .program i d₀) :
    ∃ d r, d₀.resolve (Answer.arrival (addr i) tr.src.answers) = some d ∧
      (tr.src.programs i).step d = some r ∧ tr.out = r.log.map (Prod.mk i) ∧
      tr.dst = { tr.src with
        programs := Function.update tr.src.programs i r.val
        sent := tr.src.sent ++ (datagrams r).map (Parcel.mk (addr i)) } := by
  simp only [Machine.Takes, machine, step, programStep, hi, bind,
    Option.bind_eq_some_iff] at ht
  obtain ⟨d, hres, r, hr, hdst⟩ := ht
  obtain ⟨hval, hlog⟩ := Traced.mk.inj (Option.some.inj hdst)
  exact ⟨d, r, hres, hr, hlog.symm, hval.symm⟩

/-- What the receiver answers, and where to. -/
def answersTo (sent : List Parcel) (out : Option ℕ) (c : Double) : List Answer :=
  match out with
  | none => []
  | some n => (sent[n]?).toList.map fun p =>
      ⟨n, p.source, p.bytes.take recvTsOff ++ doubleBytes c⟩

/-- The ack of a datagram that holds a header does not depend on what the buffer held. -/
theorem ackPackets_log {d : List UInt8} (hd : hdrSz ≤ d.length) (buf : Buf) (c : Double) :
    (ackPackets buf (.datagram d) c).log = [d.take recvTsOff ++ doubleBytes c] := by
  have hgot : recvTsOff ≤ (d.take recvBufSz).length := by
    rw [List.length_take]
    exact le_min (by decide) (le_trans (by decide) hd)
  have hrc : (recvData recvBufSz (.datagram d) buf).val.rc ≠ -1 := by
    change ((d.take recvBufSz).length : ℤ) ≠ -1
    omega
  simp only [ackPackets, if_neg hrc, load_store_recvTs]
  simp only [recvData]
  rw [Buf.load_store_of_le (by omega), Buf.load_store hgot, List.take_take]
  rfl

/-- A turn of the receiver. -/
theorem takes_receive (ht : (machine addr).Takes tr) {out : Option ℕ} {c : Double}
    (hi : tr.input = .receiver out c) :
    ∃ rx answers, tr.out = [] ∧ (∀ n ∈ out, n < tr.src.sent.length) ∧
      tr.dst = { tr.src with receiver := rx, answers := tr.src.answers ++ answers } ∧
      ((∀ p ∈ tr.src.sent, hdrSz ≤ p.bytes.length) → answers = answersTo tr.src.sent out c) := by
  simp only [Machine.Takes, machine, step, receiverStep, hi] at ht
  cases out with
  | none =>
    obtain ⟨hval, hlog⟩ := Traced.mk.inj (Option.some.inj ht)
    refine ⟨tr.dst.receiver, [], hlog.symm, by simp, ?_, fun _ => rfl⟩
    simp only [← hval, List.append_nil]
  | some n =>
    simp only [bind, Option.bind_eq_some_iff] at ht
    obtain ⟨p, hp, hdst⟩ := ht
    obtain ⟨hval, hlog⟩ := Traced.mk.inj (Option.some.inj hdst)
    refine ⟨_, (tr.src.receiver.serve ⟨p.source, p.bytes, c⟩).log.map (Answer.mk n), hlog.symm, ?_,
      hval.symm, ?_⟩
    · rintro _ ⟨⟩
      exact (List.getElem?_eq_some_iff.mp hp).1
    · intro hlen
      simp only [answersTo, hp, Echoing.serve, ackPackets_log (hlen p (List.mem_of_getElem? hp))]
      rfl

/-- The part of a hub that belongs to one program goes through a run of that program. -/
theorem strides_run (hr : (machine addr).Run (fresh settings sid tcp rx) trs h) (i : ι) :
    Program.machine.Run (.new (settings i) (sid i) (tcp i)) (strides addr i trs)
      (h.programs i) := by
  refine hr.project (f := fun h => h.programs i) ?_ ?_
  · intro tr tr' ht hg
    simp only [stride] at hg
    split at hg
    · rename_i j d₀ hin
      split_ifs at hg with hj
      subst hj
      obtain ⟨d, hd, rfl⟩ := Option.map_eq_some_iff.mp hg
      obtain ⟨d', r, hres, hr, hout, hdst⟩ := takes_program ht hin
      obtain rfl := Option.some.inj (hd.symm.trans hres)
      refine ⟨?_, rfl, rfl⟩
      simp only [Machine.Takes, hdst, hout, Function.update_self, List.map_map, Function.comp_def,
        List.map_id']
      exact hr
    · simp at hg
  · intro tr ht hg
    simp only [stride] at hg
    split at hg
    · rename_i j d₀ hin
      obtain ⟨d, r, hres, hr, hout, hdst⟩ := takes_program ht hin
      split_ifs at hg with hj
      · subst hj
        simp [hres] at hg
      · rw [hdst]
        exact Function.update_of_ne (Ne.symm hj) _ _
    · rename_i hin
      obtain ⟨rx, answers, -, -, hdst, -⟩ := takes_receive ht hin
      rw [hdst]

omit [DecidableEq ι] [Controller T] in
theorem strides_concat [DecidableEq ι] : strides addr i (trs ++ [tr]) =
    strides addr i trs ++ (stride addr i tr).toList := by
  cases hs : stride addr i tr <;> simp [strides, hs]

/-- Whatever is under way is a greeting or a packet of the program at its source, or goes back
there as the ack of one. -/
structure Postal (addr : ι → Endpoint) (trs : List (HubStep ι T)) (h : Hub ι T) : Prop where
  sent : ∀ p ∈ h.sent, hdrSz ≤ p.bytes.length ∧ ∃ i, p.source = addr i ∧
    ((ofBytes p.bytes).isHello = true ∨
      (ofBytes p.bytes).id ∈ Program.sent (strides addr i trs))
  answers : ∀ a ∈ h.answers, ∃ p ∈ h.sent[a.source]?, a.echo.dest = p.source ∧
    a.echo.bytes.length = hdrSz ∧ ∃ t, ofBytes a.echo.bytes = { ofBytes p.bytes with recvTs := t }

omit [DecidableEq ι] [Controller T] in
theorem sent_concat [DecidableEq ι] {st : Stride T} (hst : stride addr i tr = some st) :
    Program.sent (strides addr i (trs ++ [tr])) =
      Program.sent (strides addr i trs) ++ dataIn (Stride.inner st).out := by
  simp [strides_concat, hst, Program.sent]

omit [DecidableEq ι] [Controller T] in
theorem sent_mono [DecidableEq ι] {id : PacketId} (h : id ∈ Program.sent (strides addr i trs)) :
    id ∈ Program.sent (strides addr i (trs ++ [tr])) := by
  rw [strides_concat, Program.sent, List.map_append, dataPackets, List.flatMap_append]
  exact List.mem_append_left _ h

theorem takes_postal (ht : (machine addr).Takes tr) (hp : Postal addr trs tr.src) :
    Postal addr (trs ++ [tr]) tr.dst := by
  cases hin : tr.input with
  | receiver out c =>
    obtain ⟨rx, answers, -, -, hdst, hanswers⟩ := takes_receive ht hin
    rw [hdst]
    constructor
    · intro p hmem
      obtain ⟨hlen, i, hsrc, hhello | hid⟩ := hp.sent p hmem
      · exact ⟨hlen, i, hsrc, .inl hhello⟩
      · exact ⟨hlen, i, hsrc, .inr (sent_mono hid)⟩
    · intro a ha
      rcases List.mem_append.mp ha with ha | ha
      · exact hp.answers a ha
      · rw [hanswers fun p hmem => (hp.sent p hmem).1] at ha
        cases out with
        | none => simp [answersTo] at ha
        | some n =>
          obtain ⟨p, hn, rfl⟩ := List.mem_map.mp ha
          rw [Option.mem_toList] at hn
          have hlen := (hp.sent p (List.mem_of_getElem? hn)).1
          have hoff : recvTsOff ≤ p.bytes.length := le_trans (by decide) hlen
          exact ⟨p, hn, rfl, by simp [doubleBytes, hoff]; rfl, c, ofBytes_recvTs hoff c⟩
  | program i d₀ =>
    obtain ⟨d, r, hres, hr, hout, hdst⟩ := takes_program ht hin
    have hst : stride addr i tr =
        some ⟨tr.src.programs i, d, tr.out.map Prod.snd, tr.dst.programs i⟩ := by
      simp [stride, hin, hres]
    have hlog : tr.out.map Prod.snd = r.log := by simp [hout, Function.comp_def]
    have hnext : tr.dst.programs i = r.val := by simp [hdst]
    rw [hlog, hnext] at hst
    have htake : Program.machine.Takes ⟨tr.src.programs i, d, r.log, r.val⟩ := hr
    have hmove := takes_move (Program.takes_inner htake)
    rw [hdst]
    constructor
    · intro p hmem
      rcases List.mem_append.mp hmem with hmem | hmem
      · obtain ⟨hlen, j, hsrc, hhello | hid⟩ := hp.sent p hmem
        · exact ⟨hlen, j, hsrc, .inl hhello⟩
        · exact ⟨hlen, j, hsrc, .inr (sent_mono hid)⟩
      · obtain ⟨bytes, hbytes, rfl⟩ := List.mem_map.mp hmem
        refine ⟨(move_header hmove hbytes).1, i, rfl, ?_⟩
        rw [sent_concat hst]
        exact (mem_dataIn hbytes).imp_right (List.mem_append_right _)
    · intro a ha
      obtain ⟨p, hmem, hans⟩ := hp.answers a ha
      obtain ⟨hlt, -⟩ := List.getElem?_eq_some_iff.mp hmem
      exact ⟨p, by rwa [List.getElem?_append_left hlt], hans⟩

theorem postal_run (hr : (machine addr).Run (fresh settings sid tcp rx) trs h) :
    Postal addr trs h := by
  refine hr.history (I := fun trs h => Postal addr trs h) (C := fun _ => True) (by simp) ?_
    fun _ _ ht _ => takes_postal ht
  exact ⟨by simp [fresh], by simp [fresh]⟩

/-- The ack that a turn makes a program accept. -/
def ackIn (addr : ι → Endpoint) (h : Hub ι T) : HubTurn ι → Option (ι × PacketHeader)
  | .program i (.inside inp) =>
    ((inp.resolve (Answer.arrival (addr i) h.answers)).bind
      (TcpEyenet.ackIn (h.programs i).conn)).map (Prod.mk i)
  | _ => none

omit [Controller T] in
/-- Only an answer to this program can bring it an ack. -/
theorem ackIn_answer {t : HubTurn ι} {hdr : PacketHeader} (hp : Postal addr trs h)
    (hack : (i, hdr) ∈ ackIn addr h t) :
    ∃ l c₂ k c₃, ∃ a ∈ h.answers[k]?, t = .program i (.inside (.recv c₂ (some k) c₃)) ∧
      (h.programs i).conn.phase = .sending l ∧ a.echo.dest = addr i ∧
      hdr = ofBytes a.echo.bytes ∧ l.call.accepts hdr = true := by
  cases t with
  | receiver => simp [ackIn] at hack
  | program j d₀ =>
    cases d₀ with
    | cycle => simp [ackIn] at hack
    | inside inp₀ =>
      obtain ⟨hdr', hbind, heq⟩ := Option.map_eq_some_iff.mp hack
      obtain ⟨rfl, rfl⟩ := Prod.mk.inj heq
      obtain ⟨inp, hres, hack⟩ := Option.bind_eq_some_iff.mp hbind
      obtain ⟨l, c₂, out, c₃, hphase, rfl, hrc, hacc, hhdr⟩ := ackIn_eq_some hack
      cases inp₀ with
      | recv c₂' out₀ c₃' =>
        obtain ⟨out', hout, heq⟩ := Option.map_eq_some_iff.mp hres
        obtain ⟨rfl, rfl, rfl⟩ := Input.recv.inj heq
        cases out₀ with
        | none =>
          obtain rfl : Recv.timeout = out' := Option.some.inj hout
          exact absurd rfl hrc
        | some k =>
          obtain ⟨a, ha, hdest⟩ := Option.bind_eq_some_iff.mp hout
          split_ifs at hdest with haddr
          obtain rfl := Option.some.inj hdest
          obtain ⟨p, -, -, hlen, -⟩ := hp.answers a (List.mem_of_getElem? ha)
          rw [read_recvData (by decide) hlen.ge] at hhdr
          exact ⟨l, c₂', k, c₃', a, ha, rfl, hphase, haddr, hhdr, hacc⟩
      | handshake =>
        obtain ⟨out', -, heq⟩ := Option.map_eq_some_iff.mp hres
        exact absurd heq (by simp)
      | _ => simp [Input.resolve] at hres

/-- Two programs on one host that drew the same `sid`. -/
def twoPorts : Bool → Endpoint
  | false => ⟨0x0100007F, 0x411F⟩
  | true => ⟨0x0100007F, 0x421F⟩

theorem twoPorts_injective : twoPorts.Injective := by decide

def sameNames : Hub Bool Eyenet :=
  fresh (fun _ => Program.onePayload) (fun _ => 7) (fun _ => (freshSender 1).tcp) Echoing.blank

/-- A program greets the receiver, which answers, and sends a window of packets. The greeting and
its answer get the places given. -/
def opening (i : Bool) (greeting answer : ℕ) : List (HubTurn Bool) :=
  [.program i (.cycle 0 0), .program i (.inside (.handshake ⟨0⟩ none)),
    .receiver (some greeting) ⟨0⟩, .program i (.inside (.handshake ⟨0⟩ (some answer))),
    .program i (.inside (.start ⟨0⟩ ⟨0⟩)), .program i (.inside (.top ⟨0⟩))] ++
  List.replicate 10 (.program i (.inside .send))

/-- Both open, and both first packets are answered. -/
def bothOpen : List (HubTurn Bool) :=
  opening false 0 0 ++ opening true 11 1 ++ [.receiver (some 12) ⟨0⟩, .receiver (some 1) ⟨0⟩]

theorem bothOpen_accepted : ((machine twoPorts).exec sameNames bothOpen).isSome := by
  decide +kernel

/-- Whatever names the programs go by: an ack that one of them accepts answers a data packet which
it has sent itself, in the cycle in progress, and not the packet of another program. -/
theorem acks_own (hinj : addr.Injective)
    (hr : (machine addr).Run (fresh settings sid tcp rx) trs h) {t : HubTurn ι}
    {hdr : PacketHeader} (hack : (i, hdr) ∈ ackIn addr h t) :
    ∃ p ∈ h.sent, ∃ l, p.source = addr i ∧ hdr = { ofBytes p.bytes with recvTs := hdr.recvTs } ∧
      (h.programs i).conn.phase = .sending l ∧ hdr.sid = sid i ∧
      hdr.fid = Int32.ofInt (h.programs i).fid ∧
      hdr.id ∈ Program.sent (strides addr i trs) ∧
      0 ≤ hdr.seqNum.toInt ∧ hdr.seqNum.toInt < l.seqNum := by
  have hp := postal_run hr
  obtain ⟨l, c₂, k, c₃, a, ha, -, hphase, hdest, hhdr, hacc⟩ := ackIn_answer hp hack
  obtain ⟨p, hmem, hsrc, -, ts, hbytes⟩ := hp.answers a (List.mem_of_getElem? ha)
  have hp_mem := List.mem_of_getElem? hmem
  have hread : hdr = { ofBytes p.bytes with recvTs := ts } := hhdr.trans hbytes
  obtain ⟨hone, hfit, hsid, hfid, hcurrent⟩ := Program.sending_run (strides_run hr i) hphase
  obtain ⟨haccsid, haccfid⟩ : hdr.sid = l.call.sid ∧ hdr.fid = l.call.fid := by
    simpa [Call.accepts] using hacc
  have hid : hdr.id ∈ Program.sent (strides addr i trs) := by
    obtain ⟨-, j, hj, hhello | hsent⟩ := hp.sent p hp_mem
    · -- a greeting is of no flow
      have hneg : hdr.fid = -1 := by
        simp only [isHello, decide_eq_true_eq] at hhello
        rw [hread]
        exact hhello.2.1
      rw [haccfid, hfid] at hneg
      have htoInt := congrArg Int32.toInt hneg
      rw [Int32.toInt_ofInt_of_le (by omega) (by omega)] at htoInt
      have hminus : (-1 : Int32).toInt = -1 := rfl
      omega
    · obtain rfl := hinj (hdest.symm.trans (hsrc.trans hj))
      rw [hread]
      exact hsent
  refine ⟨p, hp_mem, l, hsrc.symm.trans hdest, by rw [hread], hphase, haccsid.trans hsid,
    haccfid.trans hfid, hid, ?_⟩
  exact hcurrent hdr.id hid haccfid

theorem acks_own_bothOpen :
    ∃ trs h, (machine twoPorts).Run sameNames trs h ∧
      ∃ hdr, (false, hdr) ∈
          ackIn twoPorts h (.program false (.inside (.recv ⟨0⟩ (some 3) ⟨0⟩))) ∧
        ∃ p ∈ h.sent, ∃ l, p.source = twoPorts false ∧
          hdr = { ofBytes p.bytes with recvTs := hdr.recvTs } ∧
          (h.programs false).conn.phase = .sending l ∧ hdr.sid = 7 ∧
          hdr.fid = Int32.ofInt (h.programs false).fid ∧
          hdr.id ∈ Program.sent (strides twoPorts false trs) ∧
          0 ≤ hdr.seqNum.toInt ∧ hdr.seqNum.toInt < l.seqNum := by
  have hr := Machine.exec_get_run bothOpen_accepted
  have hsome : ((ackIn twoPorts (Option.get _ bothOpen_accepted).2
      (.program false (.inside (.recv ⟨0⟩ (some 3) ⟨0⟩)))).filter fun a => a.1 = false).isSome := by
    decide +kernel
  obtain ⟨⟨i, hdr⟩, hfilter⟩ := Option.isSome_iff_exists.mp hsome
  obtain ⟨hack, hi⟩ := Option.filter_eq_some_iff.mp hfilter
  obtain rfl : i = false := by simpa using hi
  exact ⟨_, _, hr, hdr, hack, acks_own twoPorts_injective hr hack⟩

/-- Where an element that a filter keeps stands after it. -/
theorem getElem?_filter_place {α : Type} {p : α → Bool} {l : List α} {n : ℕ} {a : α}
    (h : l[n]? = some a) (ha : p a = true) :
    (l.filter p)[(l.take n).countP p]? = some a := by
  obtain ⟨hn, rfl⟩ := List.getElem?_eq_some_iff.mp h
  have hsplit : l = l.take n ++ l[n] :: l.drop (n + 1) := by
    rw [← List.drop_eq_getElem_cons hn, List.take_append_drop]
  have hfilter : l.filter p = (l.take n).filter p ++ l[n] :: (l.drop (n + 1)).filter p := by
    conv_lhs => rw [hsplit, List.filter_append, List.filter_cons_of_pos ha]
  rw [hfilter, List.countP_eq_length_filter, List.getElem?_append_right le_rfl, Nat.sub_self]
  rfl

def fromMe (addr : ι → Endpoint) (i : ι) (p : Parcel) : Bool := p.source = addr i

def toMe (addr : ι → Endpoint) (i : ι) (a : Answer) : Bool := a.echo.dest = addr i

/-- An answer as one of a receiver that hears of one program only. -/
def reply (addr : ι → Endpoint) (i : ι) (sent : List Parcel) (a : Answer) : Reply :=
  ⟨(sent.take a.source).countP (fromMe addr i), a.echo.bytes⟩

/-- What one program has to do with, as a system of its own. -/
structure Alone (addr : ι → Endpoint) (i : ι) (trs : List (HubStep ι T)) (h : Hub ι T)
    (us : List (Transition (System T) Turn Event)) (s : System T) : Prop where
  sender : s.sender = (h.programs i).conn
  sent : s.sent = (h.sent.filter (fromMe addr i)).map Parcel.bytes
  replies : s.replies = (h.answers.filter (toMe addr i)).map (reply addr i h.sent)
  out : us.flatMap (·.out) = (strides addr i trs).flatMap fun st => (Stride.inner st).out

variable {us : List (Transition (System T) Turn Event)} {s : System T}

omit [Controller T] in
/-- The answers keep their places when more is sent. -/
theorem Alone.post (ha : Alone addr i trs h us s) (hp : Postal addr trs h) (new : List Parcel) :
    s.replies = (h.answers.filter (toMe addr i)).map (reply addr i (h.sent ++ new)) := by
  rw [ha.replies]
  apply List.map_congr_left
  intro a hmem
  obtain ⟨p, hp, -⟩ := hp.answers a (List.mem_of_mem_filter hmem)
  obtain ⟨hlt, -⟩ := List.getElem?_eq_some_iff.mp hp
  rw [reply, reply, List.take_append_of_le_length hlt.le]

omit [Controller T] in
/-- What arrives at the program arrives there too when it is alone. -/
theorem Alone.resolve (ha : Alone addr i trs h us s) {inp₀ : Input (Option ℕ)} {inp : Input Recv}
    (hres : inp₀.resolve (Answer.arrival (addr i) h.answers) = some inp) :
    ∃ inp₁ : Input (Option ℕ), inp₁.resolve (Reply.arrival s.replies) = some inp := by
  have harr : ∀ o r, Answer.arrival (addr i) h.answers o = some r →
      ∃ o', Reply.arrival s.replies o' = some r := by
    intro o r ho
    cases o with
    | none => exact ⟨none, ho⟩
    | some k =>
      obtain ⟨a, hk, hdest⟩ := Option.bind_eq_some_iff.mp ho
      split_ifs at hdest with haddr
      have hkept := getElem?_filter_place (p := toMe addr i) hk (by simp [toMe, haddr])
      refine ⟨some ((h.answers.take k).countP (toMe addr i)), ?_⟩
      rw [Reply.arrival, ha.replies, List.getElem?_map, hkept, ← hdest]
      rfl
  cases inp₀ with
  | handshake c o =>
    obtain ⟨r, ho, rfl⟩ := Option.map_eq_some_iff.mp hres
    obtain ⟨o', ho'⟩ := harr o r ho
    exact ⟨.handshake c o', by simp [Input.resolve, ho']⟩
  | recv c₂ o c₃ =>
    obtain ⟨r, ho, rfl⟩ := Option.map_eq_some_iff.mp hres
    obtain ⟨o', ho'⟩ := harr o r ho
    exact ⟨.recv c₂ o' c₃, by simp [Input.resolve, ho']⟩
  | sendData call => exact ⟨.sendData call, hres⟩
  | start t₀ t₁ => exact ⟨.start t₀ t₁, hres⟩
  | top c => exact ⟨.top c, hres⟩
  | send => exact ⟨.send, hres⟩

/-- A turn of the program itself. -/
theorem Alone.own (ha : Alone addr i trs tr.src us s) (hp : Postal addr trs tr.src)
    (ht : (machine addr).Takes tr) (hin : tr.input = .program i d₀) :
    ∃ us' s', System.machine.Run s us' s' ∧ Alone addr i (trs ++ [tr]) tr.dst (us ++ us') s' := by
  obtain ⟨d, r, hres, hr, hout, hdst⟩ := takes_program ht hin
  have hst : stride addr i tr = some ⟨tr.src.programs i, d, r.log, r.val⟩ := by
    simp [stride, hin, hres, hout, hdst, Function.comp_def]
  have htake : Program.machine.Takes ⟨tr.src.programs i, d, r.log, r.val⟩ := hr
  have hinner := Program.takes_inner htake
  -- the same input, with the places of what is this program's
  obtain ⟨inp, hinp⟩ : ∃ inp : Input (Option ℕ), inp.resolve (Reply.arrival s.replies) =
      some (Stride.inner ⟨tr.src.programs i, d, r.log, r.val⟩).input := by
    cases d₀ with
    | cycle onSample offSample =>
      obtain rfl := Option.some.inj hres
      exact ⟨.sendData ((tr.src.programs i).call onSample offSample), rfl⟩
    | inside inp₀ =>
      obtain ⟨inp, hinp, rfl⟩ := Option.map_eq_some_iff.mp hres
      exact ha.resolve hinp
  have hsystem : System.machine.Takes
      ⟨s, .sender inp, r.log.filterMap Output.event?,
        { s with sender := r.val.conn, sent := s.sent ++ datagrams r }⟩ := by
    have hstep : s.sender.step (Stride.inner ⟨tr.src.programs i, d, r.log, r.val⟩).input =
        some ⟨r.val.conn, r.log.filterMap Output.event?⟩ := by
      rw [ha.sender]
      exact hinner
    simp only [Machine.Takes, System.machine, System.step, System.senderStep, hinp]
    change (s.sender.step _).bind _ = _
    rw [hstep]
    rfl
  refine ⟨_, _, .snoc .refl hsystem, ?_⟩
  rw [hdst]
  constructor
  · simp
  · have hmine : ((datagrams r).map (Parcel.mk (addr i))).filter (fromMe addr i) =
        (datagrams r).map (Parcel.mk (addr i)) := by
      simp [List.filter_eq_self, fromMe]
    rw [List.filter_append, hmine, List.map_append, ← ha.sent, List.map_map]
    simp [Function.comp_def]
  · exact ha.post hp _
  · rw [List.flatMap_append, ha.out, strides_concat, hst, List.flatMap_append]
    simp [Stride.inner]

/-- A turn of another program. -/
theorem Alone.other (ha : Alone addr i trs tr.src us s) (hp : Postal addr trs tr.src)
    (hinj : addr.Injective) (ht : (machine addr).Takes tr) {j : ι} (hij : j ≠ i)
    (hin : tr.input = .program j d₀) : Alone addr i (trs ++ [tr]) tr.dst us s := by
  obtain ⟨d, r, hres, hr, hout, hdst⟩ := takes_program ht hin
  have hst : stride addr i tr = none := by simp [stride, hin, hij]
  rw [hdst]
  constructor
  · exact ha.sender.trans (congrArg Program.conn (Function.update_of_ne hij.symm _ _).symm)
  · have hnone : ((datagrams r).map (Parcel.mk (addr j))).filter (fromMe addr i) = [] := by
      simp [List.filter_eq_nil_iff, fromMe, hinj.ne hij]
    rw [List.filter_append, hnone, List.append_nil]
    exact ha.sent
  · exact ha.post hp _
  · rw [ha.out, strides_concat, hst, Option.toList_none, List.append_nil]

/-- A turn of the receiver. -/
theorem Alone.receive (ha : Alone addr i trs tr.src us s) (hp : Postal addr trs tr.src)
    (ht : (machine addr).Takes tr) {out : Option ℕ} {c : Double}
    (hin : tr.input = .receiver out c) :
    ∃ us' s', System.machine.Run s us' s' ∧ Alone addr i (trs ++ [tr]) tr.dst (us ++ us') s' := by
  obtain ⟨rx, answers, -, hlt, hdst, hanswers⟩ := takes_receive ht hin
  have hst : stride addr i tr = none := by simp [stride, hin]
  have hout : us.flatMap (·.out) =
      (strides addr i (trs ++ [tr])).flatMap fun st => (Stride.inner st).out := by
    rw [ha.out, strides_concat, hst, Option.toList_none, List.append_nil]
  rw [hdst, hanswers fun p hmem => (hp.sent p hmem).1]
  -- an answer that does not go to this program is none of its business
  have hskip : (answersTo tr.src.sent out c).filter (toMe addr i) = [] →
      ∃ us' s', System.machine.Run s us' s' ∧
        Alone addr i (trs ++ [tr]) { tr.src with
          receiver := rx
          answers := tr.src.answers ++ answersTo tr.src.sent out c } (us ++ us') s' := by
    intro hnil
    refine ⟨[], s, .refl, ha.sender, ha.sent, ?_, by simpa using hout⟩
    rw [List.filter_append, hnil, List.append_nil]
    exact ha.replies
  cases out with
  | none => exact hskip rfl
  | some n =>
    obtain ⟨p, hn⟩ : ∃ p, tr.src.sent[n]? = some p :=
      ⟨_, List.getElem?_eq_getElem (hlt n rfl)⟩
    by_cases hsrc : p.source = addr i
    · have hlen := (hp.sent p (List.mem_of_getElem? hn)).1
      have hkept := getElem?_filter_place (p := fromMe addr i) hn (by simp [fromMe, hsrc])
      have hfind : s.sent[(tr.src.sent.take n).countP (fromMe addr i)]? = some p.bytes := by
        rw [ha.sent, List.getElem?_map, hkept]
        rfl
      have htake : System.machine.Takes
          ⟨s, .receiver (some ((tr.src.sent.take n).countP (fromMe addr i))) c, [],
            { s with
              receiver := (ackPackets s.receiver (.datagram p.bytes) c).val
              replies := s.replies ++ [⟨(tr.src.sent.take n).countP (fromMe addr i),
                p.bytes.take recvTsOff ++ doubleBytes c⟩] }⟩ := by
        simp only [Machine.Takes, System.machine, System.step, System.receiverStep, hfind]
        simp [ackPackets_log hlen]
        rfl
      refine ⟨_, _, .snoc .refl htake, ha.sender, ha.sent, ?_, by simpa using hout⟩
      have hmine : (answersTo tr.src.sent (some n) c).filter (toMe addr i) =
          answersTo tr.src.sent (some n) c := by
        simp [answersTo, hn, toMe, hsrc]
      rw [List.filter_append, hmine, List.map_append, ← ha.replies]
      simp [answersTo, hn, reply]
    · refine hskip ?_
      simp [answersTo, hn, toMe, hsrc]

theorem takes_alone (hinj : addr.Injective) (ht : (machine addr).Takes tr)
    (hp : Postal addr trs tr.src) (ha : Alone addr i trs tr.src us s) :
    ∃ us' s', System.machine.Run s us' s' ∧ Alone addr i (trs ++ [tr]) tr.dst (us ++ us') s' := by
  cases hin : tr.input with
  | receiver out c => exact ha.receive hp ht hin
  | program j d₀ =>
    by_cases hij : j = i
    · subst hij
      exact ha.own hp ht hin
    · exact ⟨[], s, .refl, by simpa using ha.other hp hinj ht hij hin⟩

/-- Each of the programs goes through what it could also go through if it had the receiver and the
network to itself: its state, and all that it does and sends, are the same. -/
theorem each_alone (hinj : addr.Injective)
    (hr : (machine addr).Run (fresh settings sid tcp rx) trs h) (i : ι) (buf : Buf) :
    ∃ us s, System.machine.Run (System.fresh (tcp i) buf) us s ∧
      s.sender = (h.programs i).conn ∧
      s.sent = (h.sent.filter (fromMe addr i)).map Parcel.bytes ∧
      us.flatMap (·.out) = (strides addr i trs).flatMap fun st => (Stride.inner st).out := by
  have hpostal : ∀ pre tr post, trs = pre ++ tr :: post → Postal addr pre tr.src :=
    fun pre tr post he => postal_run (hr.split he).1
  have hfresh : Alone addr i [] (fresh settings sid tcp rx) [] (System.fresh (tcp i) buf) :=
    ⟨rfl, rfl, rfl, rfl⟩
  obtain ⟨us, s, hrun, ha⟩ := hr.follow hpostal hfresh
    fun _ _ _ _ ht hp ha => takes_alone hinj ht hp ha
  exact ⟨us, s, hrun, ha.sender, ha.sent, ha.out⟩

theorem each_alone_bothOpen :
    ∃ trs h, (machine twoPorts).Run sameNames trs h ∧
      ∃ us s, System.machine.Run (System.fresh (freshSender 1).tcp fun _ => 0) us s ∧
        s.sender = (h.programs true).conn ∧
        s.sent = (h.sent.filter (fromMe twoPorts true)).map Parcel.bytes ∧
        us.flatMap (·.out) =
          (strides twoPorts true trs).flatMap fun st => (Stride.inner st).out :=
  ⟨_, _, Machine.exec_get_run bothOpen_accepted,
    each_alone twoPorts_injective (Machine.exec_get_run bothOpen_accepted) true fun _ => 0⟩

end Hub

end TcpEyenet
