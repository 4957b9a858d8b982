import TcpEyenet.EndToEnd.Standing
import TcpEyenet.Lib.Simulation
import TcpEyenet.Transport.Divisors
import TcpEyenet.Transport.Flows

/-! The program around a sender: the cycles of vns_packet_sender and the `main` of vns_sender. -/
namespace TcpEyenet

/-- The members of `packet_sender` besides its connection. -/
structure PacketSender where
  ncycles : Int32
  onUnits : ℚ
  offUnits : ℚ
  switcher : SwitchingType
  trafficDist : TrafficDistType
  deriving DecidableEq

namespace PacketSender

def new (args : SenderArgs) : PacketSender :=
  { ncycles := args.cycles
    onUnits := args.onUnits.toInt
    offUnits := args.offUnits.toInt
    switcher := args.switcher
    trafficDist := args.trafficDist }

def isByteSwitcher (p : PacketSender) : Bool := p.switcher = .bytes

def isDeterministic (p : PacketSender) : Bool := p.trafficDist = .deterministic

/-- `update_dist`, given what its two distributions would yield. -/
def updateDist (p : PacketSender) (onSample offSample : ℚ) : ℚ × ℚ :=
  (if p.isDeterministic then p.onUnits else onSample,
    if p.isDeterministic then p.offUnits else offSample)

def units (p : PacketSender) : String := if p.isByteSwitcher then "bytes]" else "ms]"

end PacketSender

/-- What the program does besides its computations. -/
inductive Output
  | sleep (ms : ℤ)
  | event (e : Event)
  | line (sid fid : Int32) (on : ℚ) (units : String)
  deriving DecidableEq

/-- The locals of `run`. The last `fid` may lie past an `int32_t`; nothing is done with it. -/
structure Program (T : Type) where
  settings : PacketSender
  sid : Int32
  fid : ℤ
  onUnits : ℚ
  conn : Sender T

/-- A cycle begins, with the samples of its distributions, or `send_data` moves on. -/
inductive Drive (ρ : Type)
  | cycle (onSample offSample : ℚ)
  | inside (i : Input ρ)

namespace Program

variable {T : Type} [Controller T]

/-- `run` before its first cycle. -/
def new (settings : PacketSender) (sid : Int32) (tcp : TcpTransport T) : Program T :=
  { settings := settings, sid := sid, fid := 1, onUnits := 0, conn := ⟨tcp, .idle⟩ }

def call (p : Program T) (onSample offSample : ℚ) : Call :=
  { fsz := (p.settings.updateDist onSample offSample).1
    byteSwitcher := p.settings.isByteSwitcher
    fid := Int32.ofInt p.fid
    sid := p.sid }

/-- The test of the loop, the sleep and the call. -/
def begin (p : Program T) (onSample offSample : ℚ) : Option (Traced Output (Program T)) :=
  if p.fid ≤ p.settings.ncycles.toInt then
    let c := p.call onSample offSample
    (p.conn.step (.sendData c)).map fun r =>
      ⟨{ p with onUnits := c.fsz, conn := r.val },
        .sleep (truncate (p.settings.updateDist onSample offSample).2) :: r.log.map .event⟩
  else none

/-- A step inside `send_data`, and the end of the cycle once it has returned. -/
def proceed (p : Program T) (i : Input Recv) : Option (Traced Output (Program T)) :=
  if (callIn i).isSome then none
  else
    (p.conn.step i).map fun r =>
      if r.val.phase.isIdle then
        ⟨{ p with fid := p.fid + 1, conn := r.val },
          r.log.map .event ++ [.line p.sid (Int32.ofInt p.fid) p.onUnits p.settings.units]⟩
      else ⟨{ p with conn := r.val }, r.log.map .event⟩

def step (p : Program T) : Drive Recv → Option (Traced Output (Program T))
  | .cycle onSample offSample => p.begin onSample offSample
  | .inside i => p.proceed i

def machine : Machine (Program T) (Drive Recv) Output := ⟨step⟩

end Program

/-- `main`, for the congestion control of the repository. -/
def vnsSender (parsed : Option Given) (sid : Int32) : Option (Program Eyenet) :=
  match (parseSenderArgs parsed).val with
  | some args =>
    if args.cong = .eyenet then
      some (.new (.new args) sid (.new (Eyenet.new 1) args.bnTrain.toInt))
    else none
  | none => none

theorem conn_vnsSender (parsed : Option Given) (sid : Int32) :
    (vnsSender parsed sid).map Program.conn = launch parsed := by
  unfold vnsSender launch
  cases (parseSenderArgs parsed).val with
  | none => rfl
  | some args => exact apply_ite (Option.map Program.conn) _ _ _

abbrev Stride (T : Type) := Transition (Program T) (Drive Recv) Output

def Output.event? : Output → Option Event
  | .event e => some e
  | _ => none

/-- What `run` prints of the cycles that are over. -/
def Output.line? : Output → Option (Int32 × Int32)
  | .line sid fid _ _ => some (sid, fid)
  | _ => none

variable {T : Type} [Controller T]

/-- The step of `send_data` in a step of the program. -/
def Stride.inner (tr : Stride T) : Action T :=
  { src := tr.src.conn
    input := match tr.input with
      | .cycle onSample offSample => .sendData (tr.src.call onSample offSample)
      | .inside i => i
    out := tr.out.filterMap Output.event?
    dst := tr.dst.conn }

namespace Program

variable {p q : Program T} {tr : Stride T} {trs : List (Stride T)} {settings : PacketSender}
  {sid : Int32} {tcp : TcpTransport T}

/-- The calls of `send_data`, in order. -/
def calls (trs : List (Stride T)) : List Call := callsOf (trs.map Stride.inner)

/-- The data packets that go out, in order. -/
def sent (trs : List (Stride T)) : List PacketId := dataPackets (trs.map Stride.inner)

/-- The flows whose end was printed. -/
def printed (trs : List (Stride T)) : List (Int32 × Int32) :=
  trs.flatMap fun tr => tr.out.filterMap Output.line?

/-- A step of the program with its guard and its outcome. -/
inductive Strides (p : Program T) : Stride T → Prop
  | begins (onSample offSample : ℚ) (r : Traced Event (Sender T))
      (hfid : p.fid ≤ p.settings.ncycles.toInt)
      (h : p.conn.step (.sendData (p.call onSample offSample)) = some r) :
      Strides p ⟨p, .cycle onSample offSample,
        .sleep (truncate (p.settings.updateDist onSample offSample).2) :: r.log.map .event,
        { p with onUnits := (p.call onSample offSample).fsz, conn := r.val }⟩
  | goesOn (i : Input Recv) (r : Traced Event (Sender T)) (hcall : callIn i = none)
      (h : p.conn.step i = some r) (hidle : r.val.phase.isIdle = false) :
      Strides p ⟨p, .inside i, r.log.map .event, { p with conn := r.val }⟩
  | returns (i : Input Recv) (r : Traced Event (Sender T)) (hcall : callIn i = none)
      (h : p.conn.step i = some r) (hidle : r.val.phase.isIdle = true) :
      Strides p ⟨p, .inside i,
        r.log.map .event ++ [.line p.sid (Int32.ofInt p.fid) p.onUnits p.settings.units],
        { p with fid := p.fid + 1, conn := r.val }⟩

theorem takes_strides (ht : machine.Takes tr) : Strides tr.src tr := by
  obtain ⟨p, i, out, q⟩ := tr
  cases i with
  | cycle onSample offSample =>
    simp only [Machine.Takes, machine, step, begin] at ht
    split_ifs at ht with hfid
    obtain ⟨r, hr, heq⟩ := Option.map_eq_some_iff.mp ht
    obtain ⟨rfl, rfl⟩ := Traced.mk.inj heq
    exact .begins onSample offSample r hfid hr
  | inside i =>
    simp only [Machine.Takes, machine, step, proceed] at ht
    split_ifs at ht with hcall
    obtain ⟨r, hr, heq⟩ := Option.map_eq_some_iff.mp ht
    have hnone : callIn i = none := by simpa using hcall
    split_ifs at heq with hidle
    · obtain ⟨rfl, rfl⟩ := Traced.mk.inj heq
      exact .returns i r hnone hr hidle
    · obtain ⟨rfl, rfl⟩ := Traced.mk.inj heq
      exact .goesOn i r hnone hr (by simpa using hidle)

theorem event_out (log : List Event) :
    (log.map Output.event).filterMap Output.event? = log := by
  simp [List.filterMap_map, Function.comp_def, Output.event?]

theorem line_out (log : List Event) :
    (log.map Output.event).filterMap Output.line? = [] := by
  simp [List.filterMap_map, Function.comp_def, Output.line?]

/-- A step of the program is one of its sender. -/
theorem takes_inner (ht : machine.Takes tr) : Sender.machine.Takes (Stride.inner tr) := by
  have hs := takes_strides ht
  generalize tr.src = p at hs
  cases hs with
  | begins onSample offSample r hfid h =>
    simp only [Machine.Takes, Stride.inner, List.filterMap_cons, Output.event?, event_out]
    exact h
  | goesOn i r hcall h hidle =>
    simp only [Machine.Takes, Stride.inner, event_out]
    exact h
  | returns i r hcall h hidle =>
    simp only [Machine.Takes, Stride.inner, List.filterMap_append, event_out,
      List.filterMap_cons, Output.event?, List.filterMap_nil, List.append_nil]
    exact h

theorem conn_run (hr : machine.Run p trs q) :
    Sender.machine.Run p.conn (trs.map Stride.inner) q.conn := by
  rw [← List.filterMap_eq_map]
  refine hr.project (f := Program.conn) ?_ (fun tr _ hg => by simp at hg)
  intro tr tr' ht hg
  obtain rfl := Option.some.inj hg
  exact ⟨takes_inner ht, rfl, rfl⟩

/-- Only a call leaves the state between calls, and it does not come back at once. -/
theorem sendData_phases {s : Sender T} {c : Call} {r : Traced Event (Sender T)}
    (h : s.step (.sendData c) = some r) :
    s.phase.isIdle = true ∧ r.val.phase.isIdle = false := by
  cases step_move h with
  | sendData tcp => exact ⟨rfl, rfl⟩

theorem not_idle_of_step {s : Sender T} {i : Input Recv} {r : Traced Event (Sender T)}
    (h : s.step i = some r) (hcall : callIn i = none) : s.phase.isIdle = false := by
  rw [← Bool.not_eq_true, Phase.isIdle_iff]
  intro hidle
  obtain ⟨c, rfl⟩ := move_idle (step_move h) hidle
  simp [callIn] at hcall

/-- The flow of a cycle, the first one being 0. -/
def flow (sid : Int32) (j : ℕ) : Int32 × Int32 := (sid, Int32.ofNat (j + 1))

/-- Up to a state the program has printed `m` cycles and begun one more unless it is between two. -/
structure Cycling (settings : PacketSender) (sid : Int32) (m k : ℕ) (trs : List (Stride T))
    (p : Program T) : Prop where
  configured : p.settings = settings
  named : p.sid = sid
  fid : p.fid = m + 1
  printed : printed trs = (List.range m).map (flow sid)
  calls : (calls trs).map (fun c => (c.sid, c.fid)) = (List.range k).map (flow sid)
  begun : k = if p.conn.phase.isIdle then m else m + 1
  bounded : (k : ℤ) ≤ max 0 settings.ncycles.toInt
  alike : ∀ c ∈ Program.calls trs, c.byteSwitcher = settings.isByteSwitcher ∧
    (settings.isDeterministic = true → c.fsz = settings.onUnits)

omit [Controller T] in
theorem calls_concat :
    calls (trs ++ [tr]) = calls trs ++ (callIn (Stride.inner tr).input).toList := by
  simp [calls, callsOf_concat]

omit [Controller T] in
theorem printed_concat : printed (trs ++ [tr]) = printed trs ++ tr.out.filterMap Output.line? := by
  simp [printed]

theorem takes_cycling {m k : ℕ} (ht : machine.Takes tr) (h : Cycling settings sid m k trs tr.src) :
    ∃ m' k', Cycling settings sid m' k' (trs ++ [tr]) tr.dst := by
  have hs := takes_strides ht
  obtain ⟨hset, hsid, hfid, hprint, hcalls, hbegun, hbound, halike⟩ := h
  generalize tr.src = p at *
  cases hs with
  | begins onSample offSample r hle hr =>
    obtain ⟨hidle, hbusy⟩ := sendData_phases hr
    simp only [hidle, if_true] at hbegun
    have hflow : ((p.call onSample offSample).sid, (p.call onSample offSample).fid) =
        flow sid k := by
      simp only [call, flow, hsid, hfid, hbegun]
      rfl
    refine ⟨m, k + 1, hset, hsid, hfid, ?_, ?_, ?_, ?_, ?_⟩
    · rw [printed_concat, List.filterMap_cons, line_out, hprint]
      exact List.append_nil _
    · rw [calls_concat, List.map_append, hcalls, List.range_succ, List.map_append]
      simp [callIn, Stride.inner, hflow]
    · simp [hbusy, hbegun]
    · rw [hset] at hle
      omega
    · rw [calls_concat]
      intro c hc
      rcases List.mem_append.mp hc with hc | hc
      · exact halike c hc
      · obtain rfl : c = p.call onSample offSample := by
          simpa [callIn, Stride.inner, eq_comm] using hc
        refine ⟨by rw [← hset]; rfl, ?_⟩
        intro hdet
        simp [call, PacketSender.updateDist, hset, hdet]
  | goesOn i r hcall hr hidle =>
    have hbusy := not_idle_of_step hr hcall
    refine ⟨m, k, hset, hsid, hfid, ?_, ?_, ?_, hbound, ?_⟩
    · rw [printed_concat, line_out, hprint, List.append_nil]
    · simpa [calls_concat, Stride.inner, hcall] using hcalls
    · simpa [hidle, hbusy] using hbegun
    · simpa [calls_concat, Stride.inner, hcall] using halike
  | returns i r hcall hr hidle =>
    have hbusy := not_idle_of_step hr hcall
    refine ⟨m + 1, k, hset, hsid, by simp [hfid], ?_, ?_, ?_, hbound, ?_⟩
    · rw [printed_concat, List.filterMap_append, line_out, hprint, List.range_succ,
        List.map_append, List.nil_append, hsid, hfid]
      rfl
    · simpa [calls_concat, Stride.inner, hcall] using hcalls
    · simpa [hidle, hbusy] using hbegun
    · simpa [calls_concat, Stride.inner, hcall] using halike

theorem cycling_run (hr : machine.Run (new settings sid tcp) trs p) :
    ∃ m k, Cycling settings sid m k trs p := by
  refine hr.history (I := fun trs p => ∃ m k, Cycling settings sid m k trs p) (C := fun _ => True)
    (by simp) ⟨0, 0, rfl, rfl, rfl, rfl, rfl, rfl, le_max_left _ _, by simp [calls, callsOf]⟩ ?_
  rintro ts tr ht - ⟨m, k, h⟩
  exact takes_cycling ht h

/-- The packets of the cycles, cycle after cycle, given how many each of them sends. -/
def inOrder (sid : Int32) (sizes : List ℕ) : List PacketId :=
  sizes.zipIdx.flatMap fun f =>
    (List.range f.1).map fun k => ⟨sid, Int32.ofNat (f.2 + 1), Int32.ofNat k⟩

theorem onTheWire_eq_inOrder {flows : List (Call × ℕ)}
    (h : flows.map (fun f => (f.1.sid, f.1.fid)) = (List.range flows.length).map (flow sid)) :
    onTheWire flows = inOrder sid (flows.map Prod.snd) := by
  induction flows using List.reverseRecOn with
  | nil => rfl
  | append_singleton flows f ih =>
    rw [List.length_append, List.length_singleton, List.range_succ, List.map_append,
      List.map_append] at h
    obtain ⟨hpre, hlast⟩ := List.append_inj' h rfl
    obtain ⟨hsid, hfid⟩ := Prod.mk.inj (List.cons.inj hlast).1
    rw [onTheWire_concat, ih hpre]
    simp [inOrder, List.zipIdx_append, Call.firstPackets, hsid, hfid]

/-- No two cycles share a flow. -/
theorem flows_nodup {k : ℕ} (hk : k < 2 ^ 31) : ((List.range k).map (flow sid)).Nodup := by
  refine (List.nodup_map_iff_inj_on List.nodup_range).mpr ?_
  intro i hi j hj hij
  rw [List.mem_range] at hi hj
  have hnum := congrArg (fun f => f.2.toInt) hij
  simp only [flow] at hnum
  rw [Int32.toInt_ofNat_of_lt (by omega), Int32.toInt_ofNat_of_lt (by omega)] at hnum
  omega

/-- The flows of a run with their packets, and what the program makes of them. -/
theorem flows_run (hr : machine.Run (new settings sid tcp) trs p) :
    ∃ m k, Cycling settings sid m k trs p ∧
      Serial (calls trs) (sent trs) (flowsOf (trs.map Stride.inner)) p.conn ∧
      (flowsOf (trs.map Stride.inner)).map (fun f => (f.1.sid, f.1.fid)) =
        (List.range k).map (flow sid) := by
  obtain ⟨m, k, hcyc⟩ := cycling_run hr
  have hserial := serial_run (conn_run hr)
  refine ⟨m, k, hcyc, hserial, ?_⟩
  rw [← hcyc.calls, calls, ← hserial.calls, List.map_map]
  rfl

/-- Inside the loop of `send_data` the cycle in progress goes by a number of its own, and what was
sent under that number was sent in it. -/
theorem sending_run {l : Locals} (hr : machine.Run (new settings sid tcp) trs p)
    (hphase : p.conn.phase = .sending l) :
    1 ≤ p.fid ∧ p.fid < 2 ^ 31 ∧ l.call.sid = sid ∧ l.call.fid = Int32.ofInt p.fid ∧
      ∀ id ∈ sent trs, id.fid = l.call.fid →
        0 ≤ id.seqNum.toInt ∧ id.seqNum.toInt < l.seqNum := by
  obtain ⟨m, k, hcyc, hserial, hflows⟩ := flows_run hr
  have hlatest := hserial.latest
  simp only [hphase, Latest] at hlatest
  obtain ⟨hnn, hlt, pre, hpre⟩ := hlatest
  have hfit := settings.ncycles.toInt_lt
  have hbound := hcyc.bounded
  have hfid := hcyc.fid
  have hk : k = m + 1 := by simpa [hphase, Phase.isIdle] using hcyc.begun
  -- the cycle in progress is the last of those begun
  have hcall : l.call.sid = sid ∧ l.call.fid = Int32.ofNat (m + 1) := by
    have hsplit := hflows
    rw [hpre, hk, List.range_succ, List.map_append, List.map_append] at hsplit
    have hlast := (List.append_inj' hsplit rfl).2
    exact Prod.mk.inj (List.cons.inj hlast).1
  refine ⟨by omega, by omega, hcall.1, by rw [hcall.2, hfid]; rfl, ?_⟩
  intro id hid hsame
  rw [← hserial.ids] at hid
  obtain ⟨f, hf, hpkt⟩ := List.mem_flatMap.mp hid
  obtain ⟨j, hj, rfl⟩ := List.mem_map.mp hpkt
  have hnodup : ((flowsOf (trs.map Stride.inner)).map fun f => (f.1.sid, f.1.fid)).Nodup := by
    rw [hflows]
    exact flows_nodup (by omega)
  have hlast : (l.call, l.seqNum.toNat) ∈ flowsOf (trs.map Stride.inner) := by simp [hpre]
  have hsid : f.1.sid = sid := by
    have hmem := List.mem_map_of_mem (f := fun f : Call × ℕ => (f.1.sid, f.1.fid)) hf
    rw [hflows] at hmem
    obtain ⟨_, -, heq⟩ := List.mem_map.mp hmem
    exact (Prod.mk.inj heq).1.symm
  obtain rfl := List.inj_on_of_nodup_map hnodup hf hlast
    (Prod.ext (hsid.trans hcall.1.symm) hsame)
  rw [List.mem_range] at hj
  rw [Int32.toInt_ofNat_of_lt (by omega)]
  omega

/-- Two cycles of one payload each, both by the settings. -/
def onePayload : PacketSender :=
  { ncycles := 2
    onUnits := payload
    offUnits := 0
    switcher := .bytes
    trafficDist := .deterministic }

/-- The first cycle sends its window and hears of a packet; the second has nothing to do. -/
def twoCycles : List (Drive Recv) :=
  [.cycle 0 0] ++ ((firstWindow.drop 1).map .inside ++
    [.inside (.recv ⟨0⟩ (echo 0) ⟨0⟩), .inside (.top ⟨0⟩)]) ++
  [.cycle 0 0] ++ ((firstWindow.drop 1).take 3).map .inside

theorem twoCycles_accepted :
    (machine.exec (new onePayload 7 (freshSender 1).tcp) twoCycles).isSome := by
  decide +kernel

/-- The data packets of a run are those of its cycles in order, each cycle numbered from 0 on
without a gap, and no packet goes out twice. A line is printed for each cycle that is over. -/
theorem sent_in_order (hr : machine.Run (new settings sid tcp) trs p) :
    ∃ (m : ℕ) (sizes : List ℕ), m ≤ sizes.length ∧ sizes.length ≤ m + 1 ∧
      (sizes.length : ℤ) ≤ max 0 settings.ncycles.toInt ∧ (∀ n ∈ sizes, n ≤ 2 ^ 31) ∧
      printed trs = (List.range m).map (flow sid) ∧
      sent trs = inOrder sid sizes ∧ (sent trs).Nodup := by
  obtain ⟨m, k, hcyc, hserial, hflows⟩ := flows_run hr
  generalize flowsOf (trs.map Stride.inner) = flows at hserial hflows
  have hlen : flows.length = k := by simpa using congrArg List.length hflows
  have hfit := settings.ncycles.toInt_lt
  have hbound := hcyc.bounded
  refine ⟨m, flows.map Prod.snd, ?_, ?_, ?_, ?_, hcyc.printed, ?_, ?_⟩
  · rw [List.length_map, hlen, hcyc.begun]
    split_ifs <;> omega
  · rw [List.length_map, hlen, hcyc.begun]
    split_ifs <;> omega
  · rwa [List.length_map, hlen]
  · intro n hn
    obtain ⟨f, hf, rfl⟩ := List.mem_map.mp hn
    exact hserial.sizes f hf
  · rw [← hserial.ids]
    exact onTheWire_eq_inOrder (hlen ▸ hflows)
  · rw [← hserial.ids]
    refine onTheWire_nodup ?_ hserial.sizes
    rw [hflows]
    exact flows_nodup (by omega)

theorem sent_in_order_twoCycles :
    ∃ trs p, machine.Run (new onePayload 7 (freshSender 1).tcp) trs p ∧
      ∃ (m : ℕ) (sizes : List ℕ), m ≤ sizes.length ∧ sizes.length ≤ m + 1 ∧
        (sizes.length : ℤ) ≤ max 0 onePayload.ncycles.toInt ∧ (∀ n ∈ sizes, n ≤ 2 ^ 31) ∧
        printed trs = (List.range m).map (flow 7) ∧
        sent trs = inOrder 7 sizes ∧ (sent trs).Nodup :=
  ⟨_, _, Machine.exec_get_run twoCycles_accepted,
    sent_in_order (Machine.exec_get_run twoCycles_accepted)⟩

/-- Cycles that are measured in bytes count what earlier ones got as well: one of them sends only
if it asks for more than each cycle before it. If all ask for the same only the first one sends. -/
theorem bytes_outgrown (hr : machine.Run (new settings sid tcp) trs p)
    (hbytes : settings.switcher = .bytes) :
    (∃ flows : List (Call × ℕ), flows.map Prod.fst = calls trs ∧ onTheWire flows = sent trs ∧
      flows.Pairwise fun f g => 0 < g.2 → f.1.fsz < g.1.fsz) ∧
    (settings.trafficDist = .deterministic → ∀ id ∈ sent trs, id.fid = 1) := by
  obtain ⟨m, k, hcyc, hserial, hflows⟩ := flows_run hr
  have hswitch : ∀ c ∈ calls trs, c.byteSwitcher = true := by
    intro c hc
    rw [(hcyc.alike c hc).1]
    simp [PacketSender.isByteSwitcher, hbytes]
  obtain ⟨hpair, -⟩ := outgrown_run (conn_run hr) hswitch
  generalize flowsOf (trs.map Stride.inner) = flows at hserial hflows hpair
  refine ⟨⟨flows, hserial.calls, hserial.ids, hpair⟩, ?_⟩
  intro hdet id hid
  have hsame : ∀ f ∈ flows, f.1.fsz = settings.onUnits := by
    intro f hf
    refine (hcyc.alike f.1 (hserial.calls ▸ List.mem_map_of_mem hf)).2 ?_
    simp [PacketSender.isDeterministic, hdet]
  rw [← hserial.ids] at hid
  obtain ⟨f, hf, hpkt⟩ := List.mem_flatMap.mp hid
  obtain ⟨j, hj, rfl⟩ := List.mem_map.mp hpkt
  cases flows with
  | nil => simp at hf
  | cons first rest =>
    rcases List.mem_cons.mp hf with rfl | hlater
    · cases k with
      | zero => simp at hflows
      | succ k =>
        rw [List.range_succ_eq_map] at hflows
        exact (Prod.mk.inj (List.cons.inj hflows).1).2
    · have hpos : 0 < f.2 := Nat.zero_lt_of_lt (List.mem_range.mp hj)
      have hlt := (List.pairwise_cons.mp hpair).1 f hlater hpos
      rw [hsame first (by simp), hsame f hf] at hlt
      exact absurd hlt (lt_irrefl _)

theorem bytes_outgrown_twoCycles :
    ∃ trs p, machine.Run (new onePayload 7 (freshSender 1).tcp) trs p ∧
      (∃ flows : List (Call × ℕ), flows.map Prod.fst = calls trs ∧ onTheWire flows = sent trs ∧
        flows.Pairwise fun f g => 0 < g.2 → f.1.fsz < g.1.fsz) ∧
      (onePayload.trafficDist = .deterministic → ∀ id ∈ sent trs, id.fid = 1) :=
  ⟨_, _, Machine.exec_get_run twoCycles_accepted,
    bytes_outgrown (Machine.exec_get_run twoCycles_accepted) rfl⟩

end Program

end TcpEyenet
