import TcpEyenet.Lib.Simulation
import TcpEyenet.Ttest.Counts
import TcpEyenet.Ttest.Received

/-! Clients of ttest and its server, with the network between them. -/
namespace TcpEyenet.Ttest

open Bytes

namespace Thread

variable {th : Thread} {w : Sworker} {tr : Act} {trs : List Act} {mem b : Buf} {t : Tsnd} {m : ℕ}
  {d : List UInt8}

/-- A sending thread of a client whose command line was accepted, at its start. -/
inductive Started : Thread → Prop
  | mk {prog : List Char} {argv : List (List Char)} {p : ProgParam} {t : Tsnd} {w : Sworker}
      (hp : (parseArgs prog argv).val = some p) (ht : startClient p = some t)
      (hw : w ∈ t.workers) (mem : Buf) : Started (new t w mem)

theorem Started.worker (h : th.Started) :
    ∃ t w mem, th = new t w mem ∧ w.stats = 0 ∧ hdrsz ≤ w.psize.toNat := by
  obtain ⟨hp, ht, hw, mem⟩ := h
  obtain ⟨hstats, hsize⟩ := worker_settings hp ht hw
  refine ⟨_, _, mem, rfl, hstats, ?_⟩
  rw [hsize]
  exact (by decide : hdrsz ≤ 64).trans (parseArgs_valid hp).pktsize.1

/-- The signature and the size stand in the header. -/
structure Headed (w : Sworker) : Prop where
  sig : netField (w.phdr.load 0 hdrsz) 0 4 = ttestPktSig
  pktsize : netField (w.phdr.load 0 hdrsz) 8 2 = w.psize.toNat

theorem headed_new (t : Tsnd) (w : Sworker) (mem : Buf) : Headed (new t w mem).worker := by
  have hlen : (netBytes 4 ttestPktSig).length = 4 := by decide
  have hlen' : (netBytes 2 w.psize.toNat).length = 2 := by simp [netBytes]
  constructor
  · simp only [new, Sworker.allocatePkt]
    rw [netField_load (by decide), Buf.load_store_of_le (by decide),
      Buf.load_store_of_le (by decide), Buf.load_store hlen.ge]
    decide
  · simp only [new, Sworker.allocatePkt]
    rw [netField_load (by decide), Buf.load_store_of_le (by decide), Buf.load_store hlen'.ge,
      List.take_of_length_le hlen'.le, netBytes, List.reverse_reverse,
      leNat_leBytes_of_lt w.psize.toNat_lt]

/-- The number of the next packet is all that the loop writes into the header. -/
theorem headed_step (ht : machine.Takes tr) (h : Headed tr.src.worker) :
    Headed tr.dst.worker := by
  have hsize : tr.dst.worker.psize = tr.src.worker.psize := (settings_step ht).psize
  by_cases hi : tr.input = .send true
  · obtain ⟨s, i, seq, -, -, hphdr⟩ := sent_step ht hi
    have hlen : (netBytes 4 (seq + 1).toNat).length = 4 := by simp [netBytes]
    obtain ⟨hsig, hpkt⟩ := h
    rw [netField_load (by decide)] at hsig hpkt
    constructor
    · rw [hphdr, netField_load (by decide), Buf.load_store_of_le (by decide), hsig]
    · rw [hphdr, netField_load (by decide), Buf.load_store_of_ge (by omega), hpkt, hsize]
  · obtain ⟨-, hphdr⟩ := silent_step ht hi
    obtain ⟨hsig, hpkt⟩ := h
    exact ⟨hphdr ▸ hsig, by rw [hphdr, hsize, hpkt]⟩

/-- What the receiver reads of a datagram is in its first bytes. -/
theorem pktsizeOf_load (hm : hdrsz ≤ m) (hsig : netField (b.load 0 hdrsz) 0 4 = ttestPktSig) :
    pktsizeOf (b.load 0 m) = some (UInt16.ofNat (netField (b.load 0 hdrsz) 8 2)) := by
  have htake : (b.load 0 m).take hdrsz = b.load 0 hdrsz := by
    have hpart : ((b.load 0 m).drop 0).take hdrsz = b.load (0 + 0) hdrsz :=
      Buf.take_drop_load (by omega)
    simpa using hpart
  rw [pktsizeOf, htake]
  exact if_pos ⟨Buf.length_load, hsig⟩

/-- A packet is taken by the receiver for one of the size the sender counts. -/
theorem pktsizeOf_out (ht : machine.Takes tr) (h : Headed tr.src.worker)
    (hsize : hdrsz ≤ tr.src.worker.psize.toNat) (hd : d ∈ tr.out) :
    pktsizeOf d = some tr.src.worker.psize := by
  by_cases hi : tr.input = .send true
  · obtain ⟨s, i, seq, -, hout, -⟩ := sent_step ht hi
    obtain rfl := List.mem_singleton.mp (hout ▸ hd)
    rw [pktsizeOf_load hsize h.sig, h.pktsize, UInt16.ofNat_toNat]
  · obtain ⟨hout, -⟩ := silent_step ht hi
    exact absurd (hout ▸ hd) List.not_mem_nil

theorem headed_run (hr : machine.Run (new t w mem) trs th) : Headed th.worker :=
  hr.invariant (I := fun th => Headed th.worker) (C := fun _ => True) (fun _ _ => trivial)
    (headed_new t w mem) fun _ ht _ => headed_step ht

end Thread

/-- The sending threads by the addresses of their sockets, the datagrams on their way with the
addresses they come from, and the receiver. -/
structure Testbed where
  snd : RconnTuple → Option Thread
  wire : List (RconnTuple × List UInt8)
  rcv : Trcv

/-- A thread takes a step; a datagram comes from elsewhere; one is lost, copied, or handed to a
worker of the receiver, which may also go on with a new record. -/
inductive Turn
  | client (a : RconnTuple) (i : Thread.Input)
  | stray (a : RconnTuple) (d : List UInt8)
  | lose (k : ℕ)
  | copy (k : ℕ)
  | arrive (w : UInt16) (k : ℕ)
  | register (w : UInt16)
  | link (w : UInt16)
  deriving DecidableEq

namespace Testbed

def new (start : RconnTuple → Option Thread) : Testbed :=
  { snd := start, wire := [], rcv := .new }

def serve (nCpus : UInt16) (s : Testbed) (act : UInt16 × Ract) : Option (Traced Empty Testbed) :=
  (Trcv.step nCpus s.rcv act).map fun r => pure { s with rcv := r.val }

def step (nCpus : UInt16) (s : Testbed) : Turn → Option (Traced Empty Testbed)
  | .client a i =>
    match s.snd a with
    | none => none
    | some th => (th.step i).map fun r =>
      pure
        { s with
          snd := Function.update s.snd a (some r.val)
          wire := s.wire ++ r.log.map (Prod.mk a) }
  | .stray a d =>
    match s.snd a with
    | none => some (pure { s with wire := s.wire ++ [(a, d)] })
    | some _ => none
  | .lose k => (s.wire[k]?).map fun _ => pure { s with wire := s.wire.eraseIdx k }
  | .copy k => (s.wire[k]?).map fun x => pure { s with wire := s.wire ++ [x] }
  | .arrive w k =>
    match s.wire[k]? with
    | none => none
    | some x => serve nCpus { s with wire := s.wire.eraseIdx k } (w, .recv x.1 x.2)
  | .register w => serve nCpus s (w, .register)
  | .link w => serve nCpus s (w, .link)

def machine (nCpus : UInt16) : Machine Testbed Turn Empty := ⟨step nCpus⟩

abbrev Act := Transition Testbed Turn Empty

variable {s s' : Testbed} {a src : RconnTuple} {th th₀ : Thread} {nCpus : UInt16} {tr : Act}
  {trs : List Act} {start : RconnTuple → Option Thread} {psize : UInt16} {k : ℕ}
  {x : RconnTuple × List UInt8}

/-- A step with its guard and its outcome. -/
inductive Move (nCpus : UInt16) : Testbed → Turn → Testbed → Prop
  | client (s : Testbed) (a : RconnTuple) (i : Thread.Input) (th : Thread)
      (r : Traced (List UInt8) Thread) (hth : s.snd a = some th) (hr : th.step i = some r) :
      Move nCpus s (.client a i)
        { s with
          snd := Function.update s.snd a (some r.val)
          wire := s.wire ++ r.log.map (Prod.mk a) }
  | stray (s : Testbed) (a : RconnTuple) (d : List UInt8) (ha : s.snd a = none) :
      Move nCpus s (.stray a d) { s with wire := s.wire ++ [(a, d)] }
  | lose (s : Testbed) (k : ℕ) (x : RconnTuple × List UInt8) (hk : s.wire[k]? = some x) :
      Move nCpus s (.lose k) { s with wire := s.wire.eraseIdx k }
  | copy (s : Testbed) (k : ℕ) (x : RconnTuple × List UInt8) (hk : s.wire[k]? = some x) :
      Move nCpus s (.copy k) { s with wire := s.wire ++ [x] }
  | arrive (s : Testbed) (w : UInt16) (k : ℕ) (x : RconnTuple × List UInt8) (rcv : Trcv)
      (hk : s.wire[k]? = some x)
      (hr : (Trcv.machine nCpus).Takes ⟨s.rcv, (w, .recv x.1 x.2), [], rcv⟩) :
      Move nCpus s (.arrive w k) { s with wire := s.wire.eraseIdx k, rcv := rcv }
  | register (s : Testbed) (w : UInt16) (rcv : Trcv)
      (hr : (Trcv.machine nCpus).Takes ⟨s.rcv, (w, .register), [], rcv⟩) :
      Move nCpus s (.register w) { s with rcv := rcv }
  | link (s : Testbed) (w : UInt16) (rcv : Trcv)
      (hr : (Trcv.machine nCpus).Takes ⟨s.rcv, (w, .link), [], rcv⟩) :
      Move nCpus s (.link w) { s with rcv := rcv }

theorem serve_eq_some {act : UInt16 × Ract} {r : Traced Empty Testbed}
    (h : serve nCpus s act = some r) :
    ∃ rcv, (Trcv.machine nCpus).Takes ⟨s.rcv, act, [], rcv⟩ ∧ r.val = { s with rcv := rcv } := by
  obtain ⟨⟨rcv, log⟩, hr, rfl⟩ := Option.map_eq_some_iff.mp h
  have hlog : log = [] := List.eq_nil_iff_forall_not_mem.mpr fun e => e.elim
  exact ⟨rcv, hlog ▸ hr, rfl⟩

theorem takes_move (h : (machine nCpus).Takes tr) : Move nCpus tr.src tr.input tr.dst := by
  obtain ⟨s, input, out, dst⟩ := tr
  simp only [Machine.Takes, machine, step] at h
  cases input with
  | client a i =>
    dsimp only at h
    split at h
    · cases h
    · rename_i th hth
      obtain ⟨r, hr, he⟩ := Option.map_eq_some_iff.mp h
      obtain ⟨rfl, -⟩ := Traced.mk.inj he
      exact .client _ _ _ th r hth hr
  | stray a d =>
    dsimp only at h
    split at h
    · rename_i ha
      obtain ⟨rfl, -⟩ := Traced.mk.inj (Option.some.inj h)
      exact .stray _ _ _ ha
    · cases h
  | lose k =>
    obtain ⟨x, hk, he⟩ := Option.map_eq_some_iff.mp h
    obtain ⟨rfl, -⟩ := Traced.mk.inj he
    exact .lose _ _ x hk
  | copy k =>
    obtain ⟨x, hk, he⟩ := Option.map_eq_some_iff.mp h
    obtain ⟨rfl, -⟩ := Traced.mk.inj he
    exact .copy _ _ x hk
  | arrive w k =>
    dsimp only at h
    split at h
    · cases h
    · rename_i x hk
      obtain ⟨rcv, hr, hdst⟩ := serve_eq_some h
      obtain rfl : dst = _ := hdst
      exact .arrive _ _ _ x rcv hk hr
  | register w =>
    obtain ⟨rcv, hr, hdst⟩ := serve_eq_some h
    obtain rfl : dst = _ := hdst
    exact .register _ _ rcv hr
  | link w =>
    obtain ⟨rcv, hr, hdst⟩ := serve_eq_some h
    obtain rfl : dst = _ := hdst
    exact .link _ _ rcv hr

/-- The step of the thread at `a` in a step of the whole. -/
def ofThread (a : RconnTuple) (tr : Act) : Option Thread.Act :=
  match tr.input with
  | .client b i =>
    if b = a then (tr.src.snd a).bind fun th => (th.step i).map fun r => ⟨th, i, r.log, r.val⟩
    else none
  | _ => none

/-- The step of the receiver in a step of the whole. -/
def ofRcv (tr : Act) : Option Trcv.Act :=
  match tr.input with
  | .arrive w k => (tr.src.wire[k]?).map fun x => ⟨tr.src.rcv, (w, .recv x.1 x.2), [], tr.dst.rcv⟩
  | .register w => some ⟨tr.src.rcv, (w, .register), [], tr.dst.rcv⟩
  | .link w => some ⟨tr.src.rcv, (w, .link), [], tr.dst.rcv⟩
  | _ => none

/-- The datagrams of `a` that are on their way. -/
def onWire (s : Testbed) (a : RconnTuple) : ℕ := s.wire.countP fun x => x.1 = a

def isOf (a : RconnTuple) (k : ℕ) (s : Testbed) : Bool := (s.wire[k]?).any fun x => x.1 = a

def loses (a : RconnTuple) (tr : Act) : Bool :=
  match tr.input with
  | .lose k => tr.src.isOf a k
  | _ => false

def copies (a : RconnTuple) (tr : Act) : Bool :=
  match tr.input with
  | .copy k => tr.src.isOf a k
  | _ => false

def lost (a : RconnTuple) (trs : List Act) : ℕ := trs.countP (loses a)

def copied (a : RconnTuple) (trs : List Act) : ℕ := trs.countP (copies a)

/-- The packets that the thread at `a` has sent. -/
def sent (a : RconnTuple) (trs : List Act) : List (List UInt8) :=
  Thread.packets (trs.filterMap (ofThread a))

/-- The sizes of the valid datagrams of `a` that the receiver's workers have taken. -/
def taken (a : RconnTuple) (trs : List Act) : List UInt16 := Trcv.taken a (trs.filterMap ofRcv)

theorem snd_step (ht : (machine nCpus).Takes tr) (h : (tr.src.snd a).isSome) :
    (tr.dst.snd a).isSome := by
  have hm := takes_move ht
  obtain ⟨s, input, out, dst⟩ := tr
  dsimp only at hm h ⊢
  cases hm with
  | client b i th r hth hr =>
    by_cases hb : a = b
    · simp [hb]
    · simpa [Function.update_of_ne hb] using h
  | _ => exact h

theorem thread_run (hr : (machine nCpus).Run s trs s') (ha : s.snd a = some th₀) :
    ∃ th, s'.snd a = some th ∧ Thread.machine.Run th₀ (trs.filterMap (ofThread a)) th := by
  have hsome : (s'.snd a).isSome := hr.invariant (I := fun s => (s.snd a).isSome)
    (C := fun _ => True) (fun _ _ => trivial) (by rw [ha]; rfl) fun _ ht _ => snd_step ht
  obtain ⟨th, hth⟩ := Option.isSome_iff_exists.mp hsome
  suffices hproj : Thread.machine.Run ((s.snd a).getD th₀) (trs.filterMap (ofThread a))
      ((s'.snd a).getD th₀) by
    rw [ha, hth] at hproj
    exact ⟨th, hth, hproj⟩
  refine hr.project (f := fun s => (s.snd a).getD th₀) (g := ofThread a) ?_ ?_
  · intro tr tr' ht hof
    have hm := takes_move ht
    obtain ⟨s, input, out, dst⟩ := tr
    dsimp only at hm
    cases hm with
    | client b i th r hsrc hstep =>
      simp only [ofThread] at hof
      split_ifs at hof with hb
      subst hb
      simp only [hsrc, Option.bind_some, hstep] at hof
      obtain rfl := Option.some.inj hof
      refine ⟨hstep, ?_, ?_⟩
      · simp [hsrc]
      · simp
    | _ => cases hof
  · intro tr ht hof
    have hm := takes_move ht
    obtain ⟨s, input, out, dst⟩ := tr
    dsimp only at hm
    cases hm with
    | client b i th r hsrc hstep =>
      by_cases hb : b = a
      · subst hb
        simp [ofThread, hsrc, hstep] at hof
      · have hne : a ≠ b := Ne.symm hb
        simp [Function.update_of_ne hne]
    | _ => rfl

theorem rcv_run (hr : (machine nCpus).Run s trs s') :
    (Trcv.machine nCpus).Run s.rcv (trs.filterMap ofRcv) s'.rcv := by
  refine hr.project (f := Testbed.rcv) (g := ofRcv) ?_ ?_
  · intro tr tr' ht hof
    have hm := takes_move ht
    obtain ⟨s, input, out, dst⟩ := tr
    dsimp only at hm
    cases hm with
    | arrive w k x rcv hk hr =>
      simp only [ofRcv, hk, Option.map_some] at hof
      obtain rfl := Option.some.inj hof
      exact ⟨hr, rfl, rfl⟩
    | register w rcv hr =>
      obtain rfl := Option.some.inj hof
      exact ⟨hr, rfl, rfl⟩
    | link w rcv hr =>
      obtain rfl := Option.some.inj hof
      exact ⟨hr, rfl, rfl⟩
    | _ => cases hof
  · intro tr ht hof
    have hm := takes_move ht
    obtain ⟨s, input, out, dst⟩ := tr
    dsimp only at hm
    cases hm with
    | arrive w k x rcv hk hr => simp [ofRcv, hk] at hof
    | register w rcv hr => cases hof
    | link w rcv hr => cases hof
    | _ => rfl

theorem onWire_eraseIdx (hk : s.wire[k]? = some x) :
    (s.wire.eraseIdx k).countP (fun y => y.1 = a) + (if x.1 = a then 1 else 0) = s.onWire a := by
  obtain ⟨hlt, hx⟩ := List.getElem?_eq_some_iff.mp hk
  have hperm := (List.getElem_cons_eraseIdx_perm hlt).countP_eq fun y => decide (y.1 = a)
  rw [hx, List.countP_cons] at hperm
  simpa [onWire] using hperm

theorem onWire_append (b : RconnTuple) (ds : List (List UInt8)) :
    (s.wire ++ ds.map (Prod.mk b)).countP (fun y => y.1 = a) =
      s.onWire a + if b = a then ds.length else 0 := by
  rw [List.countP_append, List.countP_map, onWire]
  by_cases hb : b = a
  · simp [hb, Function.comp_def]
  · simp [hb, Function.comp_def]

theorem isOf_of_getElem? (hk : s.wire[k]? = some x) : s.isOf a k = decide (x.1 = a) := by
  rw [isOf, hk]
  rfl

theorem lost_concat : lost a (trs ++ [tr]) = lost a trs + if loses a tr then 1 else 0 := by
  simp [lost, List.countP_append, List.countP_singleton]

theorem copied_concat : copied a (trs ++ [tr]) = copied a trs + if copies a tr then 1 else 0 := by
  simp [copied, List.countP_append, List.countP_singleton]

/-- What a step sends for `a`, and what the receiver takes of it in a step. -/
def sentBy (a : RconnTuple) (tr : Act) : List (List UInt8) :=
  ((ofThread a tr).map Transition.out).getD []

def takenBy (a : RconnTuple) (tr : Act) : List UInt16 :=
  ((ofRcv tr).bind (Trcv.validFrom a)).toList

theorem sent_concat : sent a (trs ++ [tr]) = sent a trs ++ sentBy a tr := by
  rw [sent, sent, sentBy, List.filterMap_append]
  cases h : ofThread a tr <;> simp [h, Thread.packets]

theorem taken_concat : taken a (trs ++ [tr]) = taken a trs ++ takenBy a tr := by
  rw [taken, taken, takenBy, List.filterMap_append]
  cases h : ofRcv tr with
  | none => simp [h]
  | some u => simpa [h] using Trcv.taken_concat

/-- What the thread at `a` has sent, or the network made of it, is taken, on its way or lost. -/
structure Ledger (a : RconnTuple) (psize : UInt16) (trs : List Act) (s : Testbed) : Prop where
  count : (taken a trs).length + s.onWire a + lost a trs = (sent a trs).length + copied a trs
  wire : ∀ x ∈ s.wire, x.1 = a → pktsizeOf x.2 = some psize
  taken : ∀ sz ∈ taken a trs, sz = psize

theorem Ledger.extend (h : Ledger a psize trs tr.src)
    (hcount : (takenBy a tr).length + tr.dst.onWire a + (if loses a tr then 1 else 0) =
      (sentBy a tr).length + (if copies a tr then 1 else 0) + tr.src.onWire a)
    (hwire : ∀ x ∈ tr.dst.wire, x.1 = a → pktsizeOf x.2 = some psize)
    (htaken : ∀ sz ∈ takenBy a tr, sz = psize) : Ledger a psize (trs ++ [tr]) tr.dst := by
  refine ⟨?_, hwire, fun sz hsz => ?_⟩
  · have hbefore := h.count
    rw [sent_concat, taken_concat, lost_concat, copied_concat, List.length_append,
      List.length_append]
    omega
  · rw [taken_concat] at hsz
    exact (List.mem_append.mp hsz).elim (h.taken sz) (htaken sz)

theorem ledger_step (ht : (machine nCpus).Takes tr) (hth : tr.src.snd a = some th)
    (hhead : Thread.Headed th.worker) (hpsize : th.worker.psize = psize)
    (hmin : hdrsz ≤ psize.toNat) (h : Ledger a psize trs tr.src) :
    Ledger a psize (trs ++ [tr]) tr.dst := by
  have hm := takes_move ht
  have hwire := h.wire
  obtain ⟨s, input, out, dst⟩ := tr
  dsimp only at hm hth hwire ⊢
  cases hm with
  | client b i th' r hsrc hstep =>
    have hcount := onWire_append (s := s) (a := a) b r.log
    by_cases hb : b = a
    · subst hb
      obtain rfl : th' = th := Option.some.inj (hsrc.symm.trans hth)
      refine h.extend ?_ (List.forall_mem_append.mpr ⟨hwire, fun x hx _ => ?_⟩)
        (by simp [takenBy, ofRcv])
      · rw [if_pos rfl] at hcount
        simp [takenBy, sentBy, ofRcv, ofThread, loses, copies, onWire, hsrc, hstep, hcount,
          Nat.add_comm]
      · obtain ⟨d, hd, rfl⟩ := List.mem_map.mp hx
        subst hpsize
        have ht : Thread.machine.Takes ⟨th', i, r.log, r.val⟩ := hstep
        exact Thread.pktsizeOf_out ht hhead hmin hd
    · refine h.extend ?_ (List.forall_mem_append.mpr ⟨hwire, fun x hx hxa => ?_⟩)
        (by simp [takenBy, ofRcv])
      · rw [if_neg hb] at hcount
        simp [takenBy, sentBy, ofRcv, ofThread, loses, copies, onWire, hb, hcount]
      · obtain ⟨d, -, rfl⟩ := List.mem_map.mp hx
        exact absurd hxa hb
  | stray b d hb =>
    have hne : b ≠ a := by
      rintro rfl
      simp [hb] at hth
    have hcount := onWire_append (s := s) (a := a) b [d]
    rw [if_neg hne] at hcount
    refine h.extend ?_ (List.forall_mem_append.mpr ⟨hwire, List.forall_mem_singleton.mpr ?_⟩)
      (by simp [takenBy, ofRcv])
    · simpa [takenBy, sentBy, ofRcv, ofThread, loses, copies, onWire] using hcount
    · exact fun hba => absurd hba hne
  | lose k x hk =>
    refine h.extend ?_ (fun y hy => hwire y (List.mem_of_mem_eraseIdx hy))
      (by simp [takenBy, ofRcv])
    have hcount := onWire_eraseIdx (a := a) hk
    have hof := isOf_of_getElem? (a := a) hk
    simpa [takenBy, sentBy, ofRcv, ofThread, loses, copies, hof, onWire] using hcount
  | copy k x hk =>
    obtain ⟨b, d⟩ := x
    refine h.extend ?_ (List.forall_mem_append.mpr ⟨hwire, List.forall_mem_singleton.mpr ?_⟩)
      (by simp [takenBy, ofRcv])
    · have hof := isOf_of_getElem? (a := a) hk
      simp [takenBy, sentBy, ofRcv, ofThread, loses, copies, hof, onWire, Nat.add_comm]
    · exact hwire (b, d) (List.mem_of_getElem? hk)
  | arrive w k x rcv hk hr =>
    have hmem : x ∈ s.wire := List.mem_of_getElem? hk
    have hcount := onWire_eraseIdx (a := a) hk
    by_cases hx : x.1 = a
    · have hsz := hwire x hmem hx
      refine h.extend ?_ (fun y hy => hwire y (List.mem_of_mem_eraseIdx hy))
        (by simp [takenBy, ofRcv, hk, Trcv.validFrom, hx, hsz])
      rw [if_pos hx] at hcount
      simpa [takenBy, sentBy, ofRcv, ofThread, loses, copies, hk, Trcv.validFrom, hx, hsz,
        onWire, Nat.add_comm] using hcount
    · refine h.extend ?_ (fun y hy => hwire y (List.mem_of_mem_eraseIdx hy))
        (by simp [takenBy, ofRcv, hk, Trcv.validFrom, hx])
      rw [if_neg hx] at hcount
      simpa [takenBy, sentBy, ofRcv, ofThread, loses, copies, hk, Trcv.validFrom, hx, onWire]
        using hcount
  | register w rcv hr =>
    refine h.extend ?_ hwire (by simp [takenBy, ofRcv, Trcv.validFrom])
    simp [takenBy, sentBy, ofRcv, ofThread, loses, copies, onWire, Trcv.validFrom]
  | link w rcv hr =>
    refine h.extend ?_ hwire (by simp [takenBy, ofRcv, Trcv.validFrom])
    simp [takenBy, sentBy, ofRcv, ofThread, loses, copies, onWire, Trcv.validFrom]

theorem ledger_run (hr : (machine nCpus).Run (new start) trs s)
    (ha : start a = some th₀) (h₀ : th₀.Started) : Ledger a th₀.worker.psize trs s := by
  obtain ⟨t, w, mem, rfl, -, hmin⟩ := h₀.worker
  refine hr.along (I := Ledger a w.psize) (C := fun _ _ => True) (fun _ _ _ _ => trivial)
    ⟨rfl, by simp [new], by simp [taken, Trcv.taken]⟩ fun pre tr hpre ht _ h => ?_
  obtain ⟨th, hth, hrun⟩ := thread_run hpre ha
  exact ledger_step ht hth (Thread.headed_run hrun) (Thread.settings_run hrun).psize hmin h

theorem total_replicate (k : ℕ) (psize : UInt16) : Trcv.total (List.replicate k psize) =
    ⟨UInt64.ofNat k, UInt64.ofNat (k * psize.toNat)⟩ := by
  simp [Trcv.total]

/-- What has been sent from `a` and is not counted: on its way, lost, or in a record that its
worker has not linked yet. -/
def outstanding (nCpus : UInt16) (a : RconnTuple) (trs : List Act) (s : Testbed) : ℕ :=
  (s.rcv.waiting nCpus a).card + s.onWire a + lost a trs

theorem received_run (hr : (machine nCpus).Run (new start) trs s)
    (ha : start a = some th₀) (h₀ : th₀.Started) :
    ∃ k, s.rcv.received a = Trcv.total (List.replicate k th₀.worker.psize) ∧
      k + outstanding nCpus a trs s = (sent a trs).length + copied a trs := by
  have hledger := ledger_run hr ha h₀
  obtain ⟨xs, hxs, hall⟩ := Trcv.accounted_run (rcv_run hr) a
  have hsame : xs = List.replicate xs.length th₀.worker.psize := by
    refine List.eq_replicate_iff.mpr ⟨rfl, fun sz hsz => hledger.taken sz ?_⟩
    have hmem : sz ∈ (xs : Multiset UInt16) + s.rcv.waiting nCpus a :=
      Multiset.mem_add.mpr (.inl hsz)
    rw [hall] at hmem
    exact Multiset.mem_coe.mp hmem
  have hcard := congrArg Multiset.card hall
  rw [Multiset.card_add, Multiset.coe_card, Multiset.coe_card] at hcard
  have hcount := hledger.count
  refine ⟨xs.length, hsame ▸ hxs, ?_⟩
  rw [taken] at hcount
  rw [outstanding]
  omega

/-- Between bursts the counters of a thread are those of the packets it has sent. -/
theorem stats_run (hr : (machine nCpus).Run (new start) trs s)
    (ha : start a = some th₀) (h₀ : th₀.Started) (hth : s.snd a = some th)
    (hstage : ∀ b i seq, th.stage ≠ .sending b i seq) :
    th.worker.stats.npkts = UInt64.ofNat (sent a trs).length ∧
      ((∀ pre tr post, trs.filterMap (ofThread a) = pre ++ tr :: post → ∀ e ∈ Thread.ends tr,
          th₀.worker.psize.toNat * (Thread.record pre).outcomes.count true < 2 ^ 32) →
        th.worker.stats.nbytes = UInt64.ofNat ((sent a trs).length * th₀.worker.psize.toNat)) := by
  obtain ⟨th', hth', hrun⟩ := thread_run hr ha
  obtain rfl : th = th' := Option.some.inj (hth.symm.trans hth')
  obtain ⟨t, w, mem, rfl, hstats, hmin⟩ := h₀.worker
  have hsent : (sent a trs).length = Thread.done (trs.filterMap (ofThread a)) th := by
    rw [Thread.done_of_ne hstage, sent, (Thread.stamped_run hrun hstats hmin).length_packets]
  constructor
  · rw [hsent, ← UInt64.toNat_inj, UInt64.toNat_ofNat', (Thread.counted_run hrun hstats).npkts]
  · intro hsmall
    rw [hsent, ← UInt64.toNat_inj, UInt64.toNat_ofNat', Nat.mul_comm]
    exact Thread.nbytes_run hrun hstats hsmall

/-- The records of a source count every packet of its thread that is not outstanding, and once
unless it was copied, with the size that the thread counts. -/
theorem accounted (hr : (machine nCpus).Run (new start) trs s)
    (ha : start a = some th₀) (h₀ : th₀.Started) :
    ∃ k, s.rcv.received a = ⟨UInt64.ofNat k, UInt64.ofNat (k * th₀.worker.psize.toNat)⟩ ∧
      k + outstanding nCpus a trs s = (sent a trs).length + copied a trs := by
  obtain ⟨k, hk, hcount⟩ := received_run hr ha h₀
  exact ⟨k, hk.trans (total_replicate k _), hcount⟩

/-- Two threads, and a third address with none. -/
def twoThreads (a : RconnTuple) : Option Thread :=
  if a = ⟨7, 5⟩ ∨ a = ⟨7, 6⟩ then some (Thread.slowThread fun _ => 0) else none

/-- Both send a packet. The first is copied; one copy is in a record that is not linked yet, the
other is lost. -/
def mixedTraffic : List Turn :=
  [.client ⟨7, 5⟩ (.burst 0), .client ⟨7, 6⟩ (.burst 3), .client ⟨7, 5⟩ (.send true),
    .client ⟨7, 6⟩ (.send true), .stray ⟨9, 9⟩ [1], .copy 0, .arrive 0 1, .arrive 1 0, .register 0,
    .link 0, .lose 1, .client ⟨7, 5⟩ (.clock 20), .arrive 0 0]

theorem mixedTraffic_accepted : ((machine 2).exec (new twoThreads) mixedTraffic).isSome := by
  decide +kernel

theorem started_slowThread (mem : Buf) : (Thread.slowThread mem).Started :=
  .mk (Option.some_get slowRate_accepted).symm (Option.some_get Thread.slowParam_started).symm
    Thread.mem_slowClient mem

theorem twoThreads_at : twoThreads ⟨7, 5⟩ = some (Thread.slowThread fun _ => 0) := rfl

theorem accounted_mixedTraffic :
    ∃ trs s, (machine 2).exec (new twoThreads) mixedTraffic = some (trs, s) ∧
      ∃ k, s.rcv.received ⟨7, 5⟩ = ⟨UInt64.ofNat k, UInt64.ofNat (k * 1472)⟩ ∧
        k + outstanding 2 ⟨7, 5⟩ trs s = (sent ⟨7, 5⟩ trs).length + copied ⟨7, 5⟩ trs := by
  have hrun := Machine.exec_get_run mixedTraffic_accepted
  have hstarted := started_slowThread fun _ => 0
  have hcount := accounted hrun twoThreads_at hstarted
  exact ⟨_, _, Machine.exec_get mixedTraffic_accepted, hcount⟩

/-- Between its bursts the counters of a thread and those of its source differ by what is
outstanding and what was copied. Those of the bytes do where no burst was of 2 ^ 32 bytes. -/
theorem counters_agree (hr : (machine nCpus).Run (new start) trs s)
    (ha : start a = some th₀) (h₀ : th₀.Started) (hth : s.snd a = some th)
    (hstage : ∀ b i seq, th.stage ≠ .sending b i seq) :
    (s.rcv.received a).npkts + UInt64.ofNat (outstanding nCpus a trs s) =
        th.worker.stats.npkts + UInt64.ofNat (copied a trs) ∧
      ((∀ pre tr post, trs.filterMap (ofThread a) = pre ++ tr :: post → ∀ e ∈ Thread.ends tr,
          th₀.worker.psize.toNat * (Thread.record pre).outcomes.count true < 2 ^ 32) →
        (s.rcv.received a).nbytes +
            UInt64.ofNat (outstanding nCpus a trs s * th₀.worker.psize.toNat) =
          th.worker.stats.nbytes + UInt64.ofNat (copied a trs * th₀.worker.psize.toNat)) := by
  obtain ⟨k, hreceived, hcount⟩ := received_run hr ha h₀
  obtain ⟨hnpkts, hnbytes⟩ := stats_run hr ha h₀ hth hstage
  rw [hreceived, total_replicate]
  constructor
  · rw [hnpkts, ← UInt64.ofNat_add, ← UInt64.ofNat_add, hcount]
  · intro hsmall
    rw [hnbytes hsmall, ← UInt64.ofNat_add, ← UInt64.ofNat_add, ← Nat.add_mul, ← Nat.add_mul,
      hcount]

theorem counters_agree_mixedTraffic :
    ∃ trs s th, (machine 2).exec (new twoThreads) mixedTraffic = some (trs, s) ∧
      s.snd ⟨7, 5⟩ = some th ∧
      (s.rcv.received ⟨7, 5⟩).npkts + UInt64.ofNat (outstanding 2 ⟨7, 5⟩ trs s) =
        th.worker.stats.npkts + UInt64.ofNat (copied ⟨7, 5⟩ trs) := by
  have hstage : ((Option.get _ mixedTraffic_accepted).2.snd ⟨7, 5⟩).map Thread.stage =
      some (.waiting 111000) := by
    decide +kernel
  obtain ⟨th, hth, hwaiting⟩ := Option.map_eq_some_iff.mp hstage
  have hrun := Machine.exec_get_run mixedTraffic_accepted
  have hstarted := started_slowThread fun _ => 0
  have hagree := counters_agree hrun twoThreads_at hstarted hth fun b i seq => by simp [hwaiting]
  exact ⟨_, _, th, Machine.exec_get mixedTraffic_accepted, hth, hagree.1⟩

end Testbed

end TcpEyenet.Ttest
