import TcpEyenet.Lib.Bytes
import TcpEyenet.Ttest.Args
import TcpEyenet.Ttest.Stats

/-! The client of ttest: the plan of its bursts, its workers and its reports. -/
namespace TcpEyenet.Ttest

/-- A division of the machine, which fails on a divisor of 0. -/
def divide (a b : UInt64) : Option UInt64 := if b = 0 then none else some (a / b)

/-- The interval in milliseconds and the packets to send in it. -/
def calcPktsRate (rateKbps psize : UInt64) : Option (UInt64 × UInt64) := do
  let npSec ← divide (rateKbps * 1000) (psize * 8)
  let npIbg ← divide (npSec * 50) 1000
  if npIbg = 0 then
    let ibg ← divide 1000 npSec
    pure (ibg, 1)
  else pure (50, npIbg)

/-- `sworker_t`; `phdr` is what the pointer of that name points to. -/
structure Sworker where
  psize : UInt16
  id : UInt16
  seq : UInt32
  ibg : UInt64
  npktsBurst : UInt64
  qouta : UInt64
  phdr : Buf
  stats : Counters
  statsPrev : Counters

structure Tsnd where
  nCpus : UInt8
  remoteip : UInt32
  remoteport : UInt16
  ibg : UInt64
  npktsBurst : UInt64
  workers : List Sworker
  reportingInterval : UInt32
  duration : UInt32

/-- A worker of `start_client`, before its thread starts. -/
def Sworker.new (psize : UInt16) (id : UInt16) : Sworker :=
  { psize := psize
    id := id
    seq := 0
    ibg := 0
    npktsBurst := 0
    qouta := 0
    phdr := fun _ => 0
    stats := 0
    statsPrev := 0 }

/-- `start_client` up to the start of its threads. -/
def startClient (p : ProgParam) : Option Tsnd := do
  let plan ← calcPktsRate p.rateKbps.toUInt64 p.pktsize.toUInt64
  pure
    { nCpus := p.nCpus.toUInt8
      remoteip := p.ip
      remoteport := p.port
      ibg := plan.1
      npktsBurst := plan.2
      workers := (List.range p.nCpus.toNat).map fun i =>
        Sworker.new p.pktsize.toUInt16 (UInt16.ofNat i)
      reportingInterval := p.reportingInterval
      duration := p.duration }

/-- What the reports print: a line of dashes, a line for each connection and the sum. -/
inductive Printed
  | rule
  | conn (id : UInt64) (c : Counters) (kbps : UInt64)
  | sum (c : Counters) (kbps : UInt64)
  deriving DecidableEq

def kbps (c : Counters) (intv : UInt32) : Option UInt64 :=
  divide (c.nbytes * 8) (intv.toUInt64 * 1000)

/-- The loop of both reports over the counters to be printed, which it adds up. -/
def printEach (intv : UInt32) :
    List (UInt64 × Counters) → Counters → Option (Traced Printed Counters)
  | [], sum => some (pure sum)
  | (id, c) :: cs, sum => do
    let rate ← kbps c intv
    let r ← printEach intv cs (sum + c)
    pure ⟨r.val, .conn id c rate :: r.log⟩

namespace Sworker

def shown (deltaRep : Bool) (w : Sworker) : UInt64 × Counters :=
  (w.id.toUInt64, if deltaRep then w.stats - w.statsPrev else w.stats)

def advance (w : Sworker) : Sworker := { w with statsPrev := w.stats }

end Sworker

/-- The seconds that a report is about: an interval, or the whole run. -/
def Tsnd.intv (t : Tsnd) (deltaRep : Bool) : UInt32 :=
  if deltaRep then t.reportingInterval else t.duration

/-- `print_all_conn_stats` of the client, while no worker counts. -/
def Tsnd.printAllConnStats (t : Tsnd) (deltaRep : Bool) : Option (Traced Printed Tsnd) := do
  let n := t.nCpus.toNat
  let r ← printEach (t.intv deltaRep) ((t.workers.take n).map (Sworker.shown deltaRep)) 0
  let rate ← kbps r.val (t.intv deltaRep)
  pure
    ⟨{ t with workers := (t.workers.take n).map Sworker.advance ++ t.workers.drop n },
      (if deltaRep then [] else [.rule]) ++ r.log ++ [.sum r.val rate]⟩

/-- What a report reads and writes of an `rconn_t`. -/
structure ConnStats where
  cid : UInt64
  stats : Counters
  statsPrev : Counters

/-- `print_all_conn_stats` of the server, which is silent about the sum of no connections. -/
def ConnStats.printAllConnStats (nConns : UInt64) (conns : List ConnStats) (intv : UInt32) :
    Option (Traced Printed (List ConnStats)) := do
  let r ← printEach intv (conns.map fun c => (c.cid, c.stats - c.statsPrev)) 0
  let rate ← kbps r.val intv
  pure
    ⟨conns.map fun c => { c with statsPrev := c.stats },
      r.log ++ if nConns = 0 then [] else [.sum r.val rate, .rule]⟩

variable {p : ProgParam} {intv : UInt32} {c : Counters} {cs : List (UInt64 × Counters)}
  {sum : Counters} {t : Tsnd} {ws : List Sworker} {deltaRep : Bool} {a b : UInt64}

theorem divide_of_ne_zero (h : b.toNat ≠ 0) : divide a b = some (a / b) :=
  if_neg fun hb : b = 0 => h (by rw [hb]; rfl)

theorem mul_toNat (h : a.toNat * b.toNat < 2 ^ 64) : (a * b).toNat = a.toNat * b.toNat := by
  rw [UInt64.toNat_mul, Nat.mod_eq_of_lt h]

/-- The whole packets that go into a second at the target rate. -/
def perSec (p : ProgParam) : ℕ := p.rateKbps.toNat * 1000 / (p.pktsize.toNat * 8)

/-- The plan sends what the target allows in an interval, to the packet. -/
def MeetsRate (p : ProgParam) : Prop :=
  ∃ ibg npkts, calcPktsRate p.rateKbps.toUInt64 p.pktsize.toUInt64 = some (ibg, npkts) ∧
    0 < ibg.toNat ∧ 1 ≤ npkts.toNat ∧
    npkts.toNat * p.pktsize.toNat * 8 ≤ p.rateKbps.toNat * ibg.toNat ∧
    p.rateKbps.toNat * ibg.toNat < (npkts.toNat + 1) * p.pktsize.toNat * 8

theorem perSec_pos (h : p.Valid) : 0 < perSec p := by
  obtain ⟨hsize, hmax⟩ := h.pktsize
  obtain ⟨hrate, -⟩ := h.rateKbps
  exact Nat.div_pos (by omega) (by omega)

/-- The plan in whole numbers: one packet at a time where less than 20 go into a second. -/
theorem calcPktsRate_eq (h : p.Valid) :
    ∃ ibg npkts, calcPktsRate p.rateKbps.toUInt64 p.pktsize.toUInt64 = some (ibg, npkts) ∧
      ibg.toNat = (if perSec p < 20 then 1000 / perSec p else 50) ∧
      npkts.toNat = if perSec p < 20 then 1 else perSec p * 50 / 1000 := by
  obtain ⟨hsize, hmax⟩ := h.pktsize
  obtain ⟨hrate, htop⟩ := h.rateKbps
  have hpos := perSec_pos h
  have hbits : (p.pktsize.toUInt64 * 8).toNat = p.pktsize.toNat * 8 :=
    mul_toNat (by simp; omega)
  have hkilo : (p.rateKbps.toUInt64 * 1000).toNat = p.rateKbps.toNat * 1000 :=
    mul_toNat (by simp; omega)
  obtain ⟨npSec, hnpSec⟩ : ∃ x, x = p.rateKbps.toUInt64 * 1000 / (p.pktsize.toUInt64 * 8) :=
    ⟨_, rfl⟩
  have hsec : npSec.toNat = perSec p := by rw [hnpSec, UInt64.toNat_div, hbits, hkilo, perSec]
  have hmost : perSec p ≤ 1000000 * 1000 :=
    (Nat.div_le_self ..).trans (Nat.mul_le_mul_right 1000 htop)
  have hfifty : (npSec * 50).toNat = perSec p * 50 := by
    rw [← hsec]
    exact mul_toNat (by simp; omega)
  have hibg : (npSec * 50 / 1000).toNat = perSec p * 50 / 1000 := by
    rw [UInt64.toNat_div, hfifty]
    rfl
  have hnone : npSec * 50 / 1000 = 0 ↔ perSec p < 20 := by
    rw [← UInt64.toNat_inj, hibg]
    simp
    omega
  have hcalc : calcPktsRate p.rateKbps.toUInt64 p.pktsize.toUInt64 =
      if npSec * 50 / 1000 = 0 then some (1000 / npSec, 1) else some (50, npSec * 50 / 1000) := by
    rw [calcPktsRate, divide_of_ne_zero (by omega), Option.bind_eq_bind, Option.bind_some, ← hnpSec,
      divide_of_ne_zero (by decide), Option.bind_some, divide_of_ne_zero (by omega)]
    rfl
  rw [hcalc]
  by_cases hslow : perSec p < 20
  · refine ⟨1000 / npSec, 1, if_pos (hnone.mpr hslow), ?_, by rw [if_pos hslow]; rfl⟩
    rw [if_pos hslow, UInt64.toNat_div, hsec]
    rfl
  · refine ⟨50, npSec * 50 / 1000, if_neg fun h0 => hslow (hnone.mp h0), ?_, ?_⟩
    · rw [if_neg hslow]
      rfl
    · rw [if_neg hslow, hibg]

/-- The plan of bursts is within a packet of the target. -/
theorem fast_meets (h : p.Valid) {n : ℕ} (hn : n = perSec p * 50 / 1000) :
    n * p.pktsize.toNat * 8 ≤ p.rateKbps.toNat * 50 ∧
      p.rateKbps.toNat * 50 < (n + 1) * p.pktsize.toNat * 8 := by
  have hbits : 0 < p.pktsize.toNat * 8 := by
    have := h.pktsize.1
    omega
  have hlow : perSec p * (p.pktsize.toNat * 8) ≤ p.rateKbps.toNat * 1000 := Nat.div_mul_le_self ..
  have hhigh : p.rateKbps.toNat * 1000 < (perSec p + 1) * (p.pktsize.toNat * 8) :=
    Nat.lt_mul_of_div_lt (Nat.lt_succ_self _) hbits
  have hpart : 20 * n ≤ perSec p ∧ perSec p + 1 ≤ 20 * (n + 1) := by omega
  have hfew := Nat.mul_le_mul_right (p.pktsize.toNat * 8) hpart.1
  have hmany := Nat.mul_le_mul_right (p.pktsize.toNat * 8) hpart.2
  constructor
  · linarith
  · linarith

/-- One packet in an interval is less than the target by less than a packet, and not more than
the target just where the interval, cut to whole milliseconds, is still long enough. -/
theorem slow_meets (h : p.Valid) (hslow : perSec p < 20) :
    (1 * p.pktsize.toNat * 8 ≤ p.rateKbps.toNat * (1000 / perSec p) ↔
      perSec p * (p.pktsize.toNat * 8 ⌈/⌉ p.rateKbps.toNat) ≤ 1000) ∧
    p.rateKbps.toNat * (1000 / perSec p) < (1 + 1) * p.pktsize.toNat * 8 := by
  have hpos := perSec_pos h
  have hbits : 0 < p.pktsize.toNat * 8 := by
    have := h.pktsize.1
    omega
  have hrate : 0 < p.rateKbps.toNat := by
    have := h.rateKbps.1
    omega
  constructor
  · rw [one_mul, ← ceilDiv_le_iff_le_mul hrate, Nat.le_div_iff_mul_le hpos, mul_comm]
  · have hhigh : p.rateKbps.toNat * 1000 < (perSec p + 1) * (p.pktsize.toNat * 8) :=
      Nat.lt_mul_of_div_lt (Nat.lt_succ_self _) hbits
    have htwo : (perSec p + 1) * (p.pktsize.toNat * 8) ≤ 2 * perSec p * (p.pktsize.toNat * 8) :=
      Nat.mul_le_mul_right _ (by omega)
    have hcut : 1000 / perSec p * perSec p ≤ 1000 := Nat.div_mul_le_self ..
    have hsent := Nat.mul_le_mul_left p.rateKbps.toNat hcut
    refine Nat.lt_of_mul_lt_mul_right (a := perSec p) ?_
    linarith

/-- The plan meets the rate except where a packet at a time is sent, and the time of a packet,
rounded up to whole milliseconds, does not go into a second as often as the packet. -/
theorem meets_rate_iff (h : p.Valid) :
    MeetsRate p ↔
      (perSec p < 20 → perSec p * (p.pktsize.toNat * 8 ⌈/⌉ p.rateKbps.toNat) ≤ 1000) := by
  obtain ⟨ibg, npkts, hcalc, hibg, hnpkts⟩ := calcPktsRate_eq h
  have hpos := perSec_pos h
  have hiff : MeetsRate p ↔ 0 < ibg.toNat ∧ 1 ≤ npkts.toNat ∧
      npkts.toNat * p.pktsize.toNat * 8 ≤ p.rateKbps.toNat * ibg.toNat ∧
      p.rateKbps.toNat * ibg.toNat < (npkts.toNat + 1) * p.pktsize.toNat * 8 := by
    constructor
    · rintro ⟨i, n, hc, hrest⟩
      obtain ⟨rfl, rfl⟩ := Prod.mk.inj (Option.some.inj (hcalc.symm.trans hc))
      exact hrest
    · exact fun hrest => ⟨ibg, npkts, hcalc, hrest⟩
  rw [hiff, hibg, hnpkts]
  by_cases hslow : perSec p < 20
  · obtain ⟨hlow, hhigh⟩ := slow_meets h hslow
    have hlong : 0 < 1000 / perSec p := Nat.div_pos (by omega) hpos
    rw [if_pos hslow, if_pos hslow, hlow]
    exact ⟨fun hmeets _ => hmeets.2.2.1, fun hfits => ⟨hlong, le_rfl, hfits hslow, hhigh⟩⟩
  · have hfast := fast_meets h rfl
    rw [if_neg hslow, if_neg hslow]
    exact iff_of_true ⟨by decide, by omega, hfast⟩ fun hs => absurd hs hslow

/-- `-c 1.1.1.1 -b 106K`: packets of 11776 bits, one in 111 ms. -/
def slowRate : List (List Char) :=
  [['-', 'c', '1', '.', '1', '.', '1', '.', '1'], ['-', 'b', '1', '0', '6', 'K']]

theorem slowRate_accepted : (parseArgs ['t'] slowRate).val.isSome := by decide +kernel

/-- 11776 bits in 111 ms are 106.09 kbps. -/
theorem plan_exceeds :
    ∃ p, (parseArgs ['t'] slowRate).val = some p ∧ p.rateKbps = 106 ∧ p.pktsize = 1472 ∧
      calcPktsRate p.rateKbps.toUInt64 p.pktsize.toUInt64 = some (111, 1) ∧ ¬ MeetsRate p := by
  have hplan : (Option.get _ slowRate_accepted).rateKbps = 106 ∧
      (Option.get _ slowRate_accepted).pktsize = 1472 ∧
      calcPktsRate (106 : UInt32).toUInt64 (1472 : UInt32).toUInt64 = some (111, 1) := by
    decide +kernel
  obtain ⟨hrate, hsize, hcalc⟩ := hplan
  refine ⟨_, (Option.some_get slowRate_accepted).symm, hrate, hsize, ?_, ?_⟩
  · rw [hrate, hsize, hcalc]
  · rintro ⟨ibg, npkts, hc, -, -, hlow, -⟩
    rw [hrate, hsize, hcalc] at hc
    obtain ⟨rfl, rfl⟩ := Prod.mk.inj (Option.some.inj hc)
    rw [hrate, hsize] at hlow
    exact absurd hlow (by decide)

/-- At 118 kbps ten packets go into a second, one every 100 ms. -/
theorem meets_rate_iff_slow :
    perSec { ProgParam.new with rateKbps := 118 } = 10 ∧
      MeetsRate { ProgParam.new with rateKbps := 118 } :=
  ⟨by decide, (meets_rate_iff (by constructor <;> decide)).mpr fun _ => by decide +kernel⟩

theorem kbps_of_ne_zero (h : 1 ≤ intv.toNat) (c : Counters) :
    kbps c intv = some (c.nbytes * 8 / (intv.toUInt64 * 1000)) := by
  have hlt := intv.toNat_lt
  have hms : (intv.toUInt64 * 1000).toNat = intv.toNat * 1000 := mul_toNat (by simp; omega)
  exact divide_of_ne_zero (by omega)

/-- The loop of a report adds up what it prints. -/
theorem printEach_eq (h : 1 ≤ intv.toNat) (cs : List (UInt64 × Counters)) (sum : Counters) :
    ∃ log, printEach intv cs sum = some ⟨sum + (cs.map Prod.snd).sum, log⟩ := by
  induction cs generalizing sum with
  | nil =>
    refine ⟨[], ?_⟩
    rw [List.map_nil, List.sum_nil, add_zero]
    rfl
  | cons idc cs ih =>
    obtain ⟨id, c⟩ := idc
    obtain ⟨log, hlog⟩ := ih (sum + c)
    refine ⟨.conn id c (c.nbytes * 8 / (intv.toUInt64 * 1000)) :: log, ?_⟩
    simp only [printEach, kbps_of_ne_zero h, hlog, Option.bind_eq_bind, Option.bind_some,
      List.map_cons, List.sum_cons, add_assoc]
    rfl

/-- What a report of the client prints at its end, and what it leaves. -/
theorem Tsnd.printAllConnStats_eq (h : 1 ≤ (t.intv deltaRep).toNat) :
    ∃ log rate, t.printAllConnStats deltaRep =
      some
        ⟨{ t with
            workers := (t.workers.take t.nCpus.toNat).map Sworker.advance ++
              t.workers.drop t.nCpus.toNat },
          log ++ [.sum ((t.workers.take t.nCpus.toNat).map fun w => (w.shown deltaRep).2).sum
            rate]⟩ := by
  obtain ⟨log, hlog⟩ :=
    printEach_eq h ((t.workers.take t.nCpus.toNat).map (Sworker.shown deltaRep)) 0
  refine ⟨(if deltaRep then [] else [.rule]) ++ log, ?_⟩
  simp only [Tsnd.printAllConnStats, hlog, kbps_of_ne_zero h, Option.bind_eq_bind,
    Option.bind_some, zero_add, List.map_map]
  exact ⟨_, rfl⟩

theorem map_advance (ws : List Sworker) :
    ws = ws.map Sworker.advance ↔ ∀ w ∈ ws, w.statsPrev = w.stats := by
  have hone : ∀ w : Sworker, id w = w.advance ↔ w.statsPrev = w.stats := by
    intro w
    cases w
    simp [Sworker.advance, eq_comm]
  have hid := List.map_inj_left (l := ws) (f := id) (g := Sworker.advance)
  rw [List.map_id] at hid
  simp only [hid, hone]

/-- A report sums up all workers, and advances `stats_prev` of every one. -/
def Tsnd.CoversAll (t : Tsnd) (deltaRep : Bool) : Prop :=
  ∃ r, t.printAllConnStats deltaRep = some r ∧
    (∃ rate, r.log.getLast? =
      some (.sum (t.workers.map fun w => (w.shown deltaRep).2).sum rate)) ∧
    r.val.workers = t.workers.map Sworker.advance

/-- What a report leaves out has nothing to report. -/
theorem Tsnd.coversAll_iff (h : 1 ≤ (t.intv deltaRep).toNat) :
    t.CoversAll deltaRep ↔
      ((t.workers.drop t.nCpus.toNat).map fun w => (w.shown deltaRep).2).sum = 0 ∧
        ∀ w ∈ t.workers.drop t.nCpus.toNat, w.statsPrev = w.stats := by
  obtain ⟨log, rate, hprint⟩ := t.printAllConnStats_eq h
  have hsplit := List.take_append_drop t.nCpus.toNat t.workers
  have hsum : (t.workers.map fun w => (w.shown deltaRep).2).sum =
      ((t.workers.take t.nCpus.toNat).map fun w => (w.shown deltaRep).2).sum +
        ((t.workers.drop t.nCpus.toNat).map fun w => (w.shown deltaRep).2).sum := by
    rw [← List.sum_append, ← List.map_append, hsplit]
  have hkept : (t.workers.take t.nCpus.toNat).map Sworker.advance ++ t.workers.drop t.nCpus.toNat =
      t.workers.map Sworker.advance ↔
        ∀ w ∈ t.workers.drop t.nCpus.toNat, w.statsPrev = w.stats := by
    conv_lhs => rhs; rw [← hsplit, List.map_append]
    rw [List.append_cancel_left_eq, map_advance]
  constructor
  · rintro ⟨r, hr, ⟨rate', hlast⟩, hworkers⟩
    obtain rfl := Option.some.inj (hprint.symm.trans hr)
    rw [List.getLast?_concat] at hlast
    have htotal := (Printed.sum.inj (Option.some.inj hlast)).1
    rw [hsum] at htotal
    exact ⟨add_eq_left.mp htotal.symm, hkept.mp hworkers⟩
  · rintro ⟨hzero, hprev⟩
    refine ⟨_, hprint, ⟨rate, ?_⟩, hkept.mpr hprev⟩
    rw [List.getLast?_concat, hsum, hzero, add_zero]

theorem startClient_eq (h : startClient p = some t) :
    t.nCpus = p.nCpus.toUInt8 ∧ t.workers.length = p.nCpus.toNat ∧
      ∀ deltaRep, t.intv deltaRep = if deltaRep then p.reportingInterval else p.duration := by
  obtain ⟨plan, -, hstart⟩ := Option.bind_eq_some_iff.mp h
  obtain rfl := Option.some.inj hstart
  exact ⟨rfl, by simp, fun deltaRep => rfl⟩

theorem mem_startClient (h : startClient p = some t) {w : Sworker} :
    w ∈ t.workers ↔ ∃ i < p.nCpus.toNat, Sworker.new p.pktsize.toUInt16 (UInt16.ofNat i) = w := by
  obtain ⟨plan, -, hstart⟩ := Option.bind_eq_some_iff.mp h
  obtain rfl := Option.some.inj hstart
  simp only [List.mem_map, List.mem_range]

theorem Tsnd.intv_pos (h : p.Valid) (ht : startClient p = some t) (deltaRep : Bool) :
    1 ≤ (t.intv deltaRep).toNat := by
  rw [(startClient_eq ht).2.2]
  split_ifs
  · exact h.reportingInterval
  · exact h.duration

/-- The client's reports cover all its workers up to 255 of them, and beyond that where the
workers from number P mod 256 on have nothing to report. -/
theorem covers_all_iff (h : p.Valid) (ht : startClient p = some t)
    (hlen : ws.length = p.nCpus.toNat) :
    { t with workers := ws }.CoversAll deltaRep ↔
      p.nCpus.toNat < 256 ∨
        ((ws.drop (p.nCpus.toNat % 256)).map fun w => (w.shown deltaRep).2).sum = 0 ∧
          ∀ w ∈ ws.drop (p.nCpus.toNat % 256), w.statsPrev = w.stats := by
  have hintv : 1 ≤ (({ t with workers := ws } : Tsnd).intv deltaRep).toNat :=
    t.intv_pos h ht deltaRep
  rw [Tsnd.coversAll_iff hintv]
  have hcpus : t.nCpus.toNat = p.nCpus.toNat % 256 := by
    rw [(startClient_eq ht).1, UInt32.toNat_toUInt8]
  simp only [hcpus]
  refine ⟨Or.inr, ?_⟩
  rintro (hfew | hidle)
  · have hnone : ws.drop (p.nCpus.toNat % 256) = [] :=
      List.drop_eq_nil_of_le (by omega)
    simp [hnone]
  · exact hidle

/-- `-c 1.1.1.1 -P 257`. -/
def manyConns : List (List Char) :=
  [['-', 'c', '1', '.', '1', '.', '1', '.', '1'], ['-', 'P', '2', '5', '7']]

theorem manyConns_accepted : (parseArgs ['t'] manyConns).val.isSome := by decide +kernel

def manyParam : ProgParam := (parseArgs ['t'] manyConns).val.get manyConns_accepted

theorem manyParam_started : (startClient manyParam).isSome := by decide +kernel

def manyClient : Tsnd := (startClient manyParam).get manyParam_started

/-- Each worker has sent a packet. -/
def sentOne (t : Tsnd) : List Sworker := t.workers.map fun w => { w with stats := ⟨1, 1472⟩ }

/-- The sum of 257 workers is that of one. -/
theorem sum_misses :
    (parseArgs ['t'] manyConns).val = some manyParam ∧ startClient manyParam = some manyClient ∧
      (sentOne manyClient).length = manyParam.nCpus.toNat ∧
      ¬ { manyClient with workers := sentOne manyClient }.CoversAll false := by
  have hparsed : (parseArgs ['t'] manyConns).val = some manyParam := (Option.some_get _).symm
  have hstarted : startClient manyParam = some manyClient := (Option.some_get _).symm
  refine ⟨hparsed, hstarted, ?_, ?_⟩
  · rw [sentOne, List.length_map, (startClient_eq hstarted).2.1]
  · intro hcovers
    have hvalid := parseArgs_valid hparsed
    have hintv :
        1 ≤ (({ manyClient with workers := sentOne manyClient } : Tsnd).intv false).toNat :=
      Tsnd.intv_pos hvalid hstarted false
    have hprev := ((Tsnd.coversAll_iff hintv).mp hcovers).2
    have hleft : ((sentOne manyClient).drop manyClient.nCpus.toNat).any
        fun w => w.statsPrev ≠ w.stats := by
      decide +kernel
    obtain ⟨w, hw, hne⟩ := List.any_eq_true.mp hleft
    exact of_decide_eq_true hne (hprev w hw)

theorem covers_all_iff_manyConns :
    { manyClient with workers := sentOne manyClient }.CoversAll true ↔
      manyParam.nCpus.toNat < 256 ∨
        (((sentOne manyClient).drop (manyParam.nCpus.toNat % 256)).map
            fun w => (w.shown true).2).sum = 0 ∧
          ∀ w ∈ (sentOne manyClient).drop (manyParam.nCpus.toNat % 256), w.statsPrev = w.stats :=
  covers_all_iff (parseArgs_valid (Option.some_get manyConns_accepted).symm)
    (Option.some_get manyParam_started).symm (by decide +kernel)

end TcpEyenet.Ttest
