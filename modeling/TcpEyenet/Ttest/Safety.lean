import TcpEyenet.Ttest.Schedule

/-! What the checks of the command line give to the arithmetic behind them. -/
namespace TcpEyenet.Ttest

variable {p : ProgParam} {t : Tsnd} {w : Sworker} {mem : Buf} {intv : UInt32}
  {prog : List Char} {argv : List (List Char)}

/-- 100 kbps are 8 packets of 1472 bytes a second. -/
theorem perSec_ge (h : p.Valid) : 8 ≤ perSec p := by
  obtain ⟨hsize, hmax⟩ := h.pktsize
  obtain ⟨hrate, -⟩ := h.rateKbps
  rw [perSec, Nat.le_div_iff_mul_le (by omega)]
  omega

theorem startClient_of_plan {ibg npkts : UInt64}
    (h : calcPktsRate p.rateKbps.toUInt64 p.pktsize.toUInt64 = some (ibg, npkts)) :
    ∃ t, startClient p = some t ∧ t.ibg = ibg ∧ t.npktsBurst = npkts := by
  simp only [startClient, h]
  exact ⟨_, rfl, rfl, rfl⟩

/-- The plan of valid parameters: at least a packet, in an interval of at most 125 ms. -/
theorem startClient_plan (h : p.Valid) :
    ∃ t, startClient p = some t ∧ (0 < t.ibg.toNat ∧ t.ibg.toNat ≤ 125) ∧
      1 ≤ t.npktsBurst.toNat := by
  obtain ⟨ibg, npkts, hcalc, hibg, hnpkts⟩ := calcPktsRate_eq h
  obtain ⟨t, hstart, rfl, rfl⟩ := startClient_of_plan hcalc
  have hge := perSec_ge h
  refine ⟨t, hstart, ?_, ?_⟩
  · rw [hibg]
    split_ifs with hslow
    · exact ⟨Nat.div_pos (by omega) (by omega), Nat.div_le_div_left hge (by decide)⟩
    · decide
  · rw [hnpkts]
    split_ifs
    · exact le_rfl
    · omega

namespace Thread

variable {th th₀ : Thread} {tr : Act} {trs : List Act}

theorem ibg_new (hibg : t.ibg.toNat ≤ 125) (w : Sworker) (mem : Buf) :
    (new t w mem).worker.ibg.toNat = t.ibg.toNat * 1000 := by
  refine mul_toNat (a := t.ibg) (b := 1000) ?_
  change t.ibg.toNat * 1000 < 2 ^ 64
  omega

/-- The division by the interval is the only one. -/
theorem not_crashed_run (hr : machine.Run th₀ trs th) (hibg : 0 < th₀.worker.ibg.toNat)
    (hstage : th₀.stage ≠ .crashed) : th.stage ≠ .crashed := by
  refine hr.along (I := fun _ th => th.stage ≠ .crashed) (C := fun _ _ => True)
    (fun _ _ _ _ => trivial) hstage ?_
  rintro pre tr hpre ht - -
  rw [← (settings_run hpre).ibg] at hibg
  have hm := takes_move ht
  obtain ⟨src, input, out, dst⟩ := tr
  cases hm with
  | close w s i seq t hi th hclose =>
    rcases close_cases w hibg s t seq with heq | heq
    · obtain rfl := hclose.symm.trans heq
      simp
    · obtain rfl := hclose.symm.trans heq
      simp
  | look w till n =>
    simp only [look]
    split_ifs <;> simp
  | spin w till n =>
    simp only
    split_ifs <;> simp
  | _ => simp

/-- The wait of a thread ends an interval after the last burst began. -/
def Awaits (trs : List Act) (th : Thread) : Prop :=
  match th.stage with
  | .sending s _ _ => s.toNat ≤ now trs
  | .waiting till => till.toNat ≤ now trs + th.worker.ibg.toNat
  | .sleeping usec => usec.toNat ≤ th.worker.ibg.toNat
  | _ => True

theorem awaits_step (hG : 0 < tr.src.worker.ibg.toNat) (ht : machine.Takes tr)
    (htime : ∀ t ∈ tr.input.time, now trs + asked tr.src.stage ≤ t.toNat) (hfit : Fits tr)
    (h : Awaits trs tr.src) : Awaits (trs ++ [tr]) tr.dst := by
  have hm := takes_move ht
  obtain ⟨src, input, out, dst⟩ := tr
  cases hm with
  | burst w s =>
    simp only [Awaits, now_concat]
    exact le_rfl
  | stop w => trivial
  | sent w s i seq hi =>
    simp only [Awaits, now_concat]
    exact h
  | failed w s i seq hi =>
    simp only [Awaits, now_concat]
    exact h
  | close w s i seq t hi th hclose =>
    rcases close_cases w hG s t seq with heq | heq
    · obtain rfl := hclose.symm.trans heq
      trivial
    · obtain rfl := hclose.symm.trans heq
      have hst : s.toNat ≤ t.toNat := le_trans h (htime t rfl)
      simp only [Awaits, now_concat, add_toNat (hfit (s, seq, t) rfl).2]
      exact Nat.add_le_add_right hst _
  | look w till n =>
    have hn : now trs ≤ n.toNat := htime n rfl
    have htill : till.toNat ≤ now trs + w.ibg.toNat := h
    simp only [look]
    split_ifs with hlt hspin
    · trivial
    · obtain ⟨-, hsub⟩ := sub_toNat hlt
      simp only [Awaits, hsub]
      omega
    · trivial
  | spin w till n =>
    split_ifs <;> trivial
  | wake w usec t => trivial

/-- `usleep` is given no more than an interval. -/
theorem usec_le (hr : machine.Run th₀ trs th) (htop : th₀.stage = .top)
    (hG : 0 < th₀.worker.ibg.toNat) (htime : Timely trs) (hfit : ∀ tr ∈ trs, Fits tr)
    {usec : UInt64} (hstage : th.stage = .sleeping usec) :
    usec.toNat ≤ th₀.worker.ibg.toNat := by
  have hawaits : Awaits trs th := by
    refine timely_run hr htime hfit (by rw [Awaits, htop]; trivial) ?_
    intro pre tr ht hsame hnow hfits h
    rw [← hsame.ibg] at hG
    exact awaits_step hG ht hnow hfits h
  rw [Awaits, hstage] at hawaits
  rwa [(settings_run hr).ibg] at hawaits

end Thread

/-- The waits of an accepted command line are ones that `usleep` takes. -/
theorem usec_accepted (h : (parseArgs prog argv).val = some p) (ht : startClient p = some t)
    {trs : List Thread.Act} {th : Thread}
    (hr : Thread.machine.Run (Thread.new t w mem) trs th) (htime : Thread.Timely trs)
    (hfit : ∀ tr ∈ trs, Thread.Fits tr) {usec : UInt64} (hstage : th.stage = .sleeping usec) :
    usec.toNat < 1000000 := by
  obtain ⟨t', ht', ⟨hpos, hle⟩, -⟩ := startClient_plan (parseArgs_valid h)
  obtain rfl := Option.some.inj (ht.symm.trans ht')
  have hibg := Thread.ibg_new hle w mem
  have hbound := Thread.usec_le hr rfl (by omega) htime hfit hstage
  omega

theorem Tsnd.printAllConnStats_isSome {deltaRep : Bool} (h : 1 ≤ (t.intv deltaRep).toNat) :
    (t.printAllConnStats deltaRep).isSome := by
  obtain ⟨log, rate, hprint⟩ := t.printAllConnStats_eq h
  rw [hprint]
  rfl

theorem ConnStats.printAllConnStats_isSome (h : 1 ≤ intv.toNat) (nConns : UInt64)
    (conns : List ConnStats) : (printAllConnStats nConns conns intv).isSome := by
  obtain ⟨log, hlog⟩ := printEach_eq h (conns.map fun c => (c.cid, c.stats - c.statsPrev)) 0
  rw [printAllConnStats, hlog, Option.bind_eq_bind, Option.bind_some, kbps_of_ne_zero h]
  rfl

/-- The parameters of an accepted command line are in their ranges, and no division by 0 comes
of them: in the plan, in any run of a thread, or in a report. -/
theorem accepted_safe (h : (parseArgs prog argv).val = some p) :
    p.Valid ∧ (calcPktsRate p.rateKbps.toUInt64 p.pktsize.toUInt64).isSome ∧
      ∃ t, startClient p = some t ∧
        (∀ w mem trs th, Thread.machine.Run (Thread.new t w mem) trs th → th.stage ≠ .crashed) ∧
        (∀ ws deltaRep, ({ t with workers := ws }.printAllConnStats deltaRep).isSome) ∧
        ∀ nConns conns,
          (ConnStats.printAllConnStats nConns conns p.reportingInterval).isSome := by
  have hvalid := parseArgs_valid h
  obtain ⟨ibg, npkts, hcalc, -⟩ := calcPktsRate_eq hvalid
  obtain ⟨t, hstart, ⟨hpos, hle⟩, -⟩ := startClient_plan hvalid
  refine ⟨hvalid, by rw [hcalc]; rfl, t, hstart, ?_, ?_, ?_⟩
  · intro w mem trs th hr
    refine Thread.not_crashed_run hr ?_ (by simp [Thread.new])
    rw [Thread.ibg_new hle]
    omega
  · intro ws deltaRep
    exact Tsnd.printAllConnStats_isSome (t.intv_pos hvalid hstart deltaRep)
  · exact ConnStats.printAllConnStats_isSome hvalid.reportingInterval

/-- `-c 1.1.1.1 -x`: the usage is printed, and the call returns 0. -/
def unknownLast : List (List Char) :=
  [['-', 'c', '1', '.', '1', '.', '1', '.', '1'], ['-', 'x']]

theorem unknownLast_accepted : (parseArgs ['t'] unknownLast).val.isSome := by decide +kernel

theorem accepted_safe_unknownLast :
    ∃ p, (parseArgs ['t'] unknownLast).val = some p ∧ p.Valid :=
  ⟨_, (Option.some_get unknownLast_accepted).symm,
    (accepted_safe (Option.some_get unknownLast_accepted).symm).1⟩

end TcpEyenet.Ttest
