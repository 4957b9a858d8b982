import TcpEyenet.Lib.Bucket
import TcpEyenet.Ttest.Worker

/-! The bursts of a sending thread against the rate of its plan. -/
namespace TcpEyenet.Ttest.Thread

open Round

variable {th th₀ : Thread} {w : Sworker} {tr : Act} {trs pre post : List Act} {B G : UInt64}

def Input.time : Input → Option UInt64
  | .burst t => some t
  | .clock t => some t
  | .wake t => some t
  | _ => none

/-- The last instant of a run. -/
def now (trs : List Act) : ℕ :=
  ((trs.filterMap fun tr => tr.input.time).getLast?.map UInt64.toNat).getD 0

/-- What a thread has asked `usleep` for. -/
def asked : Stage → ℕ
  | .sleeping usec => usec.toNat
  | _ => 0

/-- The clock does not go back, and a `usleep` does not return early. -/
def Timely (trs : List Act) : Prop :=
  ∀ pre tr post, trs = pre ++ tr :: post →
    ∀ t ∈ tr.input.time, now pre + asked tr.src.stage ≤ t.toNat

/-- The two results at the end of a burst that could take more than 64 bits. -/
def Fits (tr : Act) : Prop :=
  ∀ e ∈ ends tr, tr.src.worker.npktsBurst.toNat * (e.2.2.toNat - e.1.toNat) < 2 ^ 64 ∧
    e.1.toNat + tr.src.worker.ibg.toNat < 2 ^ 64

/-- The start and the quota of every burst. -/
def bursts (trs : List Act) : List (UInt64 × UInt64) :=
  trs.filterMap fun tr =>
    match tr.input with
    | .burst s => some (s, tr.src.worker.qouta)
    | _ => none

/-- The time in which the plan, `B` packets in an interval `G`, sends a quota. -/
def span (B G qouta : UInt64) : ℚ := qouta.toNat * G.toNat / B.toNat

/-- A burst as a round of spending: it costs the time that its packets take by the plan. -/
def toRound (B G : UInt64) (b : UInt64 × UInt64) : Round ℚ :=
  { clock := b.1.toNat
    spent := span B G b.2
    price := 0 }

def rounds (B G : UInt64) (trs : List Act) : List (Round ℚ) :=
  ((bursts trs).map (toRound B G)).reverse

/-- The instants up to which the packets sent since any burst are paid for: those of the next
burst are before it begins. -/
def Paid (B G : UInt64) (trs : List Act) (th : Thread) : Prop :=
  match th.stage with
  | .top => Covered 0 (now trs - span B G th.worker.qouta) (rounds B G trs)
  | .sending s _ _ => Covered 0 (s.toNat : ℚ) (rounds B G trs) ∧ s.toNat ≤ now trs
  | .waiting till => Covered 0 (till.toNat - span B G th.worker.qouta) (rounds B G trs)
  | .spinning till => Covered 0 (till.toNat - span B G th.worker.qouta) (rounds B G trs)
  | .sleeping usec => Covered 0 (now trs + usec.toNat - span B G th.worker.qouta) (rounds B G trs)
  | _ => True

theorem now_concat : now (trs ++ [tr]) = (tr.input.time.map UInt64.toNat).getD (now trs) := by
  cases htime : tr.input.time with
  | none => simp [now, htime]
  | some t => simp [now, htime]

theorem rounds_concat : rounds B G (trs ++ [tr]) =
    match tr.input with
    | .burst s => toRound B G (s, tr.src.worker.qouta) :: rounds B G trs
    | _ => rounds B G trs := by
  cases hi : tr.input <;> simp [rounds, bursts, hi]

theorem span_planned (hB : 0 < B.toNat) : span B G B = G.toNat := by
  have hne : (B.toNat : ℚ) ≠ 0 := by exact_mod_cast hB.ne'
  rw [span]
  field_simp

/-- A burst that takes longer than an interval is followed by one that its time pays for. -/
theorem span_late (hB : 0 < B.toNat) {s t : UInt64} (hst : s.toNat ≤ t.toNat)
    (hfit : B.toNat * (t.toNat - s.toNat) < 2 ^ 64) :
    (s.toNat : ℚ) ≤ t.toNat - span B G (B * (t - s) / G) := by
  have hpos : (0 : ℚ) < B.toNat := by exact_mod_cast hB
  have hdelta : (t - s).toNat = t.toNat - s.toNat :=
    UInt64.toNat_sub_of_le _ _ (UInt64.le_iff_toNat_le.mpr hst)
  have hquota : (B * (t - s) / G).toNat = B.toNat * (t.toNat - s.toNat) / G.toNat := by
    rw [UInt64.toNat_div, mul_toNat (by rw [hdelta]; exact hfit), hdelta]
  have hcut : (B * (t - s) / G).toNat * G.toNat ≤ B.toNat * (t.toNat - s.toNat) := by
    rw [hquota]
    exact Nat.div_mul_le_self ..
  have hspan : span B G (B * (t - s) / G) ≤ (t.toNat : ℚ) - s.toNat := by
    rw [span, div_le_iff₀ hpos, ← Nat.cast_sub hst, mul_comm _ (B.toNat : ℚ)]
    exact_mod_cast hcut
  linarith

/-- What follows the loop over a burst, if neither result overflows. -/
theorem close_cases (w : Sworker) (hG : 0 < w.ibg.toNat) (s t : UInt64) (seq : UInt32) :
    (close w s seq t = ⟨{ tally w seq with qouta := w.npktsBurst * (t - s) / w.ibg }, .top⟩) ∨
      close w s seq t = ⟨{ tally w seq with qouta := w.npktsBurst }, .waiting (s + w.ibg)⟩ := by
  have hdiv : divide ((tally w seq).npktsBurst * (t - s)) (tally w seq).ibg =
      some (w.npktsBurst * (t - s) / w.ibg) := divide_of_ne_zero hG.ne'
  simp only [close, hdiv]
  split_ifs
  · exact .inl rfl
  · exact .inr rfl

theorem add_toNat {s ibg : UInt64} (h : s.toNat + ibg.toNat < 2 ^ 64) :
    (s + ibg).toNat = s.toNat + ibg.toNat := by
  rw [UInt64.toNat_add, Nat.mod_eq_of_lt h]

theorem sub_toNat {till n : UInt64} (h : n < till) :
    n.toNat ≤ till.toNat ∧ (till - n).toNat = till.toNat - n.toNat :=
  ⟨(UInt64.lt_iff_toNat_lt.mp h).le, UInt64.toNat_sub_of_le _ _ (UInt64.le_of_lt h)⟩

section Stages

variable {w : Sworker} {s t till n : UInt64} {seq : UInt32}

/-- After a burst its time pays for the next one, or the rest of the interval does. -/
theorem paid_close (hB : 0 < w.npktsBurst.toNat) (hG : 0 < w.ibg.toNat) (hst : s.toNat ≤ t.toNat)
    (hlate : w.npktsBurst.toNat * (t.toNat - s.toNat) < 2 ^ 64)
    (htill : s.toNat + w.ibg.toNat < 2 ^ 64) (hnow : now trs = t.toNat)
    (hcov : Covered 0 (s.toNat : ℚ) (rounds w.npktsBurst w.ibg trs)) :
    Paid w.npktsBurst w.ibg trs (close w s seq t) := by
  rcases close_cases w hG s t seq with heq | heq
  · rw [heq]
    simp only [Paid, hnow]
    exact hcov.mono (span_late hB hst hlate)
  · rw [heq]
    simp only [Paid, span_planned hB, add_toNat htill]
    exact hcov.mono (by push_cast; linarith)

/-- Where a wait is over, or its rest is slept, the packets are paid for. -/
theorem paid_look (hnow : now trs = n.toNat)
    (hcov : Covered 0 (till.toNat - span B G w.qouta) (rounds B G trs)) :
    Paid B G trs ⟨w, look till n⟩ := by
  simp only [look]
  split_ifs with hlt hspin
  · exact hcov
  · obtain ⟨hle, hsub⟩ := sub_toNat hlt
    simp only [Paid, hnow, hsub, Nat.cast_sub hle]
    exact hcov.mono (by simp)
  · have hle : (till.toNat : ℚ) ≤ n.toNat := by
      exact_mod_cast UInt64.le_iff_toNat_le.mp (UInt64.not_lt.mp hlt)
    simp only [Paid, hnow]
    exact hcov.mono (sub_le_sub_right hle _)

end Stages

/-- One step, of a worker that keeps to its plan. -/
theorem paid_step (hB : 0 < tr.src.worker.npktsBurst.toNat) (hG : 0 < tr.src.worker.ibg.toNat)
    (ht : machine.Takes tr)
    (htime : ∀ t ∈ tr.input.time, now trs + asked tr.src.stage ≤ t.toNat) (hfit : Fits tr)
    (hbucket : TokenBucket 0 (rounds tr.src.worker.npktsBurst tr.src.worker.ibg trs))
    (h : Paid tr.src.worker.npktsBurst tr.src.worker.ibg trs tr.src) :
    TokenBucket 0 (rounds tr.src.worker.npktsBurst tr.src.worker.ibg (trs ++ [tr])) ∧
      Paid tr.src.worker.npktsBurst tr.src.worker.ibg (trs ++ [tr]) tr.dst := by
  have hm := takes_move ht
  obtain ⟨src, input, out, dst⟩ := tr
  rw [rounds_concat]
  cases hm with
  | burst w s =>
    have hle : (now trs : ℚ) ≤ s.toNat := by exact_mod_cast htime s rfl
    have hpaid : Covered 0 ((s.toNat : ℚ) - span w.npktsBurst w.ibg w.qouta)
        (rounds w.npktsBurst w.ibg trs) :=
      Covered.mono h (by linarith)
    refine ⟨TokenBucket.cons hbucket hpaid le_rfl, ?_⟩
    simp only [Paid, rounds_concat, now_concat]
    exact ⟨Covered.close hpaid le_rfl (by simp [toRound]), le_rfl⟩
  | stop w => exact ⟨hbucket, trivial⟩
  | sent w s i seq hi =>
    refine ⟨hbucket, ?_⟩
    simp only [Paid, rounds_concat, now_concat]
    exact h
  | failed w s i seq hi =>
    refine ⟨hbucket, ?_⟩
    simp only [Paid, rounds_concat, now_concat]
    exact h
  | close w s i seq t hi th hclose =>
    obtain ⟨hcov, hnow⟩ := h
    obtain ⟨hlate, htill⟩ := hfit (s, seq, t) rfl
    refine ⟨hbucket, ?_⟩
    rw [← hclose]
    refine paid_close hB hG (hnow.trans (htime t rfl)) hlate htill now_concat ?_
    rw [rounds_concat]
    exact hcov
  | look w till n =>
    refine ⟨hbucket, paid_look now_concat ?_⟩
    rw [rounds_concat]
    exact h
  | spin w till n =>
    refine ⟨hbucket, ?_⟩
    split_ifs with hlt
    · simp only [Paid, rounds_concat]
      exact h
    · have hle : (till.toNat : ℚ) ≤ n.toNat := by
        exact_mod_cast UInt64.le_iff_toNat_le.mp (UInt64.not_lt.mp hlt)
      simp only [Paid, rounds_concat, now_concat]
      exact Covered.mono h (sub_le_sub_right hle _)
  | wake w usec t =>
    refine ⟨hbucket, ?_⟩
    have hle : (now trs : ℚ) + usec.toNat ≤ t.toNat := by exact_mod_cast htime t rfl
    simp only [Paid, rounds_concat, now_concat]
    exact Covered.mono h (sub_le_sub_right hle _)

/-- A fact that the steps of a timely run extend holds of all of it. -/
theorem timely_run {I : List Act → Thread → Prop} (hr : machine.Run th₀ trs th)
    (htime : Timely trs) (hfit : ∀ tr ∈ trs, Fits tr) (h₀ : I [] th₀)
    (hstep : ∀ pre tr, machine.Takes tr → SameSettings th₀.worker tr.src.worker →
      (∀ t ∈ tr.input.time, now pre + asked tr.src.stage ≤ t.toNat) → Fits tr →
      I pre tr.src → I (pre ++ [tr]) tr.dst) : I trs th := by
  refine hr.along
    (C := fun pre tr => (∀ t ∈ tr.input.time, now pre + asked tr.src.stage ≤ t.toNat) ∧ Fits tr)
    (fun pre tr post he => ⟨htime pre tr post he, hfit tr (by simp [he])⟩) h₀ ?_
  rintro pre tr hpre ht ⟨hnow, hfits⟩ h
  exact hstep pre tr ht (settings_run hpre) hnow hfits h

theorem paid_run (hB : 0 < th₀.worker.npktsBurst.toNat) (hG : 0 < th₀.worker.ibg.toNat)
    (htop : th₀.stage = .top) (hr : machine.Run th₀ trs th) (htime : Timely trs)
    (hfit : ∀ tr ∈ trs, Fits tr) :
    TokenBucket 0 (rounds th₀.worker.npktsBurst th₀.worker.ibg trs) := by
  have hall := timely_run
    (I := fun trs th => TokenBucket 0 (rounds th₀.worker.npktsBurst th₀.worker.ibg trs) ∧
      Paid th₀.worker.npktsBurst th₀.worker.ibg trs th)
    hr htime hfit ⟨TokenBucket.nil, by rw [Paid, htop]; exact Covered.nil⟩ ?_
  · exact hall.1
  · rintro pre tr ht hsame hnow hfits ⟨hbucket, hpaid⟩
    rw [← hsame.npktsBurst] at hB hbucket hpaid ⊢
    rw [← hsame.ibg] at hG hbucket hpaid ⊢
    exact paid_step hB hG ht hnow hfits hbucket hpaid

def quotas (bs : List (UInt64 × UInt64)) : ℕ := (bs.map fun b => b.2.toNat).sum

theorem total_toRound (bs : List (UInt64 × UInt64)) :
    total (bs.map (toRound B G)) = quotas bs * G.toNat / B.toNat := by
  induction bs with
  | nil => simp [total, quotas]
  | cons b bs ih =>
    simp only [total, quotas, List.map_cons, List.sum_cons, List.map_map] at ih ⊢
    rw [ih, toRound, span]
    push_cast
    ring

theorem quotas_reverse (bs : List (UInt64 × UInt64)) : quotas bs.reverse = quotas bs := by
  rw [quotas, quotas, List.map_reverse, List.sum_reverse]

/-- Between two bursts no more is sent than the plan allows in the time between their starts. -/
theorem quotas_between (hB : 0 < B.toNat) (hG : 0 < G.toNat)
    (h : TokenBucket 0 (rounds B G trs)) {first b : UInt64 × UInt64}
    {before mid after : List (UInt64 × UInt64)}
    (he : bursts trs = before ++ first :: (mid ++ b :: after)) :
    (quotas (mid ++ [b]) : ℚ) ≤ B.toNat * (b.1.toNat - first.1.toNat) / G.toNat := by
  have hb : (0 : ℚ) < B.toNat := by exact_mod_cast hB
  have hg : (0 : ℚ) < G.toNat := by exact_mod_cast hG
  have hrounds : rounds B G trs = (after.map (toRound B G)).reverse ++ toRound B G b ::
      ((mid.map (toRound B G)).reverse ++ toRound B G first ::
        (before.map (toRound B G)).reverse) := by
    simp [rounds, he]
  have hspent := h _ _ _ _ _ hrounds
  have hmid : toRound B G b :: (mid.map (toRound B G)).reverse =
      (mid ++ [b]).reverse.map (toRound B G) := by
    simp
  rw [hmid, total_toRound, quotas_reverse, zero_mul, add_zero, div_le_iff₀ hb] at hspent
  rw [le_div_iff₀ hg]
  calc (quotas (mid ++ [b]) : ℚ) * G.toNat
      ≤ ((toRound B G b).clock - (toRound B G first).clock) * B.toNat := hspent
    _ = B.toNat * (b.1.toNat - first.1.toNat) := by rw [toRound, toRound, mul_comm]

theorem bursts_concat : bursts (trs ++ [tr]) =
    match tr.input with
    | .burst s => bursts trs ++ [(s, tr.src.worker.qouta)]
    | _ => bursts trs := by
  cases hi : tr.input <;> simp [bursts, hi]

/-- The first burst has the quota that the thread starts with. -/
theorem first_quota (hr : machine.Run th₀ trs th) (htop : th₀.stage = .top) :
    (bursts trs = [] → th.stage = .top ∨ th.stage = .stopped) ∧
    (bursts trs = [] → th.worker.qouta = th₀.worker.qouta) ∧
    ∀ b ∈ (bursts trs).head?, b.2 = th₀.worker.qouta := by
  refine hr.history
    (I := fun trs th => (bursts trs = [] → th.stage = .top ∨ th.stage = .stopped) ∧
      (bursts trs = [] → th.worker.qouta = th₀.worker.qouta) ∧
      ∀ b ∈ (bursts trs).head?, b.2 = th₀.worker.qouta)
    (C := fun _ => True) (fun _ _ => trivial)
    ⟨fun _ => .inl htop, fun _ => rfl, by simp [bursts]⟩ ?_
  rintro trs tr ht - ⟨hstage, hquota, hfirst⟩
  have hm := takes_move ht
  obtain ⟨src, input, out, dst⟩ := tr
  rw [bursts_concat]
  cases hm with
  | burst w s =>
    refine ⟨by simp, by simp, ?_⟩
    intro b hb
    cases hbs : bursts trs with
    | nil =>
      obtain rfl : (s, w.qouta) = b := by simpa [hbs] using hb
      exact hquota hbs
    | cons first rest =>
      rw [hbs] at hfirst hb
      exact hfirst b hb
  | stop w => exact ⟨fun _ => .inr rfl, hquota, hfirst⟩
  | _ =>
    have hlater : bursts trs ≠ [] := fun hnil => absurd (hstage hnil) (by simp)
    exact ⟨fun hnil => absurd hnil hlater, fun hnil => absurd hnil hlater, hfirst⟩

/-- Outside of the loop over a burst no more has been sent than the quotas so far. -/
def Within (trs : List Act) (th : Thread) : Prop :=
  match th.stage with
  | .sending _ _ _ => (record trs).before + th.worker.qouta.toNat ≤ quotas (bursts trs)
  | _ => (record trs).sent ≤ quotas (bursts trs)

theorem within_of_ne (hne : ∀ s i seq, th.stage ≠ .sending s i seq) :
    Within trs th ↔ (record trs).sent ≤ quotas (bursts trs) := by
  unfold Within
  split
  · exact absurd ‹_› (hne _ _ _)
  · rfl

theorem within_run (hr : machine.Run th₀ trs th) (htop : th₀.stage = .top) :
    InBurst trs th ∧ Within trs th := by
  refine hr.history (I := fun trs th => InBurst trs th ∧ Within trs th) (C := fun _ => True)
    (fun _ _ => trivial) ⟨fun s i seq h => by simp [htop] at h, by simp [Within, htop, record,
      Record.sent]⟩ ?_
  rintro trs tr ht - ⟨hin, hwithin⟩
  refine ⟨inBurst_step ht hin, ?_⟩
  have hm := takes_move ht
  obtain ⟨src, input, out, dst⟩ := tr
  cases hm with
  | burst w s =>
    have hsent : (record trs).sent ≤ quotas (bursts trs) := hwithin
    simp only [Within, record_concat, bursts_concat, Record.note, quotas, List.map_append,
      List.sum_append, List.map_singleton, List.sum_singleton]
    exact Nat.add_le_add_right hsent _
  | close w s i seq t hi th hclose =>
    obtain ⟨qouta, stage, heq, hne⟩ := close_eq w s t seq
    obtain rfl := hclose.symm.trans heq
    have hlen : (record trs).outcomes.length = w.qouta.toNat := (hin.length_eq rfl hi).1
    have hle : (record trs).before + w.qouta.toNat ≤ quotas (bursts trs) := hwithin
    have hcount : (record trs).outcomes.count true ≤ (record trs).outcomes.length :=
      List.count_le_length
    rw [within_of_ne hne, record_concat, bursts_concat]
    simp only [Record.note, Record.sent]
    omega
  | look w till n =>
    rw [within_of_ne (look_ne till n), record_concat, bursts_concat]
    exact hwithin
  | spin w till n =>
    rw [within_of_ne (by simp only; split_ifs <;> simp), record_concat, bursts_concat]
    exact hwithin
  | _ =>
    simp only [Within, record_concat, bursts_concat]
    exact hwithin

/-- What the plan allows up to the start of burst `b`, and one burst more. -/
def planned (B G : UInt64) (first b : UInt64 × UInt64) : ℚ :=
  B.toNat + B.toNat * (b.1.toNat - first.1.toNat) / G.toNat

/-- The quotas are within the plan up to the start of any burst. -/
theorem quotas_planned (hB : 0 < th₀.worker.npktsBurst.toNat) (hG : 0 < th₀.worker.ibg.toNat)
    (htop : th₀.stage = .top) (hstart : th₀.worker.qouta = th₀.worker.npktsBurst)
    (hr : machine.Run th₀ trs th) (htime : Timely trs) (hfit : ∀ tr ∈ trs, Fits tr)
    {first b : UInt64 × UInt64} (hfirst : first ∈ (bursts trs).head?)
    {before after : List (UInt64 × UInt64)} (he : bursts trs = before ++ b :: after) :
    (quotas (before ++ [b]) : ℚ) ≤ planned th₀.worker.npktsBurst th₀.worker.ibg first b := by
  have hbucket := paid_run hB hG htop hr htime hfit
  have hquota : first.2 = th₀.worker.npktsBurst := by
    rw [(first_quota hr htop).2.2 first hfirst, hstart]
  rw [planned]
  cases before with
  | nil =>
    obtain rfl : b = first := by simpa [he] using hfirst
    simp [quotas, hquota]
  | cons c mid =>
    obtain rfl : c = first := by simpa [he] using hfirst
    have he' : bursts trs = [] ++ c :: (mid ++ b :: after) := he
    have hbetween := quotas_between hB hG hbucket he'
    have hsum : quotas (c :: mid ++ [b]) =
        th₀.worker.npktsBurst.toNat + quotas (mid ++ [b]) := by
      simp [quotas, hquota]
    rw [hsum]
    push_cast
    linarith

/-- Turns of the loop over a burst. -/
def Sends (more : List Act) : Prop := ∀ tr ∈ more, ∃ ok, tr.input = .send ok

theorem Sends.bursts {more : List Act} (h : Sends more) : bursts (trs ++ more) = bursts trs := by
  have hnone : Thread.bursts more = [] := by
    refine List.filterMap_eq_nil_iff.mpr fun tr htr => ?_
    obtain ⟨ok, hok⟩ := h tr htr
    simp [hok]
  rw [Thread.bursts, List.filterMap_append]
  exact (congrArg (Thread.bursts trs ++ ·) hnone).trans (List.append_nil _)

/-- The plan is kept up to the last burst `b`: by the quotas up to every burst, and by the packets
however the turns of the loop over `b` go on. -/
structure OnSchedule (B G : UInt64) (trs : List Act) (th : Thread) (first b : UInt64 × UInt64) :
    Prop where
  quotas : ∀ before c after, bursts trs = before ++ c :: after →
    (Thread.quotas (before ++ [c]) : ℚ) ≤ planned B G first c
  packets : ∀ more th', machine.Run th more th' → Sends more →
    ((record (trs ++ more)).sent : ℚ) ≤ planned B G first b

/-- A burst that has ended had a quota of less than 2 ^ 32, so that only the one under way can have
a greater one. -/
def Ended (trs : List Act) (th : Thread) : Prop :=
  match th.stage with
  | .sending s _ _ =>
    ∃ before, bursts trs = before ++ [(s, th.worker.qouta)] ∧ ∀ c ∈ before, c.2.toNat < 2 ^ 32
  | _ => ∀ c ∈ bursts trs, c.2.toNat < 2 ^ 32

theorem ended_of_ne (hne : ∀ s i seq, th.stage ≠ .sending s i seq) :
    Ended trs th ↔ ∀ c ∈ bursts trs, c.2.toNat < 2 ^ 32 := by
  unfold Ended
  split
  · exact absurd ‹_› (hne _ _ _)
  · rfl

theorem ended_run (hr : machine.Run th₀ trs th) (htop : th₀.stage = .top) :
    InBurst trs th ∧ Ended trs th := by
  refine hr.history (I := fun trs th => InBurst trs th ∧ Ended trs th) (C := fun _ => True)
    (fun _ _ => trivial)
    ⟨fun s i seq h => by simp [htop] at h, by simp [Ended, htop, bursts]⟩ ?_
  rintro trs tr ht - ⟨hin, hended⟩
  refine ⟨inBurst_step ht hin, ?_⟩
  have hm := takes_move ht
  obtain ⟨src, input, out, dst⟩ := tr
  cases hm with
  | burst w s =>
    simp only [Ended, bursts_concat]
    exact ⟨bursts trs, rfl, hended⟩
  | close w s i seq t hi th hclose =>
    obtain ⟨qouta, stage, heq, hne⟩ := close_eq w s t seq
    obtain rfl := hclose.symm.trans heq
    have hsmall : w.qouta.toNat < 2 ^ 32 := (hin.length_eq rfl hi).2
    obtain ⟨before, hbursts, hbefore⟩ := hended
    rw [ended_of_ne hne, bursts_concat]
    simp only [hbursts, List.mem_append, List.mem_singleton]
    rintro c (hc | rfl)
    · exact hbefore c hc
    · exact hsmall
  | look w till n =>
    rw [ended_of_ne (look_ne till n), bursts_concat]
    exact hended
  | spin w till n =>
    rw [ended_of_ne (by simp only; split_ifs <;> simp), bursts_concat]
    exact hended
  | _ =>
    simp only [Ended, bursts_concat]
    exact hended

/-- In the loop over a burst the last burst is the one under way. -/
theorem last_burst {s : UInt64} {i seq : UInt32} {b : UInt64 × UInt64} (h : Ended trs th)
    (hstage : th.stage = .sending s i seq) (hlast : b ∈ (bursts trs).getLast?) :
    b = (s, th.worker.qouta) := by
  rw [Ended, hstage] at h
  obtain ⟨before, he, -⟩ := h
  have hb : (s, th.worker.qouta) = b := by simpa [he] using hlast
  exact hb.symm

/-- While the counter is below the quota, or wraps around before it gets there, a burst can go on
to send one packet after the other. -/
theorem burst_goes_on {s : UInt64} {i seq : UInt32} (hstage : th.stage = .sending s i seq) (n : ℕ)
    (hn : i.toNat + n ≤ th.worker.qouta.toNat ∨ 2 ^ 32 ≤ th.worker.qouta.toNat) :
    ∃ more phdr, machine.Run th more
        ⟨{ th.worker with phdr := phdr }, .sending s (i + UInt32.ofNat n) (seq + UInt32.ofNat n)⟩ ∧
      (∀ tr ∈ more, tr.input = .send true) ∧ more.length = n := by
  induction n with
  | zero =>
    obtain ⟨w, stage⟩ := th
    obtain rfl : stage = .sending s i seq := hstage
    refine ⟨[], w.phdr, ?_, by simp, rfl⟩
    simpa using Machine.Run.refl
  | succ n ih =>
    obtain ⟨more, phdr, hrun, hsends, hlen⟩ := ih (by omega)
    have hturn : (i + UInt32.ofNat n).toUInt64 < th.worker.qouta := by
      rw [UInt64.lt_iff_toNat_lt]
      have hlt := (i + UInt32.ofNat n).toNat_lt
      have hmod : (i + UInt32.ofNat n).toNat ≤ i.toNat + n := by
        rw [UInt32.toNat_add, UInt32.toNat_ofNat']
        exact (Nat.mod_le _ _).trans (Nat.add_le_add_left (Nat.mod_le _ _) _)
      have hcast : (i + UInt32.ofNat n).toUInt64.toNat = (i + UInt32.ofNat n).toNat :=
        UInt32.toNat_toUInt64 _
      omega
    have hnext : i + UInt32.ofNat (n + 1) = i + UInt32.ofNat n + 1 := by
      rw [UInt32.ofNat_add, add_assoc]
      rfl
    have hseq : seq + UInt32.ofNat (n + 1) = seq + UInt32.ofNat n + 1 := by
      rw [UInt32.ofNat_add, add_assoc]
      rfl
    rw [hnext, hseq]
    let last : Thread :=
      ⟨{ th.worker with phdr := phdr }, .sending s (i + UInt32.ofNat n) (seq + UInt32.ofNat n)⟩
    let tr : Act :=
      { src := last
        input := .send true
        out := [phdr.load 0 th.worker.psize.toNat]
        dst := (last.sent s (i + UInt32.ofNat n) (seq + UInt32.ofNat n)).val }
    have htakes : machine.Takes tr := by
      simp only [Machine.Takes, machine, step, tr, last, if_pos hturn]
      rfl
    refine ⟨more ++ [tr], _, .snoc hrun htakes, ?_, by simp [hlen]⟩
    simp only [List.mem_append, List.mem_singleton]
    rintro tr' (htr' | rfl)
    · exact hsends tr' htr'
    · rfl

theorem sent_append {more : List Act} (h : ∀ tr ∈ more, tr.input = .send true) :
    (record (trs ++ more)).sent = (record trs).sent + more.length := by
  induction more using List.reverseRecOn with
  | nil => simp
  | append_singleton more tr ih =>
    rw [← List.append_assoc, record_concat, sent_note, ih fun tr' h' => h tr' (by simp [h']),
      h tr (by simp)]
    simp [Nat.add_assoc]

/-- A burst whose quota the counter cannot reach sends as much as one likes. -/
theorem endless_burst (trs : List Act) {s : UInt64} {i seq : UInt32}
    (hstage : th.stage = .sending s i seq) (hquota : 2 ^ 32 ≤ th.worker.qouta.toNat) (x : ℚ) :
    ∃ more th', machine.Run th more th' ∧ Sends more ∧ x < (record (trs ++ more)).sent := by
  obtain ⟨n, hn⟩ := exists_nat_gt x
  obtain ⟨more, phdr, hrun, hsends, hlen⟩ := burst_goes_on hstage n (.inr hquota)
  refine ⟨more, _, hrun, fun tr htr => ⟨true, hsends tr htr⟩, ?_⟩
  rw [sent_append hsends, hlen]
  push_cast
  linarith [(Nat.cast_nonneg (record trs).sent : (0 : ℚ) ≤ _)]

/-- Where the quota of the last burst is one that the counter can reach, no more is sent than the
quotas so far, in the burst as after it. -/
theorem sent_le_quotas {b : UInt64 × UInt64} (hr : machine.Run th₀ trs th)
    (htop : th₀.stage = .top) (hlast : b ∈ (bursts trs).getLast?) (hquota : b.2.toNat < 2 ^ 32) :
    (record trs).sent ≤ quotas (bursts trs) := by
  obtain ⟨hin, hwithin⟩ := within_run hr htop
  by_cases hsending : ∃ s i seq, th.stage = .sending s i seq
  · obtain ⟨s, i, seq, hstage⟩ := hsending
    obtain rfl := last_burst (ended_run hr htop).2 hstage hlast
    have hlen := (hin s i seq hstage).2.resolve_right (by simpa using hquota)
    have hcount : (record trs).outcomes.count true ≤ (record trs).outcomes.length :=
      List.count_le_length
    rw [Within, hstage] at hwithin
    rw [Record.sent]
    simp only at hwithin
    omega
  · exact (within_of_ne fun s i seq h => hsending ⟨s, i, seq, h⟩).mp hwithin

/-- The schedule is kept in just the states whose last burst has a quota that fits the counter of
its loop. -/
theorem within_schedule_iff (hB : 0 < th₀.worker.npktsBurst.toNat)
    (hG : 0 < th₀.worker.ibg.toNat) (htop : th₀.stage = .top)
    (hstart : th₀.worker.qouta = th₀.worker.npktsBurst) (hr : machine.Run th₀ trs th)
    (htime : Timely trs) (hfit : ∀ tr ∈ trs, Fits tr) {first b : UInt64 × UInt64}
    (hfirst : first ∈ (bursts trs).head?) (hlast : b ∈ (bursts trs).getLast?) :
    OnSchedule th₀.worker.npktsBurst th₀.worker.ibg trs th first b ↔ b.2.toNat < 2 ^ 32 := by
  constructor
  · intro hkeeps
    by_contra hquota
    have hended := (ended_run hr htop).2
    have hb : b ∈ bursts trs := List.mem_of_getLast? hlast
    by_cases hsending : ∃ s i seq, th.stage = .sending s i seq
    · obtain ⟨s, i, seq, hstage⟩ := hsending
      have hq : b.2 = th.worker.qouta := by rw [last_burst hended hstage hlast]
      obtain ⟨more, th', hrun, hsends, hlt⟩ :=
        endless_burst trs hstage (by rw [← hq]; omega)
          (planned th₀.worker.npktsBurst th₀.worker.ibg first b)
      exact absurd (hkeeps.packets more th' hrun hsends) (not_le.mpr hlt)
    · exact hquota ((ended_of_ne fun s i seq h => hsending ⟨s, i, seq, h⟩).mp hended b hb)
  · intro hquota
    refine ⟨fun before c after he => quotas_planned hB hG htop hstart hr htime hfit hfirst he, ?_⟩
    intro more th' hrun hsends
    obtain ⟨before, he⟩ := List.getLast?_eq_some_iff.mp hlast
    have hsent := sent_le_quotas (hr.append hrun) htop (by rwa [hsends.bursts]) hquota
    rw [hsends.bursts] at hsent
    calc ((record (trs ++ more)).sent : ℚ)
        ≤ quotas (before ++ [b]) := by rw [← he]; exact_mod_cast hsent
      _ ≤ planned th₀.worker.npktsBurst th₀.worker.ibg first b :=
        quotas_planned hB hG htop hstart hr htime hfit hfirst he

theorem timely_of_all (h : (trs.zipIdx.all fun e => e.1.input.time.all fun t =>
    decide (now (trs.take e.2) + asked e.1.src.stage ≤ t.toNat)) = true) : Timely trs := by
  rintro pre tr post rfl t ht
  have hmem : (tr, pre.length) ∈ (pre ++ tr :: post).zipIdx := by
    rw [List.mem_zipIdx_iff_getElem?]
    simp
  have hall := List.all_eq_true.mp h _ hmem
  rw [Option.mem_def.mp ht] at hall
  simpa using hall

theorem fits_of_all (h : (trs.all fun tr => (ends tr).all fun e =>
    decide (tr.src.worker.npktsBurst.toNat * (e.2.2.toNat - e.1.toNat) < 2 ^ 64 ∧
      e.1.toNat + tr.src.worker.ibg.toNat < 2 ^ 64)) = true) : ∀ tr ∈ trs, Fits tr := by
  intro tr htr e he
  have hall := List.all_eq_true.mp h tr htr
  rw [Option.mem_def.mp he] at hall
  simpa using hall

/-- A worker that is to send two packets every 50 ms. -/
def twoThread : Thread :=
  new
    { nCpus := 1
      remoteip := 0
      remoteport := 5001
      ibg := 50
      npktsBurst := 2
      workers := [Sworker.new 1472 0]
      reportingInterval := 1
      duration := 5 } (Sworker.new 1472 0) fun _ => 0

/-- Its first burst takes 120 ms, so that the second one has four packets. -/
def stalled : List Input :=
  [.burst 0, .send true, .send false, .clock 120000, .burst 120000, .send true, .send true,
    .send true, .send true, .clock 121000, .clock 121000, .wake 170000, .burst 170010]

theorem stalled_accepted : (machine.exec twoThread stalled).isSome := by decide +kernel

theorem within_schedule_iff_stalled :
    ∃ trs th, machine.exec twoThread stalled = some (trs, th) ∧
      OnSchedule twoThread.worker.npktsBurst twoThread.worker.ibg trs th (0, 2) (170010, 2) := by
  have htime : Timely (Option.get _ stalled_accepted).1 := timely_of_all (by decide +kernel)
  have hfit : ∀ tr ∈ (Option.get _ stalled_accepted).1, Fits tr := fits_of_all (by decide +kernel)
  have hfirst : (0, 2) ∈ (bursts (Option.get _ stalled_accepted).1).head? := by decide +kernel
  have hlast : (170010, 2) ∈ (bursts (Option.get _ stalled_accepted).1).getLast? := by
    decide +kernel
  exact ⟨_, _, (Option.some_get stalled_accepted).symm,
    (within_schedule_iff (by decide) (by decide) rfl rfl (Machine.exec_get_run stalled_accepted)
      htime hfit hfirst hlast).mpr (by decide)⟩

theorem now_sends {more : List Act} (h : Sends more) : now (trs ++ more) = now trs := by
  have hnone : more.filterMap (fun tr => tr.input.time) = [] := by
    refine List.filterMap_eq_nil_iff.mpr fun tr htr => ?_
    obtain ⟨ok, hok⟩ := h tr htr
    simp [hok, Input.time]
  simp [now, List.filterMap_append, hnone]

theorem timely_nil : Timely [] := by
  intro pre tr post he
  simp at he

theorem timely_concat (h : Timely trs)
    (htr : ∀ t ∈ tr.input.time, now trs + asked tr.src.stage ≤ t.toNat) :
    Timely (trs ++ [tr]) := by
  intro pre tr' post he
  rcases List.eq_nil_or_concat post with rfl | ⟨post, x, rfl⟩
  · obtain ⟨rfl, hlast⟩ := List.append_inj' he rfl
    obtain rfl : tr = tr' := by simpa using hlast
    exact htr
  · refine h pre tr' post ?_
    have hcat : trs ++ [tr] = (pre ++ tr' :: post) ++ [x] := by simpa using he
    exact (List.append_inj' hcat rfl).1

theorem timely_sends {more : List Act} (h : Timely trs) (hsends : Sends more) :
    Timely (trs ++ more) := by
  induction more using List.reverseRecOn with
  | nil => simpa using h
  | append_singleton more tr ih =>
    rw [← List.append_assoc]
    refine timely_concat (ih fun tr' h' => hsends tr' (by simp [h'])) ?_
    obtain ⟨ok, hok⟩ := hsends tr (by simp)
    simp [hok, Input.time]

theorem fits_of_send {ok : Bool} (h : tr.input = .send ok) : Fits tr := by
  intro e he
  simp only [ends, h] at he
  split at he <;> simp at he

theorem fits_of_top (h : tr.src.stage = .top) : Fits tr := by
  intro e he
  simp [ends, h] at he

/-- A burst that has taken an interval or longer ends with a quota that catches up. -/
theorem burst_ends_late {w : Sworker} {s t : UInt64} {seq : UInt32} (hq : w.qouta.toNat < 2 ^ 32)
    (hG : 0 < w.ibg.toNat) (hlate : w.ibg ≤ t - s) :
    machine.step ⟨w, .sending s (UInt32.ofNat w.qouta.toNat) seq⟩ (.clock t) =
      some (pure ⟨{ tally w seq with qouta := w.npktsBurst * (t - s) / w.ibg }, .top⟩) := by
  have hover : ¬ (UInt32.ofNat w.qouta.toNat).toUInt64 < w.qouta := by
    rw [UInt64.lt_iff_toNat_lt, UInt32.toNat_toUInt64, UInt32.toNat_ofNat_of_lt' hq]
    exact lt_irrefl _
  have hdiv : divide ((tally w seq).npktsBurst * (t - s)) (tally w seq).ibg =
      some (w.npktsBurst * (t - s) / w.ibg) := divide_of_ne_zero hG.ne'
  simp only [machine, step, if_neg hover, close, hdiv]
  exact congrArg (fun th => some (pure th)) (if_pos hlate)

/-- So a thread can begin with a burst from `s` to `t` and go on with one at `t`. -/
theorem late_burst {w : Sworker} {s t : UInt64} (hq : w.qouta.toNat < 2 ^ 32)
    (hG : 0 < w.ibg.toNat) (hst : s.toNat ≤ t.toNat) (hlate : w.ibg ≤ t - s)
    (hfit : w.npktsBurst.toNat * (t.toNat - s.toNat) < 2 ^ 64 ∧
      s.toNat + w.ibg.toNat < 2 ^ 64) :
    ∃ trs w' seq, machine.Run ⟨w, .top⟩ trs ⟨w', .sending t 0 seq⟩ ∧ Timely trs ∧
      (∀ tr ∈ trs, Fits tr) ∧ w'.qouta = w.npktsBurst * (t - s) / w.ibg ∧
      bursts trs = [(s, w.qouta), (t, w.npktsBurst * (t - s) / w.ibg)] := by
  let begun : Thread := ⟨w, .sending s 0 w.seq⟩
  obtain ⟨more, phdr, hrun, hsends, -⟩ :=
    burst_goes_on (rfl : begun.stage = .sending s 0 w.seq) w.qouta.toNat (.inl (by simp [begun]))
  have hsends : Sends more := fun tr htr => ⟨true, hsends tr htr⟩
  rw [zero_add] at hrun
  let sent : Sworker := { w with phdr := phdr }
  let seq : UInt32 := w.seq + UInt32.ofNat w.qouta.toNat
  let caught : Sworker := { tally sent seq with qouta := w.npktsBurst * (t - s) / w.ibg }
  let first : Act := ⟨⟨w, .top⟩, .burst s, [], begun⟩
  let last : Act :=
    ⟨⟨sent, .sending s (UInt32.ofNat w.qouta.toNat) seq⟩, .clock t, [], ⟨caught, .top⟩⟩
  let next : Act := ⟨⟨caught, .top⟩, .burst t, [], ⟨caught, .sending t 0 seq⟩⟩
  have hfirst : machine.Takes first := rfl
  have hlast : machine.Takes last := burst_ends_late hq hG hlate
  have hnext : machine.Takes next := rfl
  have hbegun : machine.Run ⟨w, .top⟩ ([] ++ [first]) begun := .snoc .refl hfirst
  refine ⟨([first] ++ more ++ [last]) ++ [next], caught, seq,
    .snoc (.snoc (hbegun.append hrun) hlast) hnext, ?_, ?_, rfl, ?_⟩
  · have htimely : Timely ([] ++ [first]) := timely_concat timely_nil fun _ _ => Nat.zero_le _
    have hnow : now ([first] ++ more) = s.toNat := now_sends hsends
    refine timely_concat (timely_concat (timely_sends htimely hsends) ?_) ?_
    · rintro t' ht
      obtain rfl : t = t' := Option.some.inj ht
      rw [hnow]
      exact hst
    · rintro t' ht
      obtain rfl : t = t' := Option.some.inj ht
      rw [now_concat]
      exact le_rfl
  · intro tr htr
    simp only [List.mem_append, List.mem_singleton] at htr
    rcases htr with ((rfl | htr) | rfl) | rfl
    · exact fits_of_top rfl
    · obtain ⟨ok, hok⟩ := hsends tr htr
      exact fits_of_send hok
    · rintro e he
      obtain rfl : (s, seq, t) = e := Option.some.inj he
      exact hfit
    · exact fits_of_top rfl
  · rw [bursts_concat, bursts_concat, hsends.bursts]
    rfl

/-- A worker that is to send packets of 64 bytes at 1000 Mbps. -/
def gigabitThread : Thread :=
  new
    { nCpus := 1
      remoteip := 0
      remoteport := 5001
      ibg := 50
      npktsBurst := 97656
      workers := [Sworker.new 64 0]
      reportingInterval := 1
      duration := 5 } (Sworker.new 64 0) fun _ => 0

example : calcPktsRate 1000000 64 = some (50, 97656) := by decide

/-- A burst that takes 2200 s is followed by one whose quota its counter cannot reach, which goes
on to leave the schedule behind. -/
theorem schedule_left :
    ∃ trs th, machine.Run gigabitThread trs th ∧ Timely trs ∧ (∀ tr ∈ trs, Fits tr) ∧
      bursts trs = [(0, 97656), (2200000000, 4296864000)] ∧
      ¬ OnSchedule gigabitThread.worker.npktsBurst gigabitThread.worker.ibg trs th (0, 97656)
        (2200000000, 4296864000) := by
  let w : Sworker := gigabitThread.worker
  have hB : w.npktsBurst = 97656 := rfl
  have hG : w.ibg = 50000 := by decide
  have hcaught : w.npktsBurst * (2200000000 - 0) / w.ibg = 4296864000 := by
    rw [hB, hG]
    decide
  obtain ⟨trs, w', seq, hr, htime, hfit, hq, hbursts⟩ :=
    late_burst (w := w) (s := 0) (t := 2200000000) (by decide) (by rw [hG]; decide) (by decide)
      (by rw [hG]; decide) (by rw [hB, hG]; decide)
  rw [hcaught] at hq hbursts
  refine ⟨trs, _, hr, htime, hfit, hbursts, fun hkeeps => ?_⟩
  obtain ⟨more, th', hrun, hsends, hlt⟩ :=
    endless_burst trs (rfl : (⟨w', .sending 2200000000 0 seq⟩ : Thread).stage = _)
      (by rw [hq]; decide) (planned w.npktsBurst w.ibg (0, 97656) (2200000000, 4296864000))
  exact absurd (hkeeps.packets more th' hrun hsends) (not_le.mpr hlt)

end TcpEyenet.Ttest.Thread
