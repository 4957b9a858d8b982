import TcpEyenet.Ttest.Worker

/-! The counts of a sending thread, and the numbers of its packets. -/
namespace TcpEyenet.Ttest.Thread

open Bytes

variable {th th₀ : Thread} {w : Sworker} {tr : Act} {trs pre post : List Act} {mem : Buf}
  {t : Tsnd} {p : ProgParam} {prog : List Char} {argv : List (List Char)} {n₀ : ℕ}

/-- The packets sent up to the last burst that has ended. -/
def done (trs : List Act) (th : Thread) : ℕ :=
  match th.stage with
  | .sending _ _ _ => (record trs).before
  | _ => (record trs).sent

theorem done_of_ne (hne : ∀ s i seq, th.stage ≠ .sending s i seq) :
    done trs th = (record trs).sent := by
  unfold done
  split
  · exact absurd ‹_› (hne _ _ _)
  · rfl

/-- Where no burst ends, nothing is counted. -/
theorem frame_step (trs : List Act) (ht : machine.Takes tr) (hend : ends tr = none) :
    tr.dst.worker.seq = tr.src.worker.seq ∧ tr.dst.worker.stats = tr.src.worker.stats ∧
      done (trs ++ [tr]) tr.dst = done trs tr.src := by
  have hm := takes_move ht
  obtain ⟨src, input, out, dst⟩ := tr
  cases hm with
  | close w s i seq t hi th hclose => simp [ends] at hend
  | look w till n =>
    rw [done_of_ne (look_ne till n), record_concat]
    exact ⟨rfl, rfl, rfl⟩
  | spin w till n =>
    rw [done_of_ne (by simp only; split_ifs <;> simp), record_concat]
    exact ⟨rfl, rfl, rfl⟩
  | _ =>
    refine ⟨rfl, rfl, ?_⟩
    simp only [done, record_concat]
    rfl

/-- Where a burst ends. -/
theorem ends_step (trs : List Act) (ht : machine.Takes tr) {s t : UInt64} {seq : UInt32}
    (hend : ends tr = some (s, seq, t)) :
    (∃ i, tr.src.stage = .sending s i seq ∧ ¬ i.toUInt64 < tr.src.worker.qouta) ∧
      tr.dst.worker.seq = seq ∧ tr.dst.worker.stats = (tally tr.src.worker seq).stats ∧
      done (trs ++ [tr]) tr.dst = (record trs).sent ∧ tr.out = [] := by
  have hm := takes_move ht
  obtain ⟨src, input, out, dst⟩ := tr
  cases hm with
  | close w s' i seq' t' hi th hclose =>
    obtain ⟨rfl, rfl, rfl⟩ : s' = s ∧ seq' = seq ∧ t' = t := by simpa [ends] using hend
    obtain ⟨qouta, stage, heq, hne⟩ := close_eq w s' t' seq'
    obtain rfl := hclose.symm.trans heq
    rw [done_of_ne hne, record_concat]
    exact ⟨⟨i, rfl, hi⟩, rfl, rfl, rfl, rfl⟩
  | _ => simp [ends] at hend

/-- The numbers that the thread keeps. -/
structure Counted (trs : List Act) (th : Thread) : Prop where
  burst : InBurst trs th
  seq : th.worker.seq.toNat = done trs th % 2 ^ 32
  next : ∀ s i seq, th.stage = .sending s i seq → seq.toNat = (record trs).sent % 2 ^ 32
  npkts : th.worker.stats.npkts.toNat = done trs th % 2 ^ 64

/-- The packets of a burst that ends, by its numbers. -/
theorem Counted.delta (h : Counted trs tr.src) (ht : machine.Takes tr) {s t : UInt64} {seq : UInt32}
    (hend : ends tr = some (s, seq, t)) :
    (seq - tr.src.worker.seq).toNat = (record trs).outcomes.count true := by
  obtain ⟨⟨i, hstage, hi⟩, -⟩ := ends_step trs ht hend
  obtain ⟨hlen, hlt⟩ := h.burst.length_eq hstage hi
  have hcount : (record trs).outcomes.count true ≤ (record trs).outcomes.length :=
    List.count_le_length
  have hseq := h.seq
  have hnext := h.next _ _ _ hstage
  simp only [done, hstage] at hseq
  rw [Record.sent] at hnext
  rw [UInt32.toNat_sub]
  omega

theorem next_step (ht : machine.Takes tr) (h : Counted trs tr.src) :
    ∀ s i seq, tr.dst.stage = .sending s i seq →
      seq.toNat = (record (trs ++ [tr])).sent % 2 ^ 32 := by
  intro s i seq hstage
  rw [record_concat, sent_note]
  rcases sending_cases ht hstage with
    ⟨hinput, htop, -, rfl⟩ | ⟨ok, i₀, seq₀, hinput, hsrc, -, -, rfl, -⟩
  · have hseq := h.seq
    rw [done_of_ne (by simp [htop])] at hseq
    rw [hinput]
    exact hseq
  · have hnext := h.next _ _ _ hsrc
    have hone : (seq₀ + 1).toNat = (seq₀.toNat + 1) % 2 ^ 32 := UInt32.toNat_add ..
    rw [hinput]
    cases ok with
    | true =>
      rw [if_pos rfl, hone, hnext, Nat.mod_add_mod, List.count_singleton_self]
    | false => exact hnext

theorem counted_step (ht : machine.Takes tr) (h : Counted trs tr.src) :
    Counted (trs ++ [tr]) tr.dst := by
  refine ⟨inBurst_step ht h.burst, ?_, next_step ht h, ?_⟩
  · cases hend : ends tr with
    | none =>
      obtain ⟨hseq, -, hdone⟩ := frame_step trs ht hend
      rw [hseq, hdone]
      exact h.seq
    | some e =>
      obtain ⟨s, seq, t⟩ := e
      obtain ⟨⟨i, hstage, -⟩, hseq, -, hdone, -⟩ := ends_step trs ht hend
      rw [hseq, hdone]
      exact h.next _ _ _ hstage
  · cases hend : ends tr with
    | none =>
      obtain ⟨-, hstats, hdone⟩ := frame_step trs ht hend
      rw [hstats, hdone]
      exact h.npkts
    | some e =>
      obtain ⟨s, seq, t⟩ := e
      obtain ⟨⟨i, hstage, -⟩, -, hstats, hdone, -⟩ := ends_step trs ht hend
      have hnpkts := h.npkts
      simp only [done, hstage] at hnpkts
      have hadd : (tally tr.src.worker seq).stats.npkts.toNat =
          (tr.src.worker.stats.npkts.toNat + (seq - tr.src.worker.seq).toNat) % 2 ^ 64 :=
        UInt64.toNat_add ..
      rw [hstats, hdone, hadd, h.delta ht hend, hnpkts, Nat.mod_add_mod, Record.sent]

theorem counted_run (hr : machine.Run (new t w mem) trs th) (hw : w.stats = 0) :
    Counted trs th := by
  refine hr.history (C := fun _ => True) (fun _ _ => trivial) ⟨?_, rfl, ?_, ?_⟩
    fun _ _ ht _ => counted_step ht
  · intro s i seq h
    cases h
  · intro s i seq h
    cases h
  · change w.stats.npkts.toNat = 0
    rw [hw]
    rfl

/-- The counts at the end of a burst, and the product of 32 bits they are made from. -/
structure Exact (r : Record) (tr : Act) (seq : UInt32) : Prop where
  npkts : tr.dst.worker.stats.npkts.toNat = r.sent
  nbytes : tr.dst.worker.stats.nbytes.toNat =
    tr.dst.worker.psize.toNat * tr.dst.worker.stats.npkts.toNat
  product : (tr.src.worker.psize.toUInt32 * (seq - tr.src.worker.seq)).toNat =
    tr.src.worker.psize.toNat * (seq - tr.src.worker.seq).toNat

/-- The counts agree with each other, and with what was sent, after every burst. -/
def Tallied (trs : List Act) : Prop :=
  ∀ pre tr post, trs = pre ++ tr :: post → ∀ e ∈ ends tr, Exact (record pre) tr e.2.1

theorem product_toNat (psize : UInt16) (d : UInt32) :
    (psize.toUInt32 * d).toNat = psize.toNat * d.toNat % 2 ^ 32 := by
  rw [UInt32.toNat_mul, UInt16.toNat_toUInt32]

/-- One step, of a run whose bursts are small. -/
theorem nbytes_step (ht : machine.Takes tr) (h : Counted trs tr.src)
    (hsmall : ∀ e ∈ ends tr,
      tr.src.worker.psize.toNat * (record trs).outcomes.count true < 2 ^ 32)
    (hbytes : tr.src.worker.stats.nbytes.toNat =
      tr.src.worker.psize.toNat * done trs tr.src % 2 ^ 64) :
    tr.dst.worker.stats.nbytes.toNat =
      tr.src.worker.psize.toNat * done (trs ++ [tr]) tr.dst % 2 ^ 64 := by
  cases hend : ends tr with
  | none =>
    obtain ⟨-, hstats, hdone⟩ := frame_step trs ht hend
    rw [hstats, hdone]
    exact hbytes
  | some e =>
    obtain ⟨s, seq, t⟩ := e
    obtain ⟨⟨i, hstage, -⟩, -, hstats, hdone, -⟩ := ends_step trs ht hend
    simp only [done, hstage] at hbytes
    have hadd : (tally tr.src.worker seq).stats.nbytes.toNat =
        (tr.src.worker.stats.nbytes.toNat +
          (tr.src.worker.psize.toUInt32 * (seq - tr.src.worker.seq)).toNat) % 2 ^ 64 :=
      UInt64.toNat_add ..
    rw [hstats, hdone, hadd, product_toNat, h.delta ht hend,
      Nat.mod_eq_of_lt (hsmall _ hend), hbytes, Nat.mod_add_mod, ← Nat.mul_add, Record.sent]

/-- The end of a burst that is counted right shows that the counts had room for it. -/
theorem Exact.small (ht : machine.Takes tr) (h : Counted trs tr.src) {s t : UInt64} {seq : UInt32}
    (hend : ends tr = some (s, seq, t)) (he : Exact (record trs) tr seq) :
    tr.src.worker.psize.toNat * (record trs).outcomes.count true < 2 ^ 32 ∧
      tr.src.worker.psize.toNat * (record trs).sent < 2 ^ 64 := by
  constructor
  · rw [← h.delta ht hend, ← he.product]
    exact UInt32.toNat_lt _
  · rw [← (settings_step ht).psize, ← he.npkts, ← he.nbytes]
    exact UInt64.toNat_lt _

/-- A burst that the counts have room for is counted right, if those before it were small. -/
theorem exact_of_small (hsize : 0 < tr.src.worker.psize.toNat) (ht : machine.Takes tr)
    (h : Counted trs tr.src) {s t : UInt64} {seq : UInt32} (hend : ends tr = some (s, seq, t))
    (hsmall : tr.src.worker.psize.toNat * (record trs).outcomes.count true < 2 ^ 32)
    (htotal : tr.src.worker.psize.toNat * (record trs).sent < 2 ^ 64)
    (hbytes : tr.src.worker.stats.nbytes.toNat =
      tr.src.worker.psize.toNat * done trs tr.src % 2 ^ 64) :
    Exact (record trs) tr seq := by
  obtain ⟨-, -, -, hdone, -⟩ := ends_step trs ht hend
  have hnpkts : tr.dst.worker.stats.npkts.toNat = (record trs).sent := by
    have hle : (record trs).sent ≤ tr.src.worker.psize.toNat * (record trs).sent :=
      Nat.le_mul_of_pos_left _ hsize
    rw [(counted_step ht h).npkts, hdone, Nat.mod_eq_of_lt (hle.trans_lt htotal)]
  refine ⟨hnpkts, ?_, ?_⟩
  · have hnext := nbytes_step ht h (fun _ _ => hsmall) hbytes
    rw [hnext, hdone, Nat.mod_eq_of_lt htotal, hnpkts, (settings_step ht).psize]
  · rw [product_toNat, h.delta ht hend, Nat.mod_eq_of_lt hsmall]

theorem nbytes_run (hr : machine.Run (new t w mem) trs th) (hw : w.stats = 0)
    (hsmall : ∀ pre tr post, trs = pre ++ tr :: post → ∀ e ∈ ends tr,
      w.psize.toNat * (record pre).outcomes.count true < 2 ^ 32) :
    th.worker.stats.nbytes.toNat = w.psize.toNat * done trs th % 2 ^ 64 := by
  refine hr.along (I := fun trs th => th.worker.stats.nbytes.toNat =
      w.psize.toNat * done trs th % 2 ^ 64)
    (C := fun pre tr => ∀ e ∈ ends tr,
      w.psize.toNat * (record pre).outcomes.count true < 2 ^ 32) hsmall ?_ ?_
  · change w.stats.nbytes.toNat = w.psize.toNat * 0 % 2 ^ 64
    rw [hw]
    rfl
  · intro pre tr hpre ht hsmall hbytes
    have hsize : tr.src.worker.psize = w.psize := (settings_run hpre).psize
    rw [← hsize] at hsmall hbytes
    rw [← hsize]
    exact nbytes_step ht (counted_run hpre hw) hsmall hbytes

/-- The counts are right after every burst just where they have room for what was sent. -/
theorem tallied_iff_small (hr : machine.Run (new t w mem) trs th) (hw : w.stats = 0)
    (hsize : 0 < w.psize.toNat) :
    Tallied trs ↔ ∀ pre tr post, trs = pre ++ tr :: post → (ends tr).isSome →
      w.psize.toNat * (record pre).outcomes.count true < 2 ^ 32 ∧
        w.psize.toNat * (record pre).sent < 2 ^ 64 := by
  constructor
  · intro htallied pre tr post he hend
    obtain ⟨⟨s, seq, t⟩, hend⟩ := Option.isSome_iff_exists.mp hend
    obtain ⟨hpre, ht⟩ := hr.split he
    have hsmall := (htallied pre tr post he _ hend).small ht (counted_run hpre hw) hend
    rwa [(settings_run hpre).psize] at hsmall
  · intro hsmall pre tr post he e hend
    obtain ⟨s, seq, t⟩ := e
    obtain ⟨hpre, ht⟩ := hr.split he
    have hkept : tr.src.worker.psize = w.psize := (settings_run hpre).psize
    have hbefore : ∀ pre' tr' post', pre = pre' ++ tr' :: post' → ∀ e ∈ ends tr',
        w.psize.toNat * (record pre').outcomes.count true < 2 ^ 32 := by
      rintro pre' tr' post' rfl e hend'
      exact (hsmall pre' tr' (post' ++ tr :: post) (by simpa using he)
        (Option.isSome_of_mem hend')).1
    have hbytes := nbytes_run hpre hw hbefore
    obtain ⟨hburst, htotal⟩ := hsmall pre tr post he (Option.isSome_of_mem hend)
    rw [← hkept] at hsize hburst htotal hbytes
    exact exact_of_small hsize ht (counted_run hpre hw) hend hburst htotal hbytes

/-- The workers start with nothing counted, and with the size of `parse_args`. -/
theorem worker_settings (hp : (parseArgs prog argv).val = some p) (ht : startClient p = some t)
    (hw : w ∈ t.workers) : w.stats = 0 ∧ w.psize.toNat = p.pktsize.toNat := by
  obtain ⟨i, -, rfl⟩ := (mem_startClient ht).mp hw
  refine ⟨rfl, ?_⟩
  have hmax := (parseArgs_valid hp).pktsize.2
  change p.pktsize.toUInt16.toNat = p.pktsize.toNat
  rw [UInt32.toNat_toUInt16, Nat.mod_eq_of_lt (by omega)]

/-- The counts of a worker are right after every burst just where no burst is of 2 ^ 32 bytes or
more, as long as all bytes go into 64 bits. -/
theorem counts_exact_iff (hp : (parseArgs prog argv).val = some p) (ht : startClient p = some t)
    (hw : w ∈ t.workers) (hr : machine.Run (new t w mem) trs th) :
    Tallied trs ↔ ∀ pre tr post, trs = pre ++ tr :: post → (ends tr).isSome →
      p.pktsize.toNat * (record pre).outcomes.count true < 2 ^ 32 ∧
        p.pktsize.toNat * (record pre).sent < 2 ^ 64 := by
  obtain ⟨hstats, hsize⟩ := worker_settings hp ht hw
  have hmin := (parseArgs_valid hp).pktsize.1
  rw [tallied_iff_small hr hstats (by omega), hsize]

/-- A burst may go on with packets that are all sent. -/
theorem sends_run (n : ℕ) (w : Sworker) (s : UInt64) (i seq : UInt32)
    (hquota : i.toNat + n ≤ w.qouta.toNat) (hlt : i.toNat + n < 2 ^ 32) :
    ∃ trs phdr, machine.Run ⟨w, .sending s i seq⟩ trs
      ⟨{ w with phdr := phdr }, .sending s (i + UInt32.ofNat n) (seq + UInt32.ofNat n)⟩ := by
  induction n with
  | zero => exact ⟨[], w.phdr, by simpa using Machine.Run.refl⟩
  | succ n ih =>
    obtain ⟨trs, phdr, hr⟩ := ih (by omega) (by omega)
    have hcount : (i + UInt32.ofNat n).toNat = i.toNat + n := by
      rw [UInt32.toNat_add, UInt32.toNat_ofNat']
      omega
    have hi : (i + UInt32.ofNat n).toUInt64 < w.qouta := by
      rw [UInt64.lt_iff_toNat_lt, UInt32.toNat_toUInt64, hcount]
      omega
    have hone : ∀ x : UInt32, x + UInt32.ofNat (n + 1) = x + UInt32.ofNat n + 1 := by
      intro x
      rw [UInt32.ofNat_add, ← UInt32.add_assoc]
      rfl
    have ht : machine.Takes
        ⟨⟨{ w with phdr := phdr }, .sending s (i + UInt32.ofNat n) (seq + UInt32.ofNat n)⟩,
          .send true, [phdr.load 0 w.psize.toNat],
          ⟨{ w with phdr := phdr.store 4 (netBytes 4 (seq + UInt32.ofNat n + 1).toNat) },
            .sending s (i + UInt32.ofNat n + 1) (seq + UInt32.ofNat n + 1)⟩⟩ := by
      simp only [Machine.Takes, machine, step, if_pos hi]
      rfl
    rw [hone, hone]
    exact ⟨_, _, hr.snoc ht⟩

/-- A turn of the loop in which all packets are sent. -/
theorem turn_run (w : Sworker) (s : UInt64) (hquota : w.qouta.toNat < 2 ^ 32) :
    ∃ trs phdr, machine.Run ⟨w, .top⟩ trs
      ⟨{ w with phdr := phdr }, .sending s (UInt32.ofNat w.qouta.toNat)
        (w.seq + UInt32.ofNat w.qouta.toNat)⟩ := by
  obtain ⟨trs, phdr, hr⟩ := sends_run w.qouta.toNat w s 0 w.seq (by simp) (by simpa using hquota)
  rw [UInt32.zero_add] at hr
  have ht : machine.Takes ⟨⟨w, .top⟩, .burst s, [], ⟨w, .sending s 0 w.seq⟩⟩ := rfl
  exact ⟨_, phdr, Machine.Run.cons ht hr⟩

/-- The loop over a burst ends after all its packets. -/
theorem takes_close (w : Sworker) (s t : UInt64) (seq : UInt32) (hquota : w.qouta.toNat < 2 ^ 32) :
    machine.Takes ⟨⟨w, .sending s (UInt32.ofNat w.qouta.toNat) seq⟩, .clock t, [],
      close w s seq t⟩ := by
  have hi : ¬ (UInt32.ofNat w.qouta.toNat).toUInt64 < w.qouta := by
    rw [UInt64.lt_iff_toNat_lt, UInt32.toNat_toUInt64, UInt32.toNat_ofNat', Nat.mod_eq_of_lt hquota]
    exact lt_irrefl _
  simp only [Machine.Takes, machine, step, if_neg hi]
  rfl

/-- A burst that takes longer than an interval is followed by one of what was missed. -/
theorem stall_run (w : Sworker) (delta : UInt64) (hquota : w.qouta.toNat < 2 ^ 32)
    (hibg : w.ibg ≠ 0) (hlate : w.ibg ≤ delta) :
    ∃ trs w', machine.Run ⟨w, .top⟩ trs ⟨w', .top⟩ ∧ w'.psize = w.psize ∧
      w'.qouta = w.npktsBurst * delta / w.ibg := by
  obtain ⟨turn, phdr, hr⟩ := turn_run w 0 hquota
  have ht := takes_close { w with phdr := phdr } 0 delta (w.seq + UInt32.ofNat w.qouta.toNat) hquota
  have hclose : ∀ seq, close { w with phdr := phdr } 0 seq delta =
      ⟨{ tally { w with phdr := phdr } seq with
          qouta := w.npktsBurst * delta / w.ibg }, .top⟩ := by
    intro seq
    simp [close, tally, divide, hibg, hlate]
  have hrun := hr.snoc ht
  rw [hclose] at hrun
  exact ⟨_, _, hrun, rfl, rfl⟩

/-- A burst of 2 ^ 32 bytes or more can be sent, and is not counted right. -/
theorem burst_wraps (hr₀ : machine.Run th₀ trs ⟨w, .top⟩) (hquota : w.qouta.toNat < 2 ^ 32)
    (hwrap : 2 ^ 32 ≤ w.psize.toNat * w.qouta.toNat) :
    ∃ trs th, machine.Run th₀ trs th ∧ ¬ Tallied trs := by
  obtain ⟨turn, phdr, hr⟩ := turn_run w 0 hquota
  have ht := takes_close { w with phdr := phdr } 0 0 (w.seq + UInt32.ofNat w.qouta.toNat) hquota
  refine ⟨_, _, (hr₀.append hr).snoc ht, fun htallied => ?_⟩
  have hproduct := (htallied (trs ++ turn) _ [] rfl _ rfl).product
  have hdelta : (w.seq + UInt32.ofNat w.qouta.toNat - w.seq).toNat = w.qouta.toNat := by
    rw [UInt32.add_comm, UInt32.add_sub_cancel, UInt32.toNat_ofNat', Nat.mod_eq_of_lt hquota]
  simp only [product_toNat, hdelta] at hproduct
  have hlt := Nat.mod_lt (w.psize.toNat * w.qouta.toNat) (Nat.two_pow_pos 32)
  omega

/-- `-c 1.1.1.1 -b 1000M -t 60`. -/
def fastRate : List (List Char) :=
  [['-', 'c', '1', '.', '1', '.', '1', '.', '1'], ['-', 'b', '1', '0', '0', '0', 'M'],
    ['-', 't', '6', '0']]

theorem fastRate_accepted : (parseArgs ['t'] fastRate).val.isSome := by decide +kernel

def fastParam : ProgParam := (parseArgs ['t'] fastRate).val.get fastRate_accepted

theorem fastParam_started : (startClient fastParam).isSome := by decide +kernel

def fastClient : Tsnd := (startClient fastParam).get fastParam_started

/-- A first burst that takes 34.4 seconds makes the next one one of 4299064320 bytes. -/
theorem stall_miscounts :
    (parseArgs ['t'] fastRate).val = some fastParam ∧ startClient fastParam = some fastClient ∧
      ∃ w ∈ fastClient.workers, ∃ trs th, machine.Run (new fastClient w fun _ => 0) trs th ∧
        ¬ Tallied trs := by
  have hstarted : startClient fastParam = some fastClient := (Option.some_get _).symm
  refine ⟨(Option.some_get _).symm, hstarted, Sworker.new 1472 0, ?_, ?_⟩
  · exact (mem_startClient hstarted).mpr ⟨0, by decide +kernel, by
      rw [show fastParam.pktsize.toUInt16 = 1472 by decide +kernel]
      rfl⟩
  · have hplan : fastClient.npktsBurst = 4245 ∧ fastClient.ibg = 50 := by decide +kernel
    generalize fastClient = t at hplan
    obtain ⟨hburst, hibg⟩ := hplan
    obtain ⟨trs, w, hr, hsize, hquota⟩ :=
      stall_run (new t (Sworker.new 1472 0) fun _ => 0).worker 34400000
        (by
          change t.npktsBurst.toNat < 2 ^ 32
          rw [hburst]
          decide)
        (by
          change t.ibg * 1000 ≠ 0
          rw [hibg]
          decide)
        (by
          change t.ibg * 1000 ≤ 34400000
          rw [hibg]
          decide)
    have hquota : w.qouta = 2920560 := by
      change w.qouta = t.npktsBurst * 34400000 / (t.ibg * 1000) at hquota
      rw [hquota, hburst, hibg]
      decide
    refine burst_wraps hr ?_ ?_
    · rw [hquota]
      decide
    · rw [hsize, hquota]
      change 2 ^ 32 ≤ (1472 : UInt16).toNat * (2920560 : UInt64).toNat
      decide

def slowParam : ProgParam := (parseArgs ['t'] slowRate).val.get slowRate_accepted

theorem slowParam_started : (startClient slowParam).isSome := by decide +kernel

def slowClient : Tsnd := (startClient slowParam).get slowParam_started

/-- Its worker. -/
theorem mem_slowClient : Sworker.new 1472 0 ∈ slowClient.workers := by
  have hstarted : startClient slowParam = some slowClient := (Option.some_get _).symm
  have hsize : slowParam.pktsize.toUInt16 = 1472 := by decide +kernel
  rw [mem_startClient hstarted, hsize]
  exact ⟨0, by decide +kernel, rfl⟩

/-- Three bursts, of which the last is longer, since the second one takes 289 ms. -/
def threeBursts : List Input :=
  [.burst 0, .send true, .clock 20, .clock 30, .wake 111000, .burst 111000, .send false,
    .clock 400000, .burst 400000, .send true, .send true, .clock 400040]

def slowThread (mem : Buf) : Thread := new slowClient (Sworker.new 1472 0) mem

theorem threeBursts_accepted :
    (machine.exec (slowThread fun _ => 0) threeBursts).isSome := by decide +kernel

theorem counts_exact_iff_threeBursts :
    ∃ trs th, machine.exec (slowThread fun _ => 0) threeBursts = some (trs, th) ∧
      (Tallied trs ↔ ∀ pre tr post, trs = pre ++ tr :: post → (ends tr).isSome →
        slowParam.pktsize.toNat * (record pre).outcomes.count true < 2 ^ 32 ∧
          slowParam.pktsize.toNat * (record pre).sent < 2 ^ 64) :=
  ⟨_, _, (Option.some_get threeBursts_accepted).symm,
    counts_exact_iff (Option.some_get slowRate_accepted).symm
      (Option.some_get slowParam_started).symm mem_slowClient
      (Machine.exec_get_run threeBursts_accepted)⟩

/-- The number of a packet is the one that `malloc` left, and then that of the packets before. -/
def stamp (n₀ k : ℕ) : ℕ := if k = 0 then n₀ else k % 2 ^ 32

/-- The number in the header, and those of the packets so far. -/
structure Stamped (n₀ : ℕ) (trs : List Act) (th : Thread) : Prop where
  header : netField (th.worker.phdr.load 0 th.worker.psize.toNat) 4 4 = stamp n₀ (record trs).sent
  numbers : (packets trs).map (fun d => netField d 4 4) =
    (List.range (record trs).sent).map (stamp n₀)

theorem netField_load {b : Buf} {off n m : ℕ} (h : off + n ≤ m) :
    netField (b.load 0 m) off n = leNat (b.load off n).reverse := by
  rw [netField, Buf.take_drop_load h, Nat.zero_add]

theorem netField_store (b : Buf) (off n v : ℕ) {m : ℕ} (h : off + n ≤ m) :
    netField ((b.store off (netBytes n v)).load 0 m) off n = v % 256 ^ n := by
  have hlen : (netBytes n v).length = n := by simp [netBytes]
  rw [netField_load h, Buf.load_store hlen.ge, List.take_of_length_le hlen.le, netBytes,
    List.reverse_reverse, leNat_leBytes]

theorem sent_record (trs : List Act) :
    (record trs).sent = (trs.map Transition.input).count (.send true) := by
  induction trs using List.reverseRecOn with
  | nil => rfl
  | append_singleton trs tr ih =>
    rw [record_concat, sent_note, ih, List.map_append, List.count_append, List.map_singleton]

/-- Only a packet that is sent changes the header. -/
theorem silent_step (ht : machine.Takes tr) (hi : tr.input ≠ .send true) :
    tr.out = [] ∧ tr.dst.worker.phdr = tr.src.worker.phdr := by
  have hm := takes_move ht
  obtain ⟨src, input, out, dst⟩ := tr
  cases hm with
  | sent w s i seq => exact absurd rfl hi
  | close w s i seq t hi th hclose =>
    obtain ⟨qouta, stage, heq, -⟩ := close_eq w s t seq
    obtain rfl := hclose.symm.trans heq
    exact ⟨rfl, rfl⟩
  | _ => exact ⟨rfl, rfl⟩

theorem sent_step (ht : machine.Takes tr) (hi : tr.input = .send true) :
    ∃ s i seq, tr.src.stage = .sending s i seq ∧
      tr.out = [tr.src.worker.phdr.load 0 tr.src.worker.psize.toNat] ∧
      tr.dst.worker.phdr = tr.src.worker.phdr.store 4 (netBytes 4 (seq + 1).toNat) := by
  have hm := takes_move ht
  obtain ⟨src, input, out, dst⟩ := tr
  obtain rfl : input = .send true := hi
  cases hm with
  | sent w s i seq => exact ⟨s, i, seq, rfl, rfl, rfl⟩

theorem stamped_step (hsize : 8 ≤ tr.src.worker.psize.toNat) (ht : machine.Takes tr)
    (hcounted : Counted trs tr.src) (h : Stamped n₀ trs tr.src) :
    Stamped n₀ (trs ++ [tr]) tr.dst := by
  have hkept : tr.dst.worker.psize = tr.src.worker.psize := (settings_step ht).psize
  by_cases hi : tr.input = .send true
  · obtain ⟨s, i, seq, hstage, hout, hphdr⟩ := sent_step ht hi
    have hseq := hcounted.next _ _ _ hstage
    have hone : (seq + 1).toNat = (seq.toNat + 1) % 2 ^ 32 := UInt32.toNat_add ..
    have hsent : (record (trs ++ [tr])).sent = (record trs).sent + 1 := by
      rw [record_concat, sent_note, hi, List.count_singleton_self]
    constructor
    · rw [hsent, hkept, hphdr, netField_store _ _ _ _ hsize, stamp, if_neg (Nat.succ_ne_zero _)]
      omega
    · rw [hsent, packets_concat, hout, List.map_append, h.numbers, List.range_succ,
        List.map_append, List.map_singleton, List.map_singleton, h.header]
  · obtain ⟨hout, hphdr⟩ := silent_step ht hi
    have hsent : (record (trs ++ [tr])).sent = (record trs).sent := by
      rw [record_concat, sent_note, List.count_eq_zero_of_not_mem (by simpa using Ne.symm hi),
        Nat.add_zero]
    constructor
    · rw [hsent, hkept, hphdr]
      exact h.header
    · rw [hsent, packets_concat, hout, List.append_nil]
      exact h.numbers

theorem stamped_run (hr : machine.Run (new t w mem) trs th) (hw : w.stats = 0)
    (hsize : hdrsz ≤ w.psize.toNat) : Stamped (netField (mem.load 0 hdrsz) 4 4) trs th := by
  refine hr.along (C := fun _ _ => True) (fun _ _ _ _ => trivial) ⟨?_, rfl⟩ ?_
  · have hnew : 4 + 4 ≤ (new t w mem).worker.psize.toNat := (by decide : 8 ≤ hdrsz).trans hsize
    rw [netField_load hnew, netField_load (by decide)]
    have hload : (new t w mem).worker.phdr.load 4 4 = mem.load 4 4 := by
      simp only [new, Sworker.allocatePkt]
      rw [Buf.load_store_of_le (by decide), Buf.load_store_of_le (by decide),
        Buf.load_store_of_ge (by simp [netBytes])]
    rw [hload]
    rfl
  · rintro pre tr hpre ht - hstamped
    refine stamped_step ?_ ht (counted_run hpre hw) hstamped
    rw [(settings_run hpre).psize]
    exact (by decide : 8 ≤ hdrsz).trans hsize

/-- The packets carry their numbers from 0 on, and after a burst the worker has the next one. -/
structure Numbered (trs : List Act) : Prop where
  packets : (packets trs).map (fun d => netField d 4 4) =
    (List.range (packets trs).length).map (· % 2 ^ 32)
  seq : ∀ pre tr post, trs = pre ++ tr :: post → (ends tr).isSome →
    tr.dst.worker.seq.toNat = (Thread.packets (pre ++ [tr])).length % 2 ^ 32

theorem Stamped.length_packets (h : Stamped n₀ trs th) :
    (packets trs).length = (record trs).sent := by
  simpa using congrArg List.length h.numbers

/-- After a burst the worker has the number of packets sent so far. -/
theorem seq_of_ends (hr : machine.Run (new t w mem) trs th) (hw : w.stats = 0)
    (hsize : hdrsz ≤ w.psize.toNat) (he : trs = pre ++ tr :: post) (hend : (ends tr).isSome) :
    tr.dst.worker.seq.toNat = (packets (pre ++ [tr])).length % 2 ^ 32 := by
  obtain ⟨⟨s, seq, t⟩, hend⟩ := Option.isSome_iff_exists.mp hend
  obtain ⟨hpre, ht⟩ := hr.split he
  obtain ⟨⟨i, hstage, -⟩, hseq, -, -, hout⟩ := ends_step pre ht hend
  rw [packets_concat, hout, List.append_nil, (stamped_run hpre hw hsize).length_packets, hseq]
  exact (counted_run hpre hw).next _ _ _ hstage

/-- The packets are numbered without gaps unless one is sent, and `malloc` did not leave a 0 for
the number of the first. -/
theorem numbered_iff (hp : (parseArgs prog argv).val = some p) (ht : startClient p = some t)
    (hw : w ∈ t.workers) (hr : machine.Run (new t w mem) trs th) :
    Numbered trs ↔
      (∀ tr ∈ trs, tr.input ≠ .send true) ∨ netField (mem.load 0 hdrsz) 4 4 = 0 := by
  obtain ⟨hstats, hsize⟩ := worker_settings hp ht hw
  have hmin : hdrsz ≤ w.psize.toNat := by
    rw [hsize]
    exact (by decide : hdrsz ≤ 64).trans (parseArgs_valid hp).pktsize.1
  have hstamped := stamped_run hr hstats hmin
  have hnone : (record trs).sent = 0 ↔ ∀ tr ∈ trs, tr.input ≠ .send true := by
    rw [sent_record, List.count_eq_zero]
    simp
  have hiff : Numbered trs ↔ (List.range (record trs).sent).map
      (stamp (netField (mem.load 0 hdrsz) 4 4)) =
        (List.range (record trs).sent).map (· % 2 ^ 32) := by
    rw [← hstamped.numbers, ← hstamped.length_packets]
    exact ⟨Numbered.packets, fun hpackets => ⟨hpackets, fun pre tr post he hend =>
      seq_of_ends hr hstats hmin he hend⟩⟩
  rw [hiff, ← hnone, List.map_inj_left]
  constructor
  · intro hall
    refine (Nat.eq_zero_or_pos _).imp_right fun hpos => ?_
    exact hall 0 (List.mem_range.mpr hpos)
  · rintro (hzero | hzero) k hk
    · simp [hzero] at hk
    · by_cases hk0 : k = 0
      · simp [stamp, hk0, hzero]
      · simp [stamp, hk0]

theorem dirty_accepted :
    (machine.exec (slowThread fun _ => 255) [.burst 0, .send true]).isSome := by decide +kernel

/-- Where `malloc` leaves bytes of 255, the first packet has the number 4294967295. -/
theorem first_unnumbered :
    (parseArgs ['t'] slowRate).val = some slowParam ∧ startClient slowParam = some slowClient ∧
      Sworker.new 1472 0 ∈ slowClient.workers ∧
      ∃ trs th, machine.Run (new slowClient (Sworker.new 1472 0) fun _ => 255) trs th ∧
        (packets trs).map (fun d => netField d 4 4) = [4294967295] ∧ ¬ Numbered trs := by
  have hnumbers : (packets (Option.get _ dirty_accepted).1).map (fun d => netField d 4 4) =
      [4294967295] := by
    decide +kernel
  refine ⟨(Option.some_get _).symm, (Option.some_get _).symm, mem_slowClient, _, _,
    Machine.exec_get_run dirty_accepted, hnumbers, fun hnumbered => ?_⟩
  have hone := congrArg List.length hnumbers
  rw [List.length_map] at hone
  have hpackets := hnumbered.packets
  rw [hnumbers, hone] at hpackets
  exact absurd hpackets (by decide)

theorem numbered_iff_threeBursts :
    ∃ trs th, machine.exec (slowThread fun _ => 0) threeBursts = some (trs, th) ∧
      (Numbered trs ↔ (∀ tr ∈ trs, tr.input ≠ .send true) ∨
        netField (Buf.load (fun _ => 0) 0 hdrsz) 4 4 = 0) :=
  ⟨_, _, (Option.some_get threeBursts_accepted).symm,
    numbered_iff (Option.some_get slowRate_accepted).symm (Option.some_get slowParam_started).symm
      mem_slowClient (Machine.exec_get_run threeBursts_accepted)⟩

end TcpEyenet.Ttest.Thread
