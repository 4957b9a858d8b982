import TcpEyenet.Lib.Bucket
import TcpEyenet.Transport.Acks

/-! The pacing of the packets of a call. -/
namespace TcpEyenet

open TcpTransport Round

variable {T : Type} [Controller T] {tcp : TcpTransport T} {s : Sender T} {i : Input Recv}
  {trs : List (Action T)} {l : Locals} {rs : List (Round ℚ)} {y : Round ℚ}

/-- An iteration is a round that begins with a reading of the clock and pays `intersend` for
every packet. The price is the one at the end of its inner loop. -/
def nextRounds (rs : List (Round ℚ)) (s : Sender T) (i : Input Recv) : List (Round ℚ) :=
  match s.phase, i with
  | _, .sendData _ => []
  | .top l, .top c => if s.tcp.switchSz l < l.call.fsz then ⟨c.val, 0, 0⟩ :: rs else rs
  | .sending _, .send =>
    rs.modifyHead fun y => { y with spent := y.spent + Controller.intersend s.tcp.cong }
  | .sending _, .recv _ _ _ =>
    rs.modifyHead fun y => { y with price := Controller.intersend s.tcp.cong }
  | _, _ => rs

/-- The iterations of the latest call, the newest first. -/
def rounds (trs : List (Action T)) : List (Round ℚ) :=
  trs.foldl (fun rs tr => nextRounds rs tr.src tr.input) []

/-- The last reading of the clock in the loop of `send_data`. -/
def lastReading (s : Sender T) : Option ℚ :=
  match s.phase with
  | .top l => some l.currTs.val
  | .sending l => some l.currTs.val
  | _ => none

/-- No reading of the clock is less than the one before it. -/
def Forward (s : Sender T) (i : Input Recv) : Prop :=
  ((lastReading s).toList ++ i.readings).Pairwise (· ≤ ·)

instance (s : Sender T) (i : Input Recv) : Decidable (Forward s i) :=
  inferInstanceAs (Decidable (List.Pairwise _ _))

/-- What ties `last_s_ts` to the clock. In the inner loop the packets that are left of the train
are still to be paid for. -/
inductive Stage : List (Round ℚ) → Sender T → Prop
  | idle (rs : List (Round ℚ)) (tcp : TcpTransport T) : Stage rs ⟨tcp, .idle⟩
  | dead (rs : List (Round ℚ)) (tcp : TcpTransport T) : Stage rs ⟨tcp, .dead⟩
  | shaking (tcp : TcpTransport T) (call : Call) (buf : Buf) (lastSTs : ℚ) :
      Stage [] ⟨tcp, .shaking call buf lastSTs⟩
  | connected (tcp : TcpTransport T) (call : Call) : Stage [] ⟨tcp, .connected call⟩
  | top {rs : List (Round ℚ)} {tcp : TcpTransport T} {l : Locals}
      (hc : Covered (tcp.bnTrain : ℚ) tcp.lastSTs rs) (hle : tcp.lastSTs ≤ l.currTs.val)
      (hseq : tcp.bnTrain ∣ l.seqNum) : Stage rs ⟨tcp, .top l⟩
  | sending {y : Round ℚ} {rs : List (Round ℚ)} {tcp : TcpTransport T} {l : Locals}
      (hc : Covered (tcp.bnTrain : ℚ) (tcp.lastSTs - y.spent) rs)
      (hclock : y.clock = l.currTs.val)
      (hleft : tcp.lastSTs + Controller.intersend tcp.cong * ((-l.seqNum % tcp.bnTrain : ℤ) : ℚ) ≤
        l.currTs.val) : Stage (y :: rs) ⟨tcp, .sending l⟩

theorem rounds_nil : rounds ([] : List (Action T)) = [] := rfl

@[simp] theorem rounds_concat {tr : Action T} :
    rounds (trs ++ [tr]) = nextRounds (rounds trs) tr.src tr.input := by
  simp [rounds]

theorem sub_one_emod {a b : ℤ} (hb : 0 < b) :
    (a - 1) % b = if b ∣ a then b - 1 else a % b - 1 := by
  have hlt := Int.emod_lt_of_pos a hb
  have hnn := Int.emod_nonneg a hb.ne'
  have ha : a - 1 = a % b - 1 + b * (a / b) := by
    have hdiv := Int.emod_add_mul_ediv a b
    omega
  split_ifs with hd
  · have hz : a % b = 0 := Int.emod_eq_zero_of_dvd hd
    have hsum : a - 1 = b - 1 + b * (a / b - 1) := by
      rw [ha, hz]
      ring
    rw [hsum, Int.add_mul_emod_self_left]
    exact Int.emod_eq_of_lt (by omega) (by omega)
  · have hz : a % b ≠ 0 := fun hz => hd (Int.dvd_of_emod_eq_zero hz)
    rw [ha, Int.add_mul_emod_self_left]
    exact Int.emod_eq_of_lt (by omega) (by omega)

/-- A packet is paid for within the credit that was there before its train. -/
theorem spend_left (hbn : 1 ≤ tcp.bnTrain) (ht : (tcp.test l).val = some true)
    (hleft : tcp.lastSTs + Controller.intersend tcp.cong * ((-l.seqNum % tcp.bnTrain : ℤ) : ℚ) ≤
      l.currTs.val) :
    tcp.lastSTs + Controller.intersend tcp.cong +
      Controller.intersend tcp.cong * ((-(l.seqNum + 1) % tcp.bnTrain : ℤ) : ℚ) ≤ l.currTs.val := by
  have hstep : -(l.seqNum + 1) % tcp.bnTrain =
      if tcp.bnTrain ∣ l.seqNum then tcp.bnTrain - 1 else -l.seqNum % tcp.bnTrain - 1 := by
    rw [neg_add', sub_one_emod (by omega)]
    simp only [dvd_neg]
  rw [hstep]
  split_ifs with hd
  · rcases test_eq_true ht with hopen | ⟨-, hmod⟩
    · simp only [windowOpen, decide_eq_true_eq] at hopen
      push_cast
      linarith [hopen.2]
    · exact absurd (Int.tmod_eq_zero_of_dvd hd) hmod
  · push_cast
    linarith

/-- Past the inner loop the train is complete. -/
theorem dvd_of_test (ht : (tcp.test l).val = some false) : tcp.bnTrain ∣ l.seqNum :=
  Int.dvd_of_tmod_eq_zero (test_eq_false ht).2.2

/-- After the inner loop the last send is neither past the clock nor a train behind it. -/
theorem snap_bounds (hle : tcp.lastSTs ≤ l.currTs.val)
    (hpos : 0 ≤ Controller.intersend tcp.cong * tcp.bnTrain) :
    tcp.lastSTs ≤ (tcp.snap l).lastSTs ∧ (tcp.snap l).lastSTs ≤ l.currTs.val ∧
      l.currTs.val - tcp.bnTrain * Controller.intersend tcp.cong ≤ (tcp.snap l).lastSTs := by
  unfold snap
  split_ifs with hif
  · exact ⟨hle, le_rfl, by linarith⟩
  · rw [not_or] at hif
    exact ⟨le_rfl, hle, by linarith [hif.1]⟩

theorem giveUp_lastSTs (tcp : TcpTransport T) (l : Locals) :
    (tcp.giveUp l).val.lastSTs = tcp.lastSTs ∨
    (tcp.giveUp l).val.lastSTs = l.currTs.val := by
  unfold giveUp
  split_ifs
  · exact .inr rfl
  · exact .inl rfl

/-- The rounds stay within their bucket, and the sender at its stage. -/
def Paced (rs : List (Round ℚ)) (s : Sender T) : Prop :=
  TokenBucket (s.tcp.bnTrain : ℚ) rs ∧ Stage rs s

theorem enter_paced {c : Double} (h : Paced rs ⟨tcp, .top l⟩) (hc : l.currTs.val ≤ c.val) :
    Paced (⟨c.val, 0, 0⟩ :: rs) (tcp.enter l c).val := by
  obtain ⟨hbucket, hstage⟩ := h
  cases hstage with
  | top hcov hle hseq =>
    have hval : (tcp.enter l c).val =
        ⟨(tcp.giveUp { l with currTs := c }).val, .sending { l with currTs := c }⟩ := rfl
    have hmark : tcp.lastSTs ≤ (tcp.giveUp { l with currTs := c }).val.lastSTs ∧
        (tcp.giveUp { l with currTs := c }).val.lastSTs ≤ c.val := by
      rcases giveUp_lastSTs tcp { l with currTs := c } with heq | heq
      · rw [heq]
        exact ⟨le_rfl, hle.trans hc⟩
      · rw [heq]
        exact ⟨hle.trans hc, le_rfl⟩
    have hcov' : Covered (tcp.bnTrain : ℚ)
        ((tcp.giveUp { l with currTs := c }).val.lastSTs - 0) rs := by
      rw [sub_zero]
      exact hcov.mono hmark.1
    rw [hval]
    refine ⟨?_, .sending ?_ rfl ?_⟩
    · rw [giveUp_bnTrain]
      exact hbucket.cons hcov' hmark.2
    · rw [giveUp_bnTrain]
      exact hcov'
    · have hzero : -l.seqNum % tcp.bnTrain = 0 := Int.emod_eq_zero_of_dvd ((dvd_neg).mpr hseq)
      rw [giveUp_bnTrain, hzero]
      simpa using hmark.2

/-- A packet is paid for by its iteration. -/
theorem send_paced (hbn : 1 ≤ tcp.bnTrain) (h : Paced rs ⟨tcp, .sending l⟩)
    (ht : (tcp.test l).val = some true) (hpos : 0 ≤ Controller.intersend tcp.cong)
    (hkeep : Controller.intersend (tcp.sendOne l).val.tcp.cong = Controller.intersend tcp.cong) :
    Paced (rs.modifyHead fun y => { y with spent := y.spent + Controller.intersend tcp.cong })
      (tcp.sendOne l).val := by
  obtain ⟨hbucket, hstage⟩ := h
  cases hstage with
  | @sending y rs _ _ hcov hclock hleft =>
    have hleft' := spend_left hbn ht hleft
    rw [sendOne_of_ne (by omega)] at hkeep ⊢
    obtain ⟨cong, hcong⟩ := record_eq tcp.spend l
    rw [hcong, advance_tcp] at hkeep
    rw [hcong]
    have hkeep' : Controller.intersend cong = Controller.intersend tcp.cong := hkeep
    have hcov' : Covered (tcp.bnTrain : ℚ) (tcp.lastSTs + Controller.intersend tcp.cong -
        (y.spent + Controller.intersend tcp.cong)) rs := by
      rwa [add_sub_add_right_eq_sub]
    have hnn : (0 : ℚ) ≤ ((-(l.seqNum + 1) % tcp.bnTrain : ℤ) : ℚ) := by
      exact_mod_cast Int.emod_nonneg _ (by omega)
    have hmark : tcp.lastSTs + Controller.intersend tcp.cong ≤ l.currTs.val := by
      have hrest := mul_nonneg hpos hnn
      linarith
    refine ⟨?_, ?_⟩
    · rw [advance_tcp]
      exact hbucket.of_cons.cons hcov' (hmark.trans hclock.ge)
    · simp only [advance]
      split_ifs
      · refine .sending hcov' hclock ?_
        dsimp only [setCong, spend]
        rw [hkeep']
        exact hleft'
      · exact .dead _ _

/-- The receive sets the price of the iteration, and the last send is within a train of its
clock. -/
theorem receive_paced {c₂ c₃ : Double} {out : Recv} (hbn : 1 ≤ tcp.bnTrain)
    (h : Paced rs ⟨tcp, .sending l⟩) (ht : (tcp.test l).val = some false)
    (hpos : 0 ≤ Controller.intersend tcp.cong) (h₂ : l.currTs.val ≤ c₂.val)
    (h₃ : c₂.val ≤ c₃.val) :
    Paced (rs.modifyHead fun y => { y with price := Controller.intersend tcp.cong })
      (tcp.receive l c₂ out c₃).val := by
  obtain ⟨hbucket, hstage⟩ := h
  cases hstage with
  | @sending y rs _ _ hcov hclock hleft =>
    have hseq := dvd_of_test ht
    have hzero : -l.seqNum % tcp.bnTrain = 0 := Int.emod_eq_zero_of_dvd ((dvd_neg).mpr hseq)
    have hmark : tcp.lastSTs ≤ l.currTs.val := by simpa [hzero] using hleft
    have hbn' : (0 : ℚ) ≤ tcp.bnTrain := by exact_mod_cast (by omega : 0 ≤ tcp.bnTrain)
    obtain ⟨hup, hle, hdepth⟩ := snap_bounds hmark (mul_nonneg hpos hbn')
    have hbucket' : TokenBucket (tcp.bnTrain : ℚ)
        ({ y with price := Controller.intersend tcp.cong } :: rs) :=
      hbucket.of_cons.cons hcov (hmark.trans hclock.ge)
    have hcov' : Covered (tcp.bnTrain : ℚ) (tcp.snap l).lastSTs
        ({ y with price := Controller.intersend tcp.cong } :: rs) :=
      Covered.close hcov hup (by rw [hclock]; exact hdepth)
    have htop : ∀ (tcp' : TcpTransport T) (l' : Locals), tcp'.bnTrain = tcp.bnTrain →
        tcp'.lastSTs = (tcp.snap l).lastSTs → l'.seqNum = l.seqNum →
        l.currTs.val ≤ l'.currTs.val →
        Paced ({ y with price := Controller.intersend tcp.cong } :: rs) ⟨tcp', .top l'⟩ := by
      intro tcp' l' hb hlast hs hts
      refine ⟨?_, .top ?_ ?_ ?_⟩
      · rw [hb]
        exact hbucket'
      · rw [hb, hlast]
        exact hcov'
      · rw [hlast]
        exact hle.trans hts
      · rw [hb, hs]
        exact hseq
    obtain ⟨log, -, -, h | h | h⟩ := receive_cases (by omega : tcp.bnTrain ≠ 0) l c₂ out c₃
    · obtain ⟨-, cong, -, hv⟩ := h
      rw [hv]
      exact htop _ _ snap_bnTrain rfl rfl (h₂.trans h₃)
    · obtain ⟨-, -, hv⟩ := h
      rw [hv]
      exact htop _ _ snap_bnTrain rfl rfl h₂
    · obtain ⟨-, -, cong, rateEst, -, hv⟩ := h
      rw [hv]
      exact htop _ _ snap_bnTrain rfl rfl (h₂.trans h₃)

/-- A call opens with no round, a step outside its loop adds none. -/
theorem move_paced {r : Traced Event (Sender T)} (h : Move s i r) (hbn : 1 ≤ s.tcp.bnTrain)
    (hfwd : Forward s i) (hpos : 0 ≤ Controller.intersend s.tcp.cong)
    (hkeep : i = .send → Controller.intersend r.val.tcp.cong = Controller.intersend s.tcp.cong)
    (hp : Paced rs s) : Paced (nextRounds rs s i) r.val := by
  cases h with
  | sendData tcp call => exact ⟨TokenBucket.nil, .shaking _ _ _ _⟩
  | handshake tcp call buf lastSTs c out =>
    obtain ⟨hbucket, hstage⟩ := hp
    cases hstage
    simp only [nextRounds, shake, Traced.bind_val]
    split_ifs
    · exact ⟨TokenBucket.nil, .connected _ _⟩
    · exact ⟨TokenBucket.nil, .shaking _ _ _ _⟩
  | start tcp call t₀ t₁ =>
    obtain ⟨hbucket, hstage⟩ := hp
    cases hstage
    have hle : t₀.val ≤ t₁.val := by simpa [Forward, lastReading, Input.readings] using hfwd
    exact ⟨TokenBucket.nil, .top Covered.nil hle (dvd_zero _)⟩
  | enter tcp l c hsz =>
    simp only [nextRounds, if_pos hsz]
    exact enter_paced hp (by simpa [Forward, lastReading, Input.readings] using hfwd)
  | finish tcp l c hsz =>
    simp only [nextRounds, if_neg hsz]
    exact ⟨hp.1, .idle _ _⟩
  | crash tcp l hz =>
    have hz' : tcp.bnTrain = 0 := hz
    dsimp only at hbn
    omega
  | send tcp l ht => exact send_paced hbn hp ht hpos (hkeep rfl)
  | receive tcp l c₂ out c₃ ht =>
    obtain ⟨⟨h₂, -⟩, h₃⟩ : (l.currTs.val ≤ c₂.val ∧ l.currTs.val ≤ c₃.val) ∧ c₂.val ≤ c₃.val := by
      simpa [Forward, lastReading, Input.readings] using hfwd
    exact receive_paced hbn hp ht hpos h₂ h₃

/-- Between two iterations of a call no more is spent than the clock moved on, and a train. -/
theorem pacing_bucket (hbn : 1 ≤ tcp.bnTrain) (hr : Sender.machine.Run ⟨tcp, .idle⟩ trs s)
    (hfwd : ∀ tr ∈ trs, Forward tr.src tr.input)
    (hpos : ∀ tr ∈ trs, 0 ≤ Controller.intersend tr.src.tcp.cong)
    (hkeep : ∀ tr ∈ trs, tr.input = .send →
      Controller.intersend tr.dst.tcp.cong = Controller.intersend tr.src.tcp.cong) :
    TokenBucket (tcp.bnTrain : ℚ) (rounds trs) := by
  have hpaced : Paced (rounds trs) s := by
    refine hr.along (I := fun trs s => Paced (rounds trs) s) (C := fun _ tr => tr ∈ trs)
      (fun pre tr post he => by simp [he]) ?_ ?_
    · rw [rounds_nil]
      exact ⟨TokenBucket.nil, .idle _ _⟩
    · intro pre tr hpre ht hm h
      have hmove := takes_move ht
      have hbn' : 1 ≤ tr.src.tcp.bnTrain := by rwa [bnTrain_run hpre]
      rw [rounds_concat]
      exact move_paced (r := ⟨tr.dst, tr.out⟩) hmove hbn' (hfwd tr hm) (hpos tr hm) (hkeep tr hm) h
  rw [← bnTrain_run hr]
  exact hpaced.1

/-- A controller with a window and a spacing of its own, set once and for all. -/
structure FixedRate where
  cwnd : ℚ
  intersend : ℚ

instance : Controller FixedRate where
  cwnd := FixedRate.cwnd
  intersend := FixedRate.intersend
  rto _ := 1000
  setTs c _ := c
  initialise c := c
  onPktSent c _ := c
  onAck c _ _ _ := some c
  onTo c := c
  onRateEst c _ := c
  close c := c

/-- 2 ms. -/
def twoMs : Double := ⟨0x4000000000000000#64⟩

/-- Trains of two packets, a train every millisecond. -/
def twoTrains : List (Input Recv) :=
  [.sendData ⟨5000, false, 1, 7⟩, .handshake ⟨0⟩ (.datagram hello.bytes), .start ⟨0⟩ ⟨0⟩,
    .top oneMs, .send, .send, .recv oneMs .timeout twoMs,
    .top twoMs, .send, .send, .recv twoMs .timeout twoMs]

theorem twoTrains_accepted :
    (Sender.machine.exec ⟨.new (⟨4, 1 / 2⟩ : FixedRate) 2, .idle⟩ twoTrains).isSome := by
  decide +kernel

theorem pacing_bucket_twoTrains :
    ∃ trs s, Sender.machine.Run ⟨.new (⟨4, 1 / 2⟩ : FixedRate) 2, .idle⟩ trs s ∧
      rounds trs = [⟨2, 1, 1 / 2⟩, ⟨1, 1, 1 / 2⟩] ∧ TokenBucket 2 (rounds trs) := by
  have hrounds : rounds (Option.get _ twoTrains_accepted).1 =
      [⟨2, 1, 1 / 2⟩, ⟨1, 1, 1 / 2⟩] := by
    decide +kernel
  have hfwd : ∀ tr ∈ (Option.get _ twoTrains_accepted).1, Forward tr.src tr.input := by
    decide +kernel
  have hpos : ∀ tr ∈ (Option.get _ twoTrains_accepted).1,
      0 ≤ Controller.intersend tr.src.tcp.cong := by
    decide +kernel
  have hkeep : ∀ tr ∈ (Option.get _ twoTrains_accepted).1,
      Controller.intersend tr.dst.tcp.cong = Controller.intersend tr.src.tcp.cong := by
    decide +kernel
  have hbucket := pacing_bucket (by decide) (Machine.exec_get_run twoTrains_accepted) hfwd hpos
    fun tr hm _ => hkeep tr hm
  exact ⟨_, _, Machine.exec_get_run twoTrains_accepted, hrounds, by exact_mod_cast hbucket⟩

end TcpEyenet
