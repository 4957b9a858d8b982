import TcpEyenet.Lib.Rounding
import TcpEyenet.Transport.Pacing

/-! The sender with the results of its operations on `double_t` rounded. -/
namespace TcpEyenet

open TcpTransport Traced Event Round

/-- The nearest `double_t`. Nothing is too great for one here. -/
def roundDouble : ℚ → ℚ := Rounding.nearest 53 (-1074)

theorem mkRat_two_pow (a : ℤ) (k : ℕ) : mkRat a (2 ^ k) = a * 2 ^ (-k : ℤ) := by
  rw [Rat.mkRat_eq_div, zpow_neg, zpow_natCast, ← div_eq_mul_inv]
  push_cast
  rfl

theorem mkRat_mul_two_pow (a e k : ℕ) :
    mkRat ((a * 2 ^ e : ℕ) : ℤ) (2 ^ k) = (a : ℤ) * 2 ^ (e - k : ℤ) := by
  rw [mkRat_two_pow, sub_eq_add_neg, zpow_add₀ two_ne_zero, zpow_natCast]
  push_cast
  ring

theorem Double.val_digits (d : Double) :
    ∃ n k : ℤ, |n| < 2 ^ 53 ∧ -1074 ≤ k ∧ (d.val = n * 2 ^ k ∨ d.val = -(n * 2 ^ k)) := by
  have hm : d.bits.toNat % 2 ^ 52 < 2 ^ 52 := Nat.mod_lt _ (Nat.two_pow_pos 52)
  simp only [Double.val]
  generalize d.bits.toNat % 2 ^ 52 = m at hm
  generalize d.bits.toNat / 2 ^ 52 % 2 ^ 11 = e
  by_cases he : e = 0
  · refine ⟨m, -1074, by rw [Nat.abs_cast]; omega, le_rfl, ?_⟩
    rw [if_pos he, mkRat_two_pow]
    split_ifs
    · exact .inr rfl
    · exact .inl rfl
  by_cases hfin : e < 2047
  · refine ⟨(2 ^ 52 + m : ℕ), e - 1075, by rw [Nat.abs_cast]; omega, by omega, ?_⟩
    rw [if_neg he, if_pos hfin, mkRat_mul_two_pow]
    split_ifs
    · exact .inr rfl
    · exact .inl rfl
  · refine ⟨0, 0, by decide, by decide, .inl ?_⟩
    simp [he, hfin]

theorem Double.val_fits (d : Double) : Rounding.Fits 53 (-1074) d.val := by
  obtain ⟨n, k, hn, hk, hval | hval⟩ := d.val_digits
  · rw [hval]
    exact Rounding.fits_of_digits hk hn
  · have hneg : d.val = (-n : ℤ) * 2 ^ k := by
      rw [hval]
      push_cast
      ring
    rw [hneg]
    exact Rounding.fits_of_digits hk (by rwa [abs_neg])

/-- A `double_t` is its own nearest. -/
theorem Double.round_val (d : Double) : roundDouble d.val = d.val := d.val_fits.nearest_eq

namespace Rounded

variable {T : Type} [Controller T] (fl : ℚ → ℚ)

def greet (buf : Buf) (lastSTs : ℚ) (c : Double) : Traced Event (Buf × ℚ) :=
  if lastSTs < fl (c.val - 200) then
    let buf := buf.store 0 hello.bytes
    ⟨(buf, c.val), [datagram (buf.load 0 (hdrSz * 2))]⟩
  else pure (buf, lastSTs)

def shake (tcp : TcpTransport T) (call : Call) (buf : Buf) (lastSTs : ℚ) (c : Double)
    (out : Recv) : Traced Event (Sender T) := do
  let g ← greet fl buf lastSTs c
  report (poll 200)
  let r := (recvData pktSz out g.1).val
  if r.rc ≠ 0 ∧ (PacketHeader.read r.buf).isHello then pure ⟨tcp, .connected call⟩
  else pure ⟨tcp, .shaking call r.buf g.2⟩

def giveUp (tcp : TcpTransport T) (l : Locals) : Traced Event (TcpTransport T) :=
  if fl (l.currTs.val - tcp.lastAckTs) > 2000 then do
    report (setTs l.currTs.val)
    report initialise
    pure
      { tcp with
        cong := Controller.initialise (Controller.setTs tcp.cong l.currTs.val)
        largestAck := l.seqNum - 1
        lastSTs := l.currTs.val
        lastAckTs := l.currTs.val }
  else pure tcp

def enter (tcp : TcpTransport T) (l : Locals) (c : Double) : Traced Event (Sender T) := do
  let l := { l with currTs := c }
  let tcp ← giveUp fl tcp l
  pure ⟨tcp, .sending l⟩

def finish (tcp : TcpTransport T) (c : Double) : Traced Event (Sender T) := do
  report (setTs c.val)
  report close
  let cong := Controller.close (Controller.setTs tcp.cong c.val)
  let tcp := { tcp with cong := cong, transTimeAggr := fl (tcp.transTimeAggr + c.val) }
  report (divisor (fl (tcp.transTimeAggr / 1000)))
  report (divisor tcp.npkts)
  report (stats (fl (tcp.nbytes.toInt / fl (tcp.transTimeAggr / 1000)))
    (fl (tcp.delayAggr / tcp.npkts)))
  pure ⟨tcp, .idle⟩

/-- `last_s_ts + cong.intersend * bn_train`. -/
def due (tcp : TcpTransport T) : ℚ :=
  fl (tcp.lastSTs + fl (Controller.intersend tcp.cong * tcp.bnTrain))

def windowOpen (tcp : TcpTransport T) (l : Locals) : Bool :=
  l.seqNum < fl (fl (tcp.largestAck + Controller.cwnd tcp.cong) + 1) ∧ due fl tcp ≤ l.currTs.val

def test (tcp : TcpTransport T) (l : Locals) : Traced Event (Option Bool) :=
  if windowOpen fl tcp l then pure (some true)
  else do
    let r ← rem l.seqNum tcp.bnTrain
    pure (r.map fun r => r ≠ 0)

def spend (tcp : TcpTransport T) : TcpTransport T :=
  { tcp with lastSTs := fl (tcp.lastSTs + Controller.intersend tcp.cong) }

def sendOne (tcp : TcpTransport T) (l : Locals) : Traced Event (Sender T) := do
  let hdr := createHeader l.seqNum l.call.fid l.call.sid l.currTs
  let l := { l with buf := l.buf.store 0 hdr.bytes }
  report (datagram (l.buf.load 0 pktSz))
  let r ← rem l.seqNum tcp.bnTrain
  match r with
  | none => pure ⟨spend fl tcp, .dead⟩
  | some _ => do
    let tcp ← (spend fl tcp).record l
    pure (tcp.advance l)

def trySend (tcp : TcpTransport T) (l : Locals) : Option (Traced Event (Sender T)) :=
  let t := test fl tcp l
  match t.val with
  | none => some ⟨⟨tcp, .dead⟩, t.log⟩
  | some true => some ⟨(sendOne fl tcp l).val, t.log ++ (sendOne fl tcp l).log⟩
  | some false => none

def snap (tcp : TcpTransport T) (l : Locals) : TcpTransport T :=
  if fl (l.currTs.val - tcp.lastSTs) ≥ fl (Controller.intersend tcp.cong * tcp.bnTrain) ∨
      l.seqNum ≥ fl (tcp.largestAck + Controller.cwnd tcp.cong)
  then { tcp with lastSTs := l.currTs.val } else tcp

def timeout (tcp : TcpTransport T) (c : Double) : ℚ :=
  if Controller.cwnd tcp.cong > 0 then min 1000 (fl (due fl tcp - c.val))
  else fl (tcp.lastSTs + 1000)

def idleTick (tcp : TcpTransport T) (l : Locals) (c : Double) : Traced Event (Sender T) :=
  let l := { l with currTs := c }
  if c.val > fl (tcp.lastSTs + Controller.rto tcp.cong) then do
    report onTo
    pure ⟨tcp.setCong (Controller.onTo tcp.cong), .top l⟩
  else pure ⟨tcp, .top l⟩

def rate (rateEst : ℚ) : Option ℚ := if rateEst = 0 then none else some (fl (1000 / rateEst))

/-- `1 - ALPHA` and `ALPHA` are exact. -/
def smoothRate (rateEst gap : ℚ) : ℚ :=
  if rateEst = 0 then gap else fl (fl ((1 - 1 / 16) * rateEst) + fl (1 / 16 * gap))

def estimateRate (tcp : TcpTransport T) (l : Locals) (seq : ℤ) :
    Traced Event (TcpTransport T × ℚ) :=
  if seq * tcp.bnTrain ≠ 0 ∧ tcp.lastRTs ≠ 0 then
    let rateEst := smoothRate fl l.rateEst (fl (l.currTs.val - tcp.lastRTs))
    if seq + 1 > 2 * tcp.bnTrain then do
      report (divisor rateEst)
      report (onRateEst (rate fl rateEst))
      pure (tcp.setCong (Controller.onRateEst tcp.cong (rate fl rateEst)), rateEst)
    else pure (tcp, rateEst)
  else pure (tcp, l.rateEst)

def credit (tcp : TcpTransport T) (h : PacketHeader) (c : Double) : TcpTransport T :=
  { tcp with
    lastRTs := c.val
    delayAggr := fl (tcp.delayAggr + fl (c.val - h.sendTs.val))
    nbytes := tcp.nbytes + Int32.ofNat payload
    npkts := tcp.npkts + 1 }

def accept (tcp : TcpTransport T) (l : Locals) (h : PacketHeader) : Traced Event (Sender T) := do
  let seq := h.seqNum.toInt
  let r ← estimateRate fl (tcp.heard l.currTs) l seq
  let credited := credit fl r.1 h l.currTs
  let delivered ← credited.deliver h l.currTs
  match delivered with
  | none => pure ⟨credited, .dead⟩
  | some tcp => pure ⟨tcp.raiseAck seq, .top { l with rateEst := r.2 }⟩

def receive (tcp : TcpTransport T) (l : Locals) (c₂ : Double) (out : Recv) (c₃ : Double) :
    Traced Event (Sender T) := do
  let tcp := snap fl tcp l
  report (poll (truncate (timeout fl tcp c₂)))
  let r := (recvData pktSz out l.buf).val
  let l := { l with buf := r.buf, currTs := c₂ }
  if r.rc = 0 then idleTick fl tcp l c₃
  else
    let h := PacketHeader.read r.buf
    if l.call.accepts h then accept fl tcp { l with currTs := c₃ } h
    else pure ⟨tcp, .top l⟩

def tryReceive (tcp : TcpTransport T) (l : Locals) (c₂ : Double) (out : Recv) (c₃ : Double) :
    Option (Traced Event (Sender T)) :=
  let t := test fl tcp l
  if t.val = some false then
    some ⟨(receive fl tcp l c₂ out c₃).val, t.log ++ (receive fl tcp l c₂ out c₃).log⟩
  else none

def step (s : Sender T) (i : Input Recv) : Option (Traced Event (Sender T)) :=
  match s.phase, i with
  | .idle, .sendData call =>
    some (pure ⟨{ s.tcp with largestAck := -1 }, .shaking call freshBuf (-10 ^ 9)⟩)
  | .shaking call buf lastSTs, .handshake c out => some (shake fl s.tcp call buf lastSTs c out)
  | .connected call, .start t₀ t₁ => some (s.tcp.start call t₀ t₁)
  | .top l, .top c =>
    some (if s.tcp.switchSz l < l.call.fsz then enter fl s.tcp l c else finish fl s.tcp c)
  | .sending l, .send => trySend fl s.tcp l
  | .sending l, .recv c₂ out c₃ => tryReceive fl s.tcp l c₂ out c₃
  | _, _ => none

def machine : Machine (Sender T) (Input Recv) Event := ⟨step fl⟩

variable {fl} {tcp : TcpTransport T} {l : Locals} {c c₂ c₃ : Double} {out : Recv}

theorem snap_id : snap id tcp l = tcp.snap l := rfl

theorem timeout_id : timeout id tcp c = tcp.timeout c := rfl

theorem idleTick_id : idleTick id tcp l c = tcp.idleTick l c := rfl

theorem accept_id {h : PacketHeader} : accept id tcp l h = tcp.accept l h := rfl

theorem receive_id : receive id tcp l c₂ out c₃ = tcp.receive l c₂ out c₃ := by
  simp only [receive, TcpTransport.receive, snap_id, timeout_id, idleTick_id, accept_id]

theorem test_id : test id tcp l = tcp.test l := rfl

/-- Without the rounding it is the sender in exact arithmetic. -/
theorem machine_id : machine (T := T) id = Sender.machine := by
  have hstep : step (T := T) id = Sender.step := by
    funext s i
    obtain ⟨tcp, phase⟩ := s
    cases phase <;> cases i
    case sending.recv l c₂ out c₃ =>
      simp only [step, Sender.step, tryReceive, TcpTransport.tryReceive, test_id, receive_id]
    all_goals rfl
  rw [machine, hstep]
  rfl

/-- The rounding loses a price of less than half the spacing at the last send. -/
theorem price_lost (hmark : tcp.lastSTs = c.val) (hc : 0 < c.val)
    (hpos : 0 ≤ Controller.intersend tcp.cong)
    (hlt : Controller.intersend tcp.cong < Rounding.ulp 53 (-1074) c.val / 2) :
    roundDouble (tcp.lastSTs + Controller.intersend tcp.cong) = tcp.lastSTs := by
  rw [hmark]
  exact c.val_fits.nearest_add hc hpos hlt

theorem sendOne_of_ne (hbn : tcp.bnTrain ≠ 0) : (sendOne fl tcp l).val =
    ((spend fl tcp).record l).val.advance { l with buf := stamped l } := by
  simp [sendOne, rem, hbn]
  rfl

/-- What is recorded of a packet leaves the window and the spacing of the controller alone. -/
def Steady (T : Type) [Controller T] : Prop :=
  ∀ (cong : T) (ts : ℚ) (q : ℤ),
    Controller.cwnd (Controller.onPktSent (Controller.setTs cong ts) q) = Controller.cwnd cong ∧
      Controller.intersend (Controller.onPktSent (Controller.setTs cong ts) q) =
        Controller.intersend cong

theorem record_steady (hT : Steady T) (tcp : TcpTransport T) (l : Locals) :
    ∃ cong, (tcp.record l).val = tcp.setCong cong ∧
      Controller.cwnd cong = Controller.cwnd tcp.cong ∧
      Controller.intersend cong = Controller.intersend tcp.cong := by
  unfold record
  split_ifs
  · exact ⟨_, rfl, hT _ _ _⟩
  · exact ⟨tcp.cong, rfl, rfl, rfl⟩

/-- One packet leaves, and the mark stays. -/
theorem lost_step (hT : Steady T) (hbn : tcp.bnTrain ≠ 0)
    (hlost : fl (tcp.lastSTs + Controller.intersend tcp.cong) = tcp.lastSTs)
    (hopen : windowOpen fl tcp l = true) (hint : l.seqNum < 2 ^ 31 - 1) :
    ∃ cong log, Controller.cwnd cong = Controller.cwnd tcp.cong ∧
      Controller.intersend cong = Controller.intersend tcp.cong ∧
      (machine fl).step ⟨tcp, .sending l⟩ .send =
        some ⟨⟨tcp.setCong cong,
          .sending { l with buf := stamped l, seqNum := l.seqNum + 1 }⟩, log⟩ := by
  obtain ⟨cong, hcong, hcwnd, hintersend⟩ := record_steady hT tcp l
  have hval : (sendOne fl tcp l).val =
      ⟨tcp.setCong cong, .sending { l with buf := stamped l, seqNum := l.seqNum + 1 }⟩ := by
    rw [sendOne_of_ne hbn, spend, hlost, hcong, advance, if_pos hint]
  refine ⟨cong, (test fl tcp l).log ++ (sendOne fl tcp l).log, hcwnd, hintersend, ?_⟩
  simp only [machine, step, trySend, test, hopen, if_true, pure_val, hval]

/-- Where the rounding loses the price, all that the window takes leaves at one reading. -/
theorem lost_price {y : Round ℚ} {rs : List (Round ℚ)} (hT : Steady T) (hbn : tcp.bnTrain ≠ 0)
    (hlost : fl (tcp.lastSTs + Controller.intersend tcp.cong) = tcp.lastSTs)
    (hdue : due fl tcp ≤ l.currTs.val) {n : ℕ}
    (hwin : (l.seqNum + n : ℚ) ≤ fl (fl (tcp.largestAck + Controller.cwnd tcp.cong) + 1))
    (hint : l.seqNum + n < 2 ^ 31) :
    ∃ trs tcp' l', (machine fl).Run ⟨tcp, .sending l⟩ trs ⟨tcp', .sending l'⟩ ∧
      l'.seqNum = l.seqNum + n ∧
      trs.foldl (fun rs tr => nextRounds rs tr.src tr.input) (y :: rs) =
        { y with spent := y.spent + n * Controller.intersend tcp.cong } :: rs := by
  induction n generalizing tcp l y with
  | zero => exact ⟨[], tcp, l, .refl, by simp, by simp⟩
  | succ n ih =>
    push_cast at hwin hint
    have hn : (0 : ℚ) ≤ n := n.cast_nonneg
    have hopen : windowOpen fl tcp l = true := by
      rw [windowOpen, decide_eq_true_eq]
      exact ⟨by linarith, hdue⟩
    obtain ⟨cong, log, hcwnd, hintersend, hstep⟩ :=
      lost_step hT hbn hlost hopen (by omega)
    have ht : (machine fl).Takes ⟨⟨tcp, .sending l⟩, .send, log, ⟨tcp.setCong cong,
        .sending { l with buf := stamped l, seqNum := l.seqNum + 1 }⟩⟩ := hstep
    obtain ⟨trs, tcp', l', hr, hseq, hrounds⟩ := @ih (tcp.setCong cong)
      { l with buf := stamped l, seqNum := l.seqNum + 1 }
      { y with spent := y.spent + Controller.intersend tcp.cong } hbn
      (by simpa only [setCong, hintersend] using hlost)
      (by simpa only [due, setCong, hintersend] using hdue)
      (by simp only [setCong, hcwnd]; push_cast; linarith)
      (by dsimp only; omega)
    refine ⟨_, tcp', l', Machine.Run.cons ht hr, ?_, ?_⟩
    · rw [hseq]
      push_cast
      ring
    · have hnext : nextRounds (y :: rs) ⟨tcp, .sending l⟩ .send =
          { y with spent := y.spent + Controller.intersend tcp.cong } :: rs := rfl
      rw [List.foldl_cons, hnext, hrounds, setCong, hintersend]
      push_cast
      ring_nf

/-- An iteration at the reading of the one before it overflows the bucket where the rounding loses
the price and the window takes more than a train. -/
theorem bucket_overflows {s₀ : Sender T} {trs : List (Action T)} {x y : Round ℚ}
    {rs : List (Round ℚ)} (hT : Steady T) (hr : (machine roundDouble).Run s₀ trs ⟨tcp, .sending l⟩)
    (hrounds : rounds trs = y :: x :: rs) (hclock : y.clock = x.clock) (hspent : y.spent = 0)
    (hprice : x.price = Controller.intersend tcp.cong) (hbn : 1 ≤ tcp.bnTrain)
    (hmark : tcp.lastSTs = l.currTs.val) (hts : 0 < l.currTs.val)
    (hdue : due roundDouble tcp ≤ l.currTs.val) (hpos : 0 < Controller.intersend tcp.cong)
    (hlt : Controller.intersend tcp.cong < Rounding.ulp 53 (-1074) l.currTs.val / 2) {n : ℕ}
    (hn : tcp.bnTrain < n) (hwin : (l.seqNum + n : ℚ) ≤
      roundDouble (roundDouble (tcp.largestAck + Controller.cwnd tcp.cong) + 1))
    (hint : l.seqNum + n < 2 ^ 31) :
    ∃ trs' s, (machine roundDouble).Run s₀ (trs ++ trs') s ∧
      ¬ TokenBucket (tcp.bnTrain : ℚ) (rounds (trs ++ trs')) := by
  have hlost := price_lost hmark hts hpos.le hlt
  obtain ⟨trs', tcp', l', hr', -, hnext⟩ :=
    lost_price hT (by omega) hlost hdue hwin hint
  refine ⟨trs', _, hr.append hr', fun hbucket => ?_⟩
  have hall : rounds (trs ++ trs') =
      [] ++ { y with spent := y.spent + n * Controller.intersend tcp.cong } :: ([] ++ x :: rs) := by
    rw [rounds, List.foldl_append, ← rounds, hrounds, hnext]
    rfl
  have hspend := hbucket _ _ _ _ _ hall
  simp only [total, List.map_cons, List.map_nil, List.sum_cons, List.sum_nil, hspent, hprice,
    hclock] at hspend
  have hle : (n : ℚ) * Controller.intersend tcp.cong ≤
      tcp.bnTrain * Controller.intersend tcp.cong := by linarith
  have hn' : (tcp.bnTrain : ℚ) < n := by exact_mod_cast hn
  exact absurd (le_of_mul_le_mul_right hle hpos) hn'.not_ge

/-- A call of single packets at one reading of the clock. Packet 0 is acked, then two are sent. -/
def oneReading : List (Input Recv) :=
  [.sendData ⟨10000, false, 1, 7⟩, .handshake ⟨0⟩ (.datagram hello.bytes),
    .start eightSec eightSec, .top eightSec, .send, .recv eightSec (echo 0) eightSec,
    .top eightSec, .send, .send, .recv eightSec .timeout eightSec]

theorem oneReading_accepted : ((machine roundDouble).exec
    ⟨.new (⟨1, 1 / 2 ^ 41⟩ : FixedRate) 1, .idle⟩ oneReading).isSome := by
  decide +kernel

/-- The packets are 2⁻⁴¹ ms apart, which is lost next to 8192 ms, and what the second iteration
spends is more than a train. -/
theorem pacing_lost :
    ∃ trs s, (machine roundDouble).Run ⟨.new (⟨1, 1 / 2 ^ 41⟩ : FixedRate) 1, .idle⟩ trs s ∧
      (∀ tr ∈ trs, Forward tr.src tr.input) ∧
      (∀ tr ∈ trs, 0 ≤ Controller.intersend tr.src.tcp.cong ∧
        Controller.intersend tr.dst.tcp.cong = Controller.intersend tr.src.tcp.cong) ∧
      ¬ TokenBucket 1 (rounds trs) := by
  have hrounds : rounds (Option.get _ oneReading_accepted).1 =
      [⟨8192, 2 / 2 ^ 41, 1 / 2 ^ 41⟩, ⟨8192, 1 / 2 ^ 41, 1 / 2 ^ 41⟩] := by
    decide +kernel
  have hfwd : ∀ tr ∈ (Option.get _ oneReading_accepted).1, Forward tr.src tr.input := by
    decide +kernel
  have hkeep : ∀ tr ∈ (Option.get _ oneReading_accepted).1,
      0 ≤ Controller.intersend tr.src.tcp.cong ∧
        Controller.intersend tr.dst.tcp.cong = Controller.intersend tr.src.tcp.cong := by
    decide +kernel
  refine ⟨_, _, Machine.exec_get_run oneReading_accepted, hfwd, hkeep, fun hbucket => ?_⟩
  have hspend := hbucket [] _ [] _ [] hrounds
  norm_num [total] at hspend

end Rounded

end TcpEyenet
