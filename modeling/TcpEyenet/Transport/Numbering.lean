import TcpEyenet.Controller.Accounts
import TcpEyenet.Transport.Model

/-! How the two ends of a flow number its trains. -/
namespace TcpEyenet

open TcpTransport

variable {bn q k : ℤ} {tcp : TcpTransport Eyenet} {l : Locals}

/-- The key under which a packet is recorded, if it is. -/
theorem record_key : .onPktSent k ∈ (tcp.record l).log ↔
    l.seqNum.tmod tcp.bnTrain = 0 ∧ k = trainIndex l.seqNum tcp.bnTrain := by
  unfold record
  split_ifs with h
  · simp [h]
  · simp [h]

/-- The packet `q` is recorded under the key its ack looks up; so the ack of a recorded train takes
out that train and leaves the later ones. -/
def NumberedAlike (bn q : ℤ) : Prop :=
  ∀ (tcp : TcpTransport Eyenet) (l : Locals) (k : ℤ), tcp.bnTrain = bn → l.seqNum = q →
    .onPktSent k ∈ (tcp.record l).log →
      k = ackIndex q bn - 1 ∧
      ∀ δ u trs e recvTs sendTs e', Eyenet.machine.Run (Eyenet.newWith δ u) trs e →
        (∀ pre ∈ trs.inits, Eyenet.Rising pre) → k ∈ e.unackedPkts →
        (e.onAck (ackIndex q bn) recvTs sendTs).val = .ok e' →
          e'.unackedPkts[k]? = none ∧ ∀ j, k < j → e'.unackedPkts[j]? = e.unackedPkts[j]?

/-- An increment before the division only carries over where every packet is a train. -/
theorem trainIndex_eq_iff (hbn : 1 ≤ bn) (hq : 0 ≤ q) (hlead : q.tmod bn = 0) :
    trainIndex q bn = ackIndex q bn - 1 ↔ bn = 1 := by
  obtain ⟨m, rfl⟩ := Int.dvd_of_tmod_eq_zero hlead
  have hnum : trainIndex (bn * m) bn = m := Int.mul_tdiv_cancel_left m (by omega)
  have hack : ackIndex (bn * m) bn = 1 / bn + m := by
    rw [ackIndex, Int.tdiv_eq_ediv_of_nonneg (by omega), add_comm,
      Int.add_mul_ediv_left _ _ (by omega)]
  rw [hnum, hack]
  constructor
  · intro h
    by_contra hne
    rw [Int.ediv_eq_zero_of_lt (by omega) (by omega)] at h
    omega
  · rintro rfl
    simp

/-- A call about to send packet `q`. -/
def atPacket (q : ℤ) : Locals :=
  { call := ⟨0, true, 0, 0⟩
    buf := freshBuf
    seqNum := q
    currTs := ⟨0⟩
    rateEst := 0 }

theorem NumberedAlike.key (h : NumberedAlike bn q) (hlead : q.tmod bn = 0) :
    trainIndex q bn = ackIndex q bn - 1 :=
  (h (new (Eyenet.new 1) bn) (atPacket q) _ rfl rfl (record_key.mpr ⟨hlead, rfl⟩)).1

/-- The trains are numbered alike only if every packet is a train. -/
theorem numbered_alike_iff (hbn : 1 ≤ bn) (hq : 0 ≤ q) (hlead : q.tmod bn = 0) :
    NumberedAlike bn q ↔ bn = 1 := by
  constructor
  · intro h
    exact (trainIndex_eq_iff hbn hq hlead).mp (h.key hlead)
  · rintro hone tcp l k rfl rfl hk
    obtain ⟨-, rfl⟩ := record_key.mp hk
    have hkey := (trainIndex_eq_iff hbn hq hlead).mpr hone
    refine ⟨hkey, ?_⟩
    intro δ u trs e recvTs sendTs e' hr hup hin he'
    rw [hkey] at hin ⊢
    obtain ⟨hmap, -⟩ := (Eyenet.onAck_acknowledges (Eyenet.books_run hr hup).nonneg he').known hin
    constructor
    · rw [hmap, if_pos le_rfl]
    · intro j hj
      rw [hmap, if_neg (not_le.mpr hj)]

/-- With trains of two packets the ack of the train that packet 4 leads looks for the one before. -/
theorem numbered_apart : ¬ NumberedAlike 2 4 := by
  intro h
  exact absurd (h.key rfl) (by decide)

theorem numbered_alike_iff_two : NumberedAlike 2 4 ↔ (2 : ℤ) = 1 :=
  numbered_alike_iff (by decide) (by decide) (by decide)

end TcpEyenet
