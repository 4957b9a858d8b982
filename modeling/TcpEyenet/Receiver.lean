import TcpEyenet.Base

/-! The receiver of vns_receiver. -/
namespace TcpEyenet

open Bytes PacketHeader

/-- `BUF_SZ` of the receiver. -/
def recvBufSz : ℕ := 15000

/-- A receive stores inside its buffer just if it does not fail and the datagram leaves room for the
byte that ends it: the terminator goes where the result of `recvfrom` says. -/
theorem stores_inside_iff (sz : ℕ) (out : Recv) (buf : Buf) :
    (∀ i ∈ (recvData sz out buf).log, 0 ≤ i ∧ i < sz) ↔
      out ≠ .recvError ∧ ∀ d, out = .datagram d → d.length < sz := by
  cases out with
  | timeout => simp [recvData]
  | pollError => simp [recvData]
  | recvError => simp [recvData]
  | datagram d =>
    have hlen : (d.take sz).length = min sz d.length := List.length_take
    simp only [recvData, hlen, List.mem_map, List.mem_range]
    constructor
    · intro hall
      have hlast : ((min sz d.length : ℕ) : ℤ) < sz := (hall _ ⟨_, Nat.lt_succ_self _, rfl⟩).2
      refine ⟨by simp, fun d' hd => ?_⟩
      rw [← Recv.datagram.inj hd]
      omega
    · rintro ⟨-, hall⟩ i ⟨j, hj, rfl⟩
      have hroom : d.length < sz := hall d rfl
      simp only [Int.ofNat_eq_natCast]
      omega

/-- A datagram that fills the buffer, and an error. -/
theorem stores_outside :
    ¬ (∀ i ∈ (recvData recvBufSz (.datagram (List.replicate recvBufSz 0)) fun _ => 0).log,
        0 ≤ i ∧ i < recvBufSz) ∧
      ¬ (∀ i ∈ (recvData recvBufSz .recvError fun _ => 0).log, 0 ≤ i ∧ i < recvBufSz) := by
  constructor
  · intro hall
    have hmem : (recvBufSz : ℤ) ∈
        (recvData recvBufSz (.datagram (List.replicate recvBufSz 0)) fun _ => 0).log := by
      simp only [recvData, List.take_replicate, List.length_replicate, min_self]
      exact List.mem_map_of_mem (List.mem_range.mpr (Nat.lt_succ_self _))
    exact lt_irrefl _ (hall _ hmem).2
  · simp [recvData]

/-- Where `recv_ts` lies in a header. -/
def recvTsOff : ℕ := 24

/-- One receive of `ack_packets`, and the ack that leaves unless the receive failed. -/
def ackPackets (buf : Buf) (out : Recv) (c : Double) : Traced (List UInt8) Buf :=
  let r := (recvData recvBufSz out buf).val
  if r.rc = -1 then pure r.buf
  else
    let buf := r.buf.store recvTsOff (doubleBytes c)
    ⟨buf, [buf.load 0 hdrSz]⟩

theorem load_store_recvTs (b : Buf) (c : Double) :
    (b.store recvTsOff (doubleBytes c)).load 0 hdrSz = b.load 0 recvTsOff ++ doubleBytes c := by
  have hlen : (doubleBytes c).length = 8 := by simp [doubleBytes]
  have hsplit : hdrSz = recvTsOff + 8 := rfl
  rw [hsplit, Buf.load_append, Buf.load_store_of_le (by omega), zero_add,
    Buf.load_store (by omega), List.take_of_length_le (by omega)]

/-- Only `recv_ts` changes in a header whose last eight bytes are overwritten. -/
theorem ofBytes_recvTs {bs : List UInt8} (h : recvTsOff ≤ bs.length) (c : Double) :
    ofBytes (bs.take recvTsOff ++ doubleBytes c) = { ofBytes bs with recvTs := c } := by
  have hlen : (bs.take recvTsOff).length = recvTsOff := by simpa using h
  have hfield : ∀ off n, off + n ≤ recvTsOff →
      field (bs.take recvTsOff ++ doubleBytes c) off n = field bs off n := by
    intro off n hle
    rw [← field_take hle, List.take_left' hlen, field_take hle]
  have hlast : field (bs.take recvTsOff ++ doubleBytes c) 24 8 = leNat (doubleBytes c) := by
    change leNat (List.take 8 (List.drop recvTsOff _)) = _
    rw [List.drop_left' hlen, List.take_of_length_le (by simp [doubleBytes])]
  simp only [ofBytes, hlast, ofNat_doubleBytes]
  rw [hfield 0 4 (by decide), hfield 4 4 (by decide), hfield 8 4 (by decide),
    hfield 16 8 (by decide)]

/-- The ack of a datagram that holds a header is that header with the time of receipt. -/
theorem ackPackets_datagram {d : List UInt8} (hd : hdrSz ≤ d.length) (buf : Buf) (c : Double) :
    ∃ ack, (ackPackets buf (.datagram d) c).log = [ack] ∧ ack.length = hdrSz ∧
      ofBytes ack = { ofBytes d with recvTs := c } := by
  have hrc : (recvData recvBufSz (.datagram d) buf).val.rc ≠ -1 := by
    change ((d.take recvBufSz).length : ℤ) ≠ -1
    omega
  have hread : PacketHeader.read (recvData recvBufSz (.datagram d) buf).val.buf = ofBytes d :=
    read_recvData (by decide) hd
  simp only [ackPackets, if_neg hrc]
  generalize (recvData recvBufSz (.datagram d) buf).val.buf = b at hread ⊢
  refine ⟨_, rfl, by simp, ?_⟩
  have htake : b.load 0 recvTsOff = (b.load 0 hdrSz).take recvTsOff := by
    rw [show hdrSz = recvTsOff + 8 from rfl, Buf.load_append, List.take_left' (by simp)]
  rw [load_store_recvTs, htake, ofBytes_recvTs (by simp [hdrSz, recvTsOff]), ← hread]
  rfl

end TcpEyenet
