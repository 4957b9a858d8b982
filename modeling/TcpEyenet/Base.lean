import TcpEyenet.Lib.Bytes
import TcpEyenet.Lib.Traced

/-! The packet header and the receive call of vns_base. -/
namespace TcpEyenet

open Bytes

/-- A `double_t` as a header carries it. -/
structure Double where
  bits : BitVec 64
  deriving DecidableEq

/-- The number it stands for; infinities and what is not a number count as 0. -/
def Double.val (d : Double) : ℚ :=
  let m : ℕ := d.bits.toNat % 2 ^ 52
  let e : ℕ := d.bits.toNat / 2 ^ 52 % 2 ^ 11
  let mag : ℚ :=
    if e = 0 then mkRat m (2 ^ 1074)
    else if e < 2047 then mkRat (((2 ^ 52 + m) * 2 ^ e : ℕ) : ℤ) (2 ^ 1075)
    else 0
  if d.bits.msb then -mag else mag

theorem Double.val_of_toNat_eq_zero {d : Double} (h : d.bits.toNat = 0) : d.val = 0 := by
  simp only [Double.val, h, Nat.zero_mod, Nat.zero_div, if_true, Nat.cast_zero, Rat.zero_mkRat,
    neg_zero, ite_self]

/-- Neither zero nor subnormal, and no sign. -/
theorem Double.val_pos {d : Double} (h₀ : d.bits.toNat / 2 ^ 52 % 2 ^ 11 ≠ 0)
    (h₁ : d.bits.toNat / 2 ^ 52 % 2 ^ 11 < 2047) (hs : d.bits.msb = false) : 0 < d.val := by
  have hnum : 0 < (2 ^ 52 + d.bits.toNat % 2 ^ 52) * 2 ^ (d.bits.toNat / 2 ^ 52 % 2 ^ 11) :=
    Nat.mul_pos (Nat.add_pos_left (Nat.two_pow_pos 52) _) (Nat.two_pow_pos _)
  simp only [Double.val, hs, h₁, if_true, if_neg h₀, Bool.false_eq_true, if_false]
  exact Rat.mkRat_pos (Int.natCast_pos.mpr hnum) (pow_ne_zero _ two_ne_zero)

structure PacketHeader where
  seqNum : Int32
  fid : Int32
  sid : Int32
  sendTs : Double
  recvTs : Double
  deriving DecidableEq

/-- `HDR_SZ`: the doubles are aligned, so four bytes of padding follow `sid`. -/
def hdrSz : ℕ := 32

namespace PacketHeader

def intBytes (x : Int32) : List UInt8 := leBytes 4 x.toBitVec.toNat

def doubleBytes (d : Double) : List UInt8 := leBytes 8 d.bits.toNat

/-- The memory of a header. The padding holds zeros here. -/
def bytes (h : PacketHeader) : List UInt8 :=
  intBytes h.seqNum ++ intBytes h.fid ++ intBytes h.sid ++ [0, 0, 0, 0] ++
    doubleBytes h.sendTs ++ doubleBytes h.recvTs

def ofBytes (bs : List UInt8) : PacketHeader :=
  { seqNum := Int32.ofNat (field bs 0 4)
    fid := Int32.ofNat (field bs 4 4)
    sid := Int32.ofNat (field bs 8 4)
    sendTs := ⟨BitVec.ofNat 64 (field bs 16 8)⟩
    recvTs := ⟨BitVec.ofNat 64 (field bs 24 8)⟩ }

/-- `memcpy` of a header out of a buffer. -/
def read (b : Buf) : PacketHeader := ofBytes (b.load 0 hdrSz)

@[simp] theorem length_bytes (h : PacketHeader) : h.bytes.length = hdrSz := rfl

theorem ofNat_intBytes (x : Int32) : Int32.ofNat (leNat (intBytes x)) = x := by
  have hlt : x.toBitVec.toNat < 256 ^ 4 := x.toBitVec.isLt
  rw [intBytes, leNat_leBytes_of_lt hlt]
  exact Int32.toBitVec.inj (by simp)

theorem ofNat_doubleBytes (d : Double) :
    (⟨BitVec.ofNat 64 (leNat (doubleBytes d))⟩ : Double) = d := by
  have hlt : d.bits.toNat < 256 ^ 8 := d.bits.isLt
  rw [doubleBytes, leNat_leBytes_of_lt hlt]
  simp

theorem ofBytes_append (h : PacketHeader) (bs : List UInt8) : ofBytes (h.bytes ++ bs) = h := by
  have hseq : field (h.bytes ++ bs) 0 4 = leNat (intBytes h.seqNum) := rfl
  have hfid : field (h.bytes ++ bs) 4 4 = leNat (intBytes h.fid) := rfl
  have hsid : field (h.bytes ++ bs) 8 4 = leNat (intBytes h.sid) := rfl
  have hsend : field (h.bytes ++ bs) 16 8 = leNat (doubleBytes h.sendTs) := rfl
  have hrecv : field (h.bytes ++ bs) 24 8 = leNat (doubleBytes h.recvTs) := rfl
  simp only [ofBytes, hseq, hfid, hsid, hsend, hrecv, ofNat_intBytes, ofNat_doubleBytes]

/-- What lies past a header is not read. -/
theorem ofBytes_take {bs : List UInt8} {n : ℕ} (h : hdrSz ≤ n) :
    ofBytes (bs.take n) = ofBytes bs := by
  rw [hdrSz] at h
  simp only [ofBytes]
  rw [field_take (by omega), field_take (by omega), field_take (by omega), field_take (by omega),
    field_take (by omega)]

/-- A header in front of whatever the buffer held before. -/
theorem ofBytes_load_store (h : PacketHeader) (b : Buf) {n : ℕ} (hn : hdrSz ≤ n) :
    ofBytes ((b.store 0 h.bytes).load 0 n) = h := by
  rw [← Nat.add_sub_cancel' hn, Buf.load_append, Buf.load_store (by simp),
    List.take_of_length_le (by simp), ofBytes_append]

end PacketHeader

/-- How a receive can end: no datagram in time, an error of `poll` or of `recvfrom`, or one. -/
inductive Recv
  | timeout
  | pollError
  | recvError
  | datagram (d : List UInt8)
  deriving DecidableEq

structure Received where
  rc : ℤ
  buf : Buf

/-- `recv_data`, which logs the index of every store it makes into the buffer. -/
def recvData (sz : ℕ) (out : Recv) (buf : Buf) : Traced ℤ Received :=
  match out with
  | .timeout => pure ⟨0, buf⟩
  | .pollError => pure ⟨-1, buf⟩
  | .recvError => ⟨⟨-1, buf⟩, [-1]⟩
  | .datagram d =>
    let got := d.take sz
    ⟨⟨got.length, (buf.store 0 got).store got.length [0]⟩,
      (List.range (got.length + 1)).map Int.ofNat⟩

/-- After a datagram that holds a header the buffer does. -/
theorem read_recvData {sz : ℕ} {d : List UInt8} {b : Buf} (hsz : hdrSz ≤ sz)
    (hd : hdrSz ≤ d.length) :
    PacketHeader.read (recvData sz (.datagram d) b).val.buf = PacketHeader.ofBytes d := by
  have hgot : hdrSz ≤ (d.take sz).length := by
    rw [List.length_take]
    exact le_min hsz hd
  simp only [recvData, PacketHeader.read]
  rw [Buf.load_store_of_le (by omega), Buf.load_store hgot, PacketHeader.ofBytes_take le_rfl,
    PacketHeader.ofBytes_take hsz]

/-- A header received by itself. -/
theorem recvData_bytes (sz : ℕ) (hsz : hdrSz ≤ sz) (h : PacketHeader) (b : Buf) :
    (recvData sz (.datagram h.bytes) b).val.rc ≠ 0 ∧
      PacketHeader.read (recvData sz (.datagram h.bytes) b).val.buf = h := by
  constructor
  · have hrc : (recvData sz (.datagram h.bytes) b).val.rc = (h.bytes.take sz).length := rfl
    rw [hrc, List.length_take, PacketHeader.length_bytes, min_eq_right hsz]
    decide
  · rw [read_recvData hsz (by simp), ← List.append_nil h.bytes, PacketHeader.ofBytes_append]

end TcpEyenet
