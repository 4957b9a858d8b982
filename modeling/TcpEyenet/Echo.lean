import TcpEyenet.Receiver

/-! What the echo of a datagram owes to the datagrams before it. -/
namespace TcpEyenet

open PacketHeader

/-- Where a datagram comes from or goes to: `sin_addr` and `sin_port`. -/
structure Endpoint where
  ip : UInt32
  port : UInt16
  deriving DecidableEq

structure Arrival where
  source : Endpoint
  data : List UInt8
  clock : Double

/-- The locals of `ack_packets` that outlive an iteration. -/
structure Echoing where
  buf : Buf
  addr : Endpoint

structure Echo where
  dest : Endpoint
  bytes : List UInt8
  deriving DecidableEq

namespace Echoing

variable {s s₁ s₂ : Echoing} {a : Arrival} {k : ℕ}

/-- An iteration of `ack_packets` that receives a datagram. -/
def serve (s : Echoing) (a : Arrival) : Traced Echo Echoing :=
  let r := ackPackets s.buf (.datagram a.data) a.clock
  ⟨⟨r.val, a.source⟩, r.log.map fun bytes => ⟨a.source, bytes⟩⟩

def serveAll (s : Echoing) (as : List Arrival) : Echoing := as.foldl (fun s a => (s.serve a).val) s

/-- Where the echo of a datagram goes and the bytes of its five fields, without the padding. -/
def fields (s : Echoing) (a : Arrival) : List (Endpoint × List UInt8) :=
  (s.serve a).log.map fun e => (e.dest, e.bytes.take 12 ++ e.bytes.drop 16)

/-- The memory up to `recv_ts` once a datagram has been received. -/
def held (s : Echoing) (a : Arrival) : List UInt8 :=
  (recvData recvBufSz (.datagram a.data) s.buf).val.buf.load 0 recvTsOff

theorem fields_eq (s : Echoing) (a : Arrival) :
    s.fields a =
      [(a.source, (s.held a).take 12 ++ ((s.held a).drop 16 ++ doubleBytes a.clock))] := by
  have hrc : (recvData recvBufSz (.datagram a.data) s.buf).val.rc ≠ -1 := by
    change ((a.data.take recvBufSz).length : ℤ) ≠ -1
    omega
  have hlen : (s.held a).length = 24 := by simp [held, recvTsOff]
  simp only [fields, serve, ackPackets, if_neg hrc, List.map_cons, List.map_nil]
  rw [load_store_recvTs]
  change [(a.source, (s.held a ++ _).take 12 ++ (s.held a ++ _).drop 16)] = _
  rw [List.take_append_of_le_length (by omega), List.drop_append_of_le_length (by omega)]

/-- A datagram and the terminator behind it, on top of what was there. -/
theorem received_buf (ha : a.data.length < recvBufSz) :
    (recvData recvBufSz (.datagram a.data) s.buf).val.buf = s.buf.store 0 (a.data ++ [0]) := by
  simp only [recvData]
  rw [List.take_of_length_le ha.le, ← Buf.store_append, zero_add]

theorem held_eq (ha : a.data.length < recvBufSz) :
    s.held a = (s.buf.store 0 (a.data ++ [0])).load 0 recvTsOff := by
  rw [held, received_buf ha]

/-- With the terminator a datagram of 23 bytes covers everything before `recv_ts`. -/
theorem held_of_long (ha : a.data.length < recvBufSz) (hlong : 23 ≤ a.data.length) :
    s.held a = (a.data ++ [0]).take recvTsOff := by
  rw [held_eq ha, Buf.load_store]
  simp only [recvTsOff, List.length_append, List.length_singleton]
  omega

/-- The last byte of `send_ts`, which a shorter one leaves as it was. -/
theorem held_of_short (ha : a.data.length < recvBufSz) (hshort : a.data.length < 23) :
    (s.held a)[23]? = some (s.buf 23) := by
  have hbyte : s.buf.store 0 (a.data ++ [0]) 23 = s.buf 23 := by
    rw [Buf.store, if_neg (by omega), List.getD_eq_default]
    simp only [List.length_append, List.length_singleton]
    omega
  rw [held_eq ha, List.getElem?_eq_getElem (by simp [recvTsOff]), Buf.getElem_load, zero_add, hbyte]

/-- A whole header filled with one byte. -/
def filler (v : UInt8) : Arrival := ⟨⟨0, 0⟩, List.replicate hdrSz v, ⟨0⟩⟩

theorem length_filler (v : UInt8) : (filler v).data.length = hdrSz := by simp [filler]

theorem serve_filler (s : Echoing) (v : UInt8) : (s.serve (filler v)).val.buf 23 = v := by
  have hlen := length_filler v
  have hrc : (recvData recvBufSz (.datagram (filler v).data) s.buf).val.rc ≠ -1 := by
    change (((filler v).data.take recvBufSz).length : ℤ) ≠ -1
    omega
  rw [hdrSz] at hlen
  have hmem : 23 < ((filler v).data ++ [0]).length := by simp [hlen]
  simp only [serve, ackPackets, if_neg hrc]
  rw [Buf.store_of_lt (by decide), received_buf (by simp [hlen, recvBufSz]), ← zero_add 23,
    Buf.store_of_mem hmem, List.getElem_append_left (by omega)]
  simp [filler]

/-- One byte of the datagram before shows in the echo of a short one. -/
theorem fields_after_filler (ha : a.data.length < recvBufSz) (hshort : a.data.length < 23)
    (h : (s₁.serveAll [filler 0]).fields a = (s₂.serveAll [filler 1]).fields a) : False := by
  rw [fields_eq, fields_eq] at h
  obtain ⟨-, hbytes⟩ := Prod.mk.inj (List.cons.inj h).1
  obtain ⟨-, hrest⟩ := List.append_inj hbytes (by simp [held])
  obtain ⟨hdrop, -⟩ := List.append_inj hrest (by simp [held])
  have hbyte := congrArg (fun l => l[7]?) hdrop
  simp only [List.getElem?_drop] at hbyte
  rw [held_of_short ha hshort, held_of_short ha hshort] at hbyte
  have hfill : (0 : UInt8) = 1 := by
    rw [← serve_filler s₁ 0, ← serve_filler s₂ 1]
    exact Option.some.inj hbyte
  exact absurd hfill (by decide)

/-- The echo of a datagram is its own just if the datagram, with the terminator that `recv_data`
puts behind it, reaches up to `recv_ts`; what came before is then forgotten. -/
theorem echo_own_iff (s₁ s₂ : Echoing) (ha : a.data.length < recvBufSz) :
    (∀ as₁ as₂ : List Arrival, (∀ x ∈ as₁ ++ as₂, x.data.length < recvBufSz) →
      (s₁.serveAll as₁).fields a = (s₂.serveAll as₂).fields a) ↔ 23 ≤ a.data.length := by
  constructor
  · intro h
    by_contra hshort
    refine fields_after_filler ha (not_le.mp hshort) (h [filler 0] [filler 1] ?_)
    intro x hx
    have hdata : x.data.length = hdrSz := by
      simp only [List.cons_append, List.nil_append, List.mem_cons, List.not_mem_nil, or_false] at hx
      obtain rfl | rfl := hx
      · exact length_filler 0
      · exact length_filler 1
    rw [hdata]
    decide
  · intro hlong as₁ as₂ _
    rw [fields_eq, fields_eq, held_of_long ha hlong, held_of_long ha hlong]

/-- An empty datagram, which `ack_packets` answers too. -/
def empty : Arrival := ⟨⟨0x0100007F, 0x1234⟩, [], ⟨0⟩⟩

def blank : Echoing := ⟨fun _ => 0, ⟨0, 0⟩⟩

/-- What an earlier header held comes back in answer to an empty datagram. -/
theorem echo_not_own :
    (∀ x ∈ [empty, filler 0, filler 1], x.data.length < recvBufSz) ∧
      (blank.serveAll [filler 0]).fields empty ≠ (blank.serveAll [filler 1]).fields empty := by
  constructor
  · decide +kernel
  · decide +kernel

theorem echo_own_iff_empty :
    (∀ as₁ as₂ : List Arrival, (∀ x ∈ as₁ ++ as₂, x.data.length < recvBufSz) →
      (blank.serveAll as₁).fields empty = (blank.serveAll as₂).fields empty) ↔
        23 ≤ empty.data.length :=
  echo_own_iff blank blank (by decide)

end Echoing

end TcpEyenet
