import TcpEyenet.Lib.Bytes
import TcpEyenet.Lib.Machine
import TcpEyenet.Ttest.Stats

/-! The receiver of ttest: its workers with their hash tables, and what they share. -/
namespace TcpEyenet.Ttest

open Bytes

def ttestPktSig : ℕ := 0xabcddcba

def maxPorts : ℕ := 8192

def maxAddrHashSz : ℕ := 4

/-- `sizeof(pkthdr_t)`: 13 bytes, padded to a multiple of 4. -/
def hdrsz : ℕ := 16

/-- `ntohl` and `ntohs` of a field of a header. -/
def netField (bs : List UInt8) (off n : ℕ) : ℕ := leNat ((bs.drop off).take n).reverse

/-- A source, as `recvfrom` gives it. -/
structure RconnTuple where
  ip : UInt32
  port : UInt16
  deriving DecidableEq

structure Rconn where
  t : RconnTuple
  cid : UInt64
  wid : UInt16
  stats : Counters

/-- Where a `Rconn` lies: the number of its allocation. -/
abbrev Ptr := ℕ

/-- Where `rcv_worker` stands: at its `recvfrom`, or in `lookup_rconn` with a new record that is
not registered yet, or not in the table yet. -/
inductive Rphase
  | receiving
  | registering (p : Ptr) (pktsize : UInt16)
  | linking (p : Ptr) (pktsize : UInt16)
  deriving DecidableEq

structure Rworker where
  rconnHash : Fin maxPorts × Fin maxAddrHashSz → List Ptr
  phase : Rphase

/-- What the workers share; `workers` is indexed by the `id` of a worker. -/
structure Trcv where
  heap : List Rconn
  lheadConn : List Ptr
  nConns : UInt64
  cidSeed : UInt64
  workers : UInt16 → Rworker

/-- A step of one worker. -/
inductive Ract
  | recv (src : RconnTuple) (d : List UInt8)
  | register
  | link

/-- `port & (MAX_PORTS - 1)` and `s_addr & (MAX_ADDR_HASH_SZ - 1)`. -/
def RconnTuple.hash (t : RconnTuple) : Fin maxPorts × Fin maxAddrHashSz :=
  (⟨t.port.toNat &&& 8191, Nat.lt_succ_of_le Nat.and_le_right⟩,
    ⟨t.ip.toNat &&& 3, Nat.lt_succ_of_le Nat.and_le_right⟩)

/-- The `pktsize` of a datagram with a whole header and the signature. -/
def pktsizeOf (d : List UInt8) : Option UInt16 :=
  let phdr := d.take hdrsz
  if phdr.length = hdrsz ∧ netField phdr 0 4 = ttestPktSig then
    some (UInt16.ofNat (netField phdr 8 2))
  else none

namespace Trcv

def new : Trcv :=
  { heap := []
    lheadConn := []
    nConns := 0
    cidSeed := 0
    workers := fun _ => { rconnHash := fun _ => [], phase := .receiving } }

/-- The record at `p` is of the source `t`. -/
def isOf (s : Trcv) (t : RconnTuple) (p : Ptr) : Bool := (s.heap[p]?).any fun r => r.t = t

/-- The scan of `lookup_rconn`. -/
def lookup (s : Trcv) (w : UInt16) (t : RconnTuple) : Option Ptr :=
  ((s.workers w).rconnHash t.hash).find? (s.isOf t)

def setPhase (s : Trcv) (w : UInt16) (phase : Rphase) : Trcv :=
  { s with workers := Function.update s.workers w { s.workers w with phase := phase } }

/-- The two counts of a valid datagram. -/
def bump (s : Trcv) (p : Ptr) (pktsize : UInt16) : Trcv :=
  { s with
    heap := s.heap.modify p fun r => { r with stats := r.stats + ⟨1, pktsize.toUInt64⟩ } }

/-- The counts, and the assertion after them. -/
def count (s : Trcv) (w : UInt16) (p : Ptr) (pktsize : UInt16) : Option Trcv :=
  match s.heap[p]? with
  | none => none
  | some r => if r.wid = w then some (s.bump p pktsize) else none

/-- `malloc` and the first lines on the new record. -/
def alloc (s : Trcv) (w : UInt16) (t : RconnTuple) (pktsize : UInt16) : Trcv :=
  setPhase { s with heap := s.heap ++ [{ t := t, cid := 0, wid := w, stats := 0 }] } w
    (.registering s.heap.length pktsize)

/-- `register_rconn`, under the lock. -/
def register (s : Trcv) (w : UInt16) (p : Ptr) (pktsize : UInt16) : Trcv :=
  setPhase
    { s with
      heap := s.heap.modify p fun r => { r with cid := s.cidSeed }
      cidSeed := s.cidSeed + 1
      lheadConn := s.lheadConn ++ [p]
      nConns := s.nConns + 1 } w (.linking p pktsize)

/-- `cds_list_add` to a bucket of the worker's table. -/
def addHash (s : Trcv) (w : UInt16) (p : Ptr) (h : Fin maxPorts × Fin maxAddrHashSz) : Trcv :=
  { s with
    workers := Function.update s.workers w
      { rconnHash := Function.update (s.workers w).rconnHash h (p :: (s.workers w).rconnHash h)
        phase := .receiving } }

/-- The step of a worker: `none` where it is not at that step, and where the assertion fails. -/
def workerStep (s : Trcv) (i : UInt16 × Ract) : Option (Traced Empty Trcv) :=
  match i.2, (s.workers i.1).phase with
  | .recv src d, .receiving =>
    match pktsizeOf d with
    | none => some (pure s)
    | some pktsize =>
      match s.lookup i.1 src with
      | some p => (s.count i.1 p pktsize).map pure
      | none => some (pure (s.alloc i.1 src pktsize))
  | .register, .registering p pktsize => some (pure (s.register i.1 p pktsize))
  | .link, .linking p pktsize =>
    match s.heap[p]? with
    | none => none
    | some r => ((s.addHash i.1 p r.t.hash).count i.1 p pktsize).map pure
  | _, _ => none

/-- The workers are the ones `start_server` makes, whose number `parse_args` bounds by 1000. -/
def step (nCpus : UInt16) (s : Trcv) (i : UInt16 × Ract) : Option (Traced Empty Trcv) :=
  if i.1 < nCpus then s.workerStep i else none

def machine (nCpus : UInt16) : Machine Trcv (UInt16 × Ract) Empty := ⟨step nCpus⟩

end Trcv

end TcpEyenet.Ttest
