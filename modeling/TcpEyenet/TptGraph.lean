import TcpEyenet.Lib.Dict

/-! The bucketing of a capture in the script that plots its throughput. -/
namespace TcpEyenet.TptGraph

/-- BKT_SZ, in seconds. -/
def bktSz : ℚ := 1 / 10

structure Ports where
  sport : UInt16
  dport : UInt16
  deriving DecidableEq

/-- The `data` of an `ip.IP`: a `udp.UDP`, a `tcp.TCP`, or something else. -/
inductive IpData (δ : Type)
  | udp (p : Ports)
  | tcp (p : Ports)
  | other (x : δ)

/-- What `dpkt` makes of bytes, if it does not raise. An IP header has 20 of them. -/
structure Dpkt (δ : Type) where
  ethernet : List UInt8 → Option Unit
  ip : List UInt8 → Option (IpData δ)
  udp : δ → Option Ports
  ip_short : ∀ buf, buf.length < 20 → ip buf = none

/-- A packet of the capture, with the time in seconds. -/
structure Packet where
  ts : ℚ
  buf : List UInt8

structure Plot where
  bucketStart : ℚ
  buckets : Dict ℚ (Dict UInt16 ℚ)
  bucket : Dict UInt16 ℚ
  jain : Dict ℚ ℚ
  prevBucket : Dict UInt16 ℚ
  flows : Dict UInt16 ℕ

/-- A division, which raises on a divisor of 0. -/
def divide (a b : ℚ) : Option ℚ := if b = 0 then none else some (a / b)

/-- `bucket[x] /= c` for every `x`. -/
def scale (bucket : Dict UInt16 ℚ) (c : ℚ) : Option (Dict UInt16 ℚ) :=
  if bucket.size ≠ 0 ∧ c = 0 then none else some (bucket.map (· / c))

def jainIndex (tpts : List ℚ) : Option ℚ :=
  if tpts ≠ [] then divide (tpts.sum ^ 2) (tpts.length * (tpts.map (· ^ 2)).sum) else some 0

namespace Plot

def new : Plot :=
  { bucketStart := -1
    buckets := .empty
    bucket := .empty
    jain := .empty
    prevBucket := .empty
    flows := .empty }

/-- The end of a bucket, and the start of the next one. -/
def close (s : Plot) (ts : ℚ) : Option Plot := do
  let bucket ← scale s.bucket (ts - s.bucketStart)
  let jain ←
    if s.prevBucket.size ≠ bucket.size then some s.jain
    else (jainIndex bucket.values).map (s.jain.set ts)
  pure
    { bucketStart := ts
      buckets := if bucket.size ≠ 0 then s.buckets.set ts bucket else s.buckets
      bucket := .empty
      jain := jain
      prevBucket := bucket
      flows := s.flows }

/-- The bytes of a packet go to its flow. -/
def count (s : Plot) (sport : UInt16) (len : ℕ) : Plot :=
  let bucket := if sport ∉ s.bucket.keys then s.bucket.set sport 0 else s.bucket
  { s with
    flows := if sport ∉ s.flows.keys then s.flows.set sport 1 else s.flows
    bucket := bucket.set sport ((bucket.get? sport).getD 0 + len) }

end Plot

variable {δ : Type} (d : Dpkt δ)

/-- The segment that the body of the loop finds, unless it goes on with the next packet. -/
def udpEth (buf : List UInt8) : Option Ports := do
  d.ethernet buf
  match ← d.ip buf with
  | .udp p => pure p
  | .tcp p => pure p
  | .other x => d.udp x

def dports : List UInt16 := [5001, 8888, 9000]

/-- What a turn does with the packet in the bucket that is open by then. -/
def Plot.take (s : Plot) (p : Packet) : Plot :=
  match udpEth d p.buf with
  | none => s
  | some u => if u.dport ∈ dports then s.count u.sport p.buf.length else s

/-- A turn of the loop, unless it raises. -/
def turn (s : Plot) (p : Packet) : Option Plot := do
  let s ← if s.bucketStart + bktSz ≤ p.ts ∨ s.bucketStart = -1 then s.close p.ts else some s
  pure (s.take d p)

/-- The loop over the packets of a capture. -/
def plot (pcap : List Packet) : Option Plot := pcap.foldlM (turn d) .new

/-- The destination port of the packet is one that the script counts. -/
def counted (p : Packet) : Bool := (udpEth d p.buf).any fun u => u.dport ∈ dports

/-- The bytes of the packets to be counted. -/
def bytes (pcap : List Packet) : ℕ := ((pcap.filter (counted d)).map fun p => p.buf.length).sum

/-- The times at which the buckets are opened: that of the first packet, and then that of the
first packet BKT_SZ or more after the last opening. -/
def openings (pcap : List Packet) : List ℚ :=
  pcap.foldl (fun os p =>
    match os.getLast? with
    | none => [p.ts]
    | some start => if start + bktSz ≤ p.ts then os ++ [p.ts] else os) []

/-- Before the first opening it is what `bucket_start` is set to at first. -/
def lastOf (os : List ℚ) : ℚ := os.getLast?.getD (-1)

/-- When the bucket that ended at `key` was opened. -/
def openedAt (os : List ℚ) (key : ℚ) : ℚ := lastOf (os.filter fun o => decide (o < key))

/-- The recorded rates, each times the duration of its bucket. -/
def plotted (os : List ℚ) (s : Plot) : ℚ :=
  s.buckets.sum fun key bucket => bucket.sum fun _ rate => rate * (key - openedAt os key)

/-- All bytes of the capture are plotted. -/
def Conserved (pcap : List Packet) (s : Plot) : Prop := plotted (openings pcap) s = bytes d pcap

def total (bucket : Dict UInt16 ℚ) : ℚ := bucket.sum fun _ v => v

variable {d} {s s' : Plot} {p : Packet} {pcap : List Packet} {os : List ℚ} {ts : ℚ}

section Dicts

variable {bucket : Dict UInt16 ℚ} {c : ℚ}

theorem total_eq (bucket : Dict UInt16 ℚ) : total bucket = bucket.values.sum := rfl

theorem total_of_size (h : bucket.size = 0) : total bucket = 0 := by
  have hnil : bucket.entries = [] := List.length_eq_zero_iff.mp h
  simp [total, Dict.sum, hnil]

theorem size_map (f : ℚ → ℚ) : (bucket.map f).size = bucket.size := List.length_map _

/-- A rate times the duration of its bucket is what was counted. -/
theorem sum_rates (hc : c ≠ 0) :
    (bucket.map (· / c)).sum (fun _ rate => rate * c) = total bucket := by
  rw [Dict.sum_map]
  exact Dict.sum_congr fun _ _ v => div_mul_cancel₀ v hc

theorem total_map_div (c : ℚ) : total (bucket.map (· / c)) = total bucket / c := by
  rw [total, Dict.sum_map, total, Dict.sum, Dict.sum]
  simp only [div_eq_mul_inv]
  exact List.sum_map_mul_right ..

theorem total_count (s : Plot) (sport : UInt16) (len : ℕ) :
    total (s.count sport len).bucket = total s.bucket + len := by
  obtain ⟨bucket, hbucket⟩ : ∃ bucket, bucket =
      if sport ∉ s.bucket.keys then s.bucket.set sport 0 else s.bucket := ⟨_, rfl⟩
  have hsame : total bucket = total s.bucket := by
    rw [hbucket]
    split_ifs with hold
    · rfl
    · rw [total, Dict.sum_set_of_notMem _ hold, add_zero, total]
  have hset := Dict.sum_set (fun _ v => v) bucket sport ((bucket.get? sport).getD 0 + (len : ℚ))
  rw [Option.map_id'] at hset
  have hcount : (s.count sport len).bucket =
      bucket.set sport ((bucket.get? sport).getD 0 + len) := by rw [hbucket]; rfl
  rw [hcount, ← hsame, total, total]
  linarith

end Dicts

theorem sum_sq_pos {tpts : List ℚ} (h : tpts.sum ≠ 0) : 0 < (tpts.map (· ^ 2)).sum := by
  induction tpts with
  | nil => exact absurd rfl h
  | cons x tpts ih =>
    have hnonneg : 0 ≤ (tpts.map (· ^ 2)).sum := List.sum_nonneg (by simp [sq_nonneg])
    rw [List.map_cons, List.sum_cons]
    by_cases hx : x = 0
    · have hrest : tpts.sum ≠ 0 := by simpa [hx] using h
      have hpos := ih hrest
      positivity
    · have hsq : 0 < x ^ 2 := by positivity
      linarith

/-- The index is defined where something was sent. -/
theorem jainIndex_isSome {tpts : List ℚ} (h : tpts ≠ [] → tpts.sum ≠ 0) :
    (jainIndex tpts).isSome := by
  rw [jainIndex]
  split_ifs with hnil
  · have hsq := sum_sq_pos (h hnil)
    have hlen : (0 : ℚ) < tpts.length := by
      exact_mod_cast List.length_pos_iff.mpr hnil
    rw [divide, if_neg (by positivity)]
    rfl
  · rfl

/-- What the end of a bucket does, if it has taken some time. -/
theorem close_eq (hlt : s.bucketStart < ts) (hbusy : s.bucket.size ≠ 0 → 0 < total s.bucket) :
    ∃ s', s.close ts = some s' ∧ s'.bucketStart = ts ∧ s'.bucket = .empty ∧
      s'.buckets =
        if s.bucket.size ≠ 0 then s.buckets.set ts (s.bucket.map (· / (ts - s.bucketStart)))
        else s.buckets := by
  have hc : 0 < ts - s.bucketStart := sub_pos.mpr hlt
  have hscale : scale s.bucket (ts - s.bucketStart) =
      some (s.bucket.map (· / (ts - s.bucketStart))) := if_neg fun h => hc.ne' h.2
  have hsome : (jainIndex (s.bucket.map (· / (ts - s.bucketStart))).values).isSome := by
    refine jainIndex_isSome fun hne => ?_
    have hsize : s.bucket.size ≠ 0 := by
      intro hzero
      rw [← size_map (· / (ts - s.bucketStart))] at hzero
      exact hne (by rw [Dict.values, List.length_eq_zero_iff.mp hzero, List.map_nil])
    rw [← total_eq, total_map_div]
    exact (div_pos (hbusy hsize) hc).ne'
  obtain ⟨j, hj⟩ := Option.isSome_iff_exists.mp hsome
  simp only [Plot.close, hscale, hj, Option.bind_eq_bind, Option.bind_some, Option.map_some,
    size_map]
  split_ifs <;> exact ⟨_, rfl, rfl, rfl, rfl⟩

section Openings

variable {key : ℚ}

theorem openings_concat (h : 0 ≤ p.ts) :
    openings (pcap ++ [p]) =
      if lastOf (openings pcap) + bktSz ≤ p.ts then openings pcap ++ [p.ts] else openings pcap := by
  have hstep : openings (pcap ++ [p]) =
      match (openings pcap).getLast? with
      | none => [p.ts]
      | some start => if start + bktSz ≤ p.ts then openings pcap ++ [p.ts] else openings pcap := by
    simp [openings]
  rw [hstep, lastOf]
  cases hlast : (openings pcap).getLast? with
  | none =>
    have hsoon : (-1 : ℚ) + bktSz ≤ p.ts := by
      rw [bktSz]
      linarith
    rw [Option.getD_none, if_pos hsoon, List.getLast?_eq_none_iff.mp hlast, List.nil_append]
  | some start => rfl

theorem mem_openings {o : ℚ} (ho : o ∈ openings pcap) : ∃ p ∈ pcap, p.ts = o := by
  induction pcap using List.reverseRecOn with
  | nil => simp [openings] at ho
  | append_singleton pcap p ih =>
    have hcases : o ∈ openings pcap ∨ o = p.ts := by
      simp only [openings, List.foldl_append, List.foldl_cons, List.foldl_nil] at ho ⊢
      split at ho
      · exact .inr (List.mem_singleton.mp ho)
      · split_ifs at ho
        · simpa using ho
        · exact .inl ho
    rcases hcases with ho | rfl
    · obtain ⟨q, hq, hts⟩ := ih ho
      exact ⟨q, List.mem_append_left _ hq, hts⟩
    · exact ⟨p, by simp, rfl⟩

theorem lastOf_le (h₀ : 0 ≤ ts) (h : ∀ p ∈ pcap, p.ts ≤ ts) : lastOf (openings pcap) ≤ ts := by
  rw [lastOf]
  cases hlast : (openings pcap).getLast? with
  | none =>
    rw [Option.getD_none]
    linarith
  | some o =>
    obtain ⟨p, hp, hts⟩ := mem_openings (List.mem_of_getLast? hlast)
    rw [Option.getD_some, ← hts]
    exact h p hp

theorem lastOf_concat (os : List ℚ) (o : ℚ) : lastOf (os ++ [o]) = o := by simp [lastOf]

/-- A bucket that has ended was opened at an opening before its end, whatever comes later. -/
theorem openedAt_concat (h : key ≤ ts) : openedAt (os ++ [ts]) key = openedAt os key := by
  rw [openedAt, openedAt, List.filter_append, List.filter_singleton,
    decide_eq_false (not_lt.mpr h)]
  simp

theorem openedAt_of_lt (h : ∀ o ∈ os, o < key) : openedAt os key = lastOf os := by
  rw [openedAt, List.filter_eq_self.mpr fun o ho => decide_eq_true (h o ho)]

end Openings

theorem bytes_concat : bytes d (pcap ++ [p]) = bytes d pcap + bytes d [p] := by
  simp [bytes]

/-- A packet that is counted has bytes. -/
theorem bytes_pos (h : counted d p) : 0 < p.buf.length := by
  by_contra hzero
  have hshort : d.ip p.buf = none := d.ip_short _ (by omega)
  simp [counted, udpEth, hshort] at h

theorem bytes_eq_zero : bytes d pcap = 0 ↔ ∀ p ∈ pcap, ¬ counted d p := by
  rw [bytes, List.sum_eq_zero_iff]
  constructor
  · intro h p hp hcounted
    have hzero := h p.buf.length (List.mem_map.mpr ⟨p, List.mem_filter.mpr ⟨hp, hcounted⟩, rfl⟩)
    exact (bytes_pos hcounted).ne' hzero
  · intro h n hn
    obtain ⟨p, hp, -⟩ := List.mem_map.mp hn
    obtain ⟨hp, hcounted⟩ := List.mem_filter.mp hp
    exact absurd hcounted (h p hp)

/-- The bytes of the packets so far are in the recorded buckets and in the open one, which has
those from its start on. -/
structure Follows (d : Dpkt δ) (os : List ℚ) (pcap : List Packet) (s : Plot) : Prop where
  start : s.bucketStart = lastOf os
  early : ∀ p ∈ pcap, p.ts < s.bucketStart + bktSz
  opened : ∀ o ∈ os, o ≤ s.bucketStart
  keys : ∀ key ∈ s.buckets.keys, key ≤ s.bucketStart
  bucket : total s.bucket = bytes d (pcap.filter fun p => decide (s.bucketStart ≤ p.ts))
  busy : s.bucket.size ≠ 0 → 0 < total s.bucket
  plotted : plotted os s + total s.bucket = bytes d pcap

theorem follows_new : Follows d [] [] .new := by
  constructor <;> simp [Plot.new, lastOf, total, bytes, plotted, Dict.keys, Dict.empty, Dict.size,
    Dict.sum]

/-- The opening before the end of a bucket is what `bucket_start` holds until then. -/
theorem Follows.openedAt_end (h : Follows d os pcap s) (hlt : s.bucketStart < ts) :
    openedAt (os ++ [ts]) ts = s.bucketStart := by
  rw [openedAt_concat le_rfl, openedAt_of_lt fun o ho => (h.opened o ho).trans_lt hlt, h.start]

/-- The end of a bucket. -/
theorem Follows.close (h : Follows d os pcap s) (hts : s.bucketStart + bktSz ≤ ts) :
    ∃ s', s.close ts = some s' ∧ Follows d (os ++ [ts]) pcap s' ∧ s'.bucketStart = ts := by
  have hlt : s.bucketStart < ts := by
    rw [bktSz] at hts
    linarith
  obtain ⟨s', hclose, hstart, hbucket, hbuckets⟩ := close_eq hlt h.busy
  have hearly : ∀ p ∈ pcap, p.ts < ts := fun p hp => (h.early p hp).trans_le hts
  have hfresh : ts ∉ s.buckets.keys := fun hmem => absurd (h.keys ts hmem) (not_le.mpr hlt)
  have hold : s.buckets.sum (fun key bucket => bucket.sum fun _ rate =>
      rate * (key - openedAt (os ++ [ts]) key)) = TptGraph.plotted os s := by
    refine Dict.sum_congr fun key hkey bucket => ?_
    rw [openedAt_concat ((h.keys key hkey).trans hlt.le)]
  refine ⟨s', hclose, ?_, hstart⟩
  constructor
  · rw [hstart, lastOf_concat]
  · intro p hp
    have hp := hearly p hp
    rw [hstart, bktSz]
    linarith
  · intro o ho
    rw [hstart]
    rcases List.mem_append.mp ho with ho | ho
    · exact (h.opened o ho).trans hlt.le
    · exact (List.mem_singleton.mp ho).le
  · intro key hkey
    rw [hstart]
    rw [hbuckets] at hkey
    split_ifs at hkey
    · rcases Dict.mem_keys_set.mp hkey with rfl | hkey
      · exact le_rfl
      · exact (h.keys key hkey).trans hlt.le
    · exact (h.keys key hkey).trans hlt.le
  · have hnone : pcap.filter (fun p => decide (ts ≤ p.ts)) = [] := by
      rw [List.filter_eq_nil_iff]
      intro p hp
      simpa using hearly p hp
    rw [hbucket, hstart, hnone]
    rfl
  · intro hsize
    rw [hbucket] at hsize
    exact absurd rfl hsize
  · have hempty : total (.empty : Dict UInt16 ℚ) = 0 := rfl
    rw [hbucket, hempty, add_zero, TptGraph.plotted, hbuckets, ← h.plotted]
    split_ifs with hsize
    · rw [Dict.sum_set_of_notMem _ hfresh, hold, h.openedAt_end hlt,
        sum_rates (sub_pos.mpr hlt).ne']
    · rw [total_of_size (not_not.mp hsize), add_zero, hold]

/-- What a packet adds to the bucket that is open. -/
theorem take_eq (s : Plot) (p : Packet) :
    (s.take d p).bucketStart = s.bucketStart ∧ (s.take d p).buckets = s.buckets ∧
      total (s.take d p).bucket = total s.bucket + bytes d [p] ∧
      ((s.take d p).bucket.size ≠ 0 → s.bucket.size ≠ 0 ∨ 0 < bytes d [p]) := by
  by_cases hcounted : counted d p
  · have hbytes : bytes d [p] = p.buf.length := by simp [bytes, hcounted]
    obtain ⟨u, hu, hdport⟩ := (Option.any_eq_true _ _).mp hcounted
    have htake : s.take d p = s.count u.sport p.buf.length := by
      rw [Plot.take, hu]
      exact if_pos (of_decide_eq_true hdport)
    rw [htake, hbytes, total_count]
    exact ⟨rfl, rfl, rfl, fun _ => .inr (bytes_pos hcounted)⟩
  · have hbytes : bytes d [p] = 0 := by simp [bytes, hcounted]
    have htake : s.take d p = s := by
      rw [Plot.take]
      cases hu : udpEth d p.buf with
      | none => rfl
      | some u =>
        refine if_neg fun hdport => hcounted ?_
        rw [counted, hu]
        exact decide_eq_true hdport
    rw [htake, hbytes, Nat.cast_zero, add_zero]
    exact ⟨rfl, rfl, rfl, .inl⟩

/-- A packet in the bucket that is open. -/
theorem Follows.take (h : Follows d os pcap s) (hstart : s.bucketStart ≤ p.ts)
    (hearly : p.ts < s.bucketStart + bktSz) : Follows d os (pcap ++ [p]) (s.take d p) := by
  obtain ⟨hs, hbuckets, htotal, hsize⟩ := take_eq (d := d) s p
  constructor
  · rw [hs, h.start]
  · rw [hs]
    intro q hq
    rcases List.mem_append.mp hq with hq | hq
    · exact h.early q hq
    · exact List.mem_singleton.mp hq ▸ hearly
  · rw [hs]
    exact h.opened
  · rw [hs, hbuckets]
    exact h.keys
  · rw [htotal, hs, h.bucket, List.filter_append, List.filter_singleton, decide_eq_true hstart,
      cond_true, bytes_concat]
    push_cast
    rfl
  · intro hbusy
    have hnonneg : (0 : ℚ) ≤ total s.bucket := by
      rw [h.bucket]
      exact Nat.cast_nonneg _
    rw [htotal]
    rcases hsize hbusy with hold | hnew
    · have hpos := h.busy hold
      positivity
    · have hpos : (0 : ℚ) < bytes d [p] := by exact_mod_cast hnew
      linarith
  · have hplotted := h.plotted
    rw [TptGraph.plotted] at hplotted ⊢
    rw [hbuckets, htotal, bytes_concat]
    push_cast
    linarith

/-- One turn of the loop. -/
theorem Follows.turn (h : Follows d (openings pcap) pcap s) (h₀ : 0 ≤ p.ts)
    (hsorted : ∀ q ∈ pcap, q.ts ≤ p.ts) :
    ∃ s', turn d s p = some s' ∧ Follows d (openings (pcap ++ [p])) (pcap ++ [p]) s' := by
  rw [openings_concat h₀, ← h.start]
  by_cases hclose : s.bucketStart + bktSz ≤ p.ts
  · obtain ⟨s', hs', hfollows, hstart⟩ := h.close hclose
    have hnow : p.ts < s'.bucketStart + bktSz := by
      rw [hstart, bktSz]
      linarith
    rw [if_pos hclose]
    refine ⟨s'.take d p, ?_, hfollows.take hstart.le hnow⟩
    rw [TptGraph.turn, if_pos (.inl hclose), hs']
    rfl
  · have hle : s.bucketStart ≤ p.ts := h.start ▸ lastOf_le h₀ hsorted
    have hset : s.bucketStart ≠ -1 := by
      intro hunset
      rw [hunset, bktSz] at hclose
      linarith
    rw [if_neg hclose]
    refine ⟨s.take d p, ?_, h.take hle (not_le.mp hclose)⟩
    rw [TptGraph.turn, if_neg (not_or.mpr ⟨hclose, hset⟩)]
    rfl

/-- The loop over a capture in the order of time ends, and keeps to its bytes. -/
theorem plot_follows (hsorted : pcap.Pairwise fun p q => p.ts ≤ q.ts)
    (h₀ : ∀ p ∈ pcap, 0 ≤ p.ts) :
    ∃ s, plot d pcap = some s ∧ Follows d (openings pcap) pcap s := by
  induction pcap using List.reverseRecOn with
  | nil => exact ⟨_, rfl, follows_new⟩
  | append_singleton pcap p ih =>
    obtain ⟨hpre, -, hlast⟩ := List.pairwise_append.mp hsorted
    obtain ⟨s, hs, hfollows⟩ := ih hpre fun q hq => h₀ q (List.mem_append_left _ hq)
    obtain ⟨s', hs', hnext⟩ := hfollows.turn (h₀ p (by simp)) fun q hq =>
      hlast q hq p (List.mem_singleton_self p)
    refine ⟨s', ?_, hnext⟩
    rw [plot, List.foldlM_append, ← plot, hs]
    simp [hs']

/-- The loop over a capture ends. All bytes are plotted just where none come in the bucket that
was opened last, which nothing ends. -/
theorem conserved_iff (d : Dpkt δ) (hsorted : pcap.Pairwise fun p q => p.ts ≤ q.ts)
    (hfirst : ∀ p ∈ pcap.head?, 0 ≤ p.ts) :
    ∃ s, plot d pcap = some s ∧
      (Conserved d pcap s ↔ ∀ p ∈ pcap, counted d p → p.ts < lastOf (openings pcap)) := by
  have h₀ : ∀ p ∈ pcap, 0 ≤ p.ts := by
    cases pcap with
    | nil => simp
    | cons first rest =>
      have hzero : 0 ≤ first.ts := hfirst first rfl
      have hrest := (List.pairwise_cons.mp hsorted).1
      intro p hp
      rcases List.mem_cons.mp hp with rfl | hp
      · exact hzero
      · exact hzero.trans (hrest p hp)
  obtain ⟨s, hs, hfollows⟩ := plot_follows (d := d) hsorted h₀
  refine ⟨s, hs, ?_⟩
  have hplotted := hfollows.plotted
  have hopen : Conserved d pcap s ↔
      bytes d (pcap.filter fun p => decide (s.bucketStart ≤ p.ts)) = 0 := by
    rw [Conserved, ← hplotted, hfollows.bucket, left_eq_add, Nat.cast_eq_zero]
  rw [hopen, bytes_eq_zero, ← hfollows.start]
  constructor
  · intro hnone p hp hcounted
    by_contra hlate
    have hin : p ∈ pcap.filter fun p => decide (s.bucketStart ≤ p.ts) :=
      List.mem_filter.mpr ⟨hp, decide_eq_true (not_lt.mp hlate)⟩
    exact hnone p hin hcounted
  · intro hearly p hp hcounted
    obtain ⟨hp, hlate⟩ := List.mem_filter.mp hp
    exact absurd (hearly p hp hcounted) (not_lt.mpr (of_decide_eq_true hlate))

/-- The ports of a segment whose header has `n` bytes. -/
def portsOf (n : ℕ) (data : List UInt8) : Option Ports :=
  match data with
  | a :: b :: c :: e :: _ =>
    if data.length < n then none
    else some ⟨a.toUInt16 * 256 + b.toUInt16, c.toUInt16 * 256 + e.toUInt16⟩
  | _ => none

def ipData (buf : List UInt8) : IpData (List UInt8) :=
  let data := buf.drop 20
  if buf.getD 9 0 = 17 then ((portsOf 8 data).map .udp).getD (.other data)
  else if buf.getD 9 0 = 6 then ((portsOf 20 data).map .tcp).getD (.other data)
  else .other data

/-- `dpkt` on captures of whole IPv4 packets with headers of 20 bytes. -/
def rawIp : Dpkt (List UInt8) where
  ethernet buf := if buf.length < 14 then none else some ()
  ip buf := if buf.length < 20 then none else some (ipData buf)
  udp := portsOf 8
  ip_short _ h := if_pos h

/-- A datagram from port 8000 to port 5001, without data. -/
def datagram : List UInt8 :=
  [69, 0, 0, 28, 0, 0, 0, 0, 64, 17, 0, 0, 10, 0, 0, 1, 10, 0, 0, 2] ++
    [31, 64, 19, 137, 0, 8, 0, 0]

/-- The second packet ends the bucket of the first, and nothing ends its own. -/
def twoPackets : List Packet := [⟨0, datagram⟩, ⟨1 / 5, datagram⟩]

theorem twoPackets_plotted : (plot rawIp twoPackets).isSome := by decide +kernel

/-- Of 56 bytes 28 are plotted. -/
theorem last_bucket_lost :
    (twoPackets.Pairwise fun p q => p.ts ≤ q.ts) ∧ (∀ p ∈ twoPackets.head?, 0 ≤ p.ts) ∧
      ∃ s, plot rawIp twoPackets = some s ∧ plotted (openings twoPackets) s = 28 ∧
        bytes rawIp twoPackets = 56 ∧ ¬ Conserved rawIp twoPackets s := by
  have hplotted : plotted (openings twoPackets) (Option.get _ twoPackets_plotted) = 28 := by
    decide +kernel
  have hbytes : bytes rawIp twoPackets = 56 := by decide +kernel
  refine ⟨by simp [twoPackets], by simp [twoPackets], _,
    (Option.some_get twoPackets_plotted).symm, hplotted, hbytes, fun hconserved => ?_⟩
  rw [Conserved, hplotted, hbytes] at hconserved
  exact absurd hconserved (by decide)

/-- The same with a packet after them that is not counted. -/
def threePackets : List Packet := twoPackets ++ [⟨1 / 2, []⟩]

theorem conserved_iff_threePackets :
    ∃ s, plot rawIp threePackets = some s ∧
      (Conserved rawIp threePackets s ↔
        ∀ p ∈ threePackets, counted rawIp p → p.ts < lastOf (openings threePackets)) :=
  conserved_iff rawIp (by simp [threePackets, twoPackets]; norm_num)
    (by simp [threePackets, twoPackets])

end TcpEyenet.TptGraph
