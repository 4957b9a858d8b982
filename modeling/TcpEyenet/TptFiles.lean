import TcpEyenet.TptGraph
import TcpEyenet.Lib.Fairness

/-! The files that the script writes, against what the capture says. -/
namespace TcpEyenet.TptGraph

/-- A line of the file of throughputs: the time since the first line, and a rate in Mbit/s for each
flow. -/
structure Row where
  offset : ℚ
  rates : List ℚ
  deriving DecidableEq

/-- The numbers in the files of throughputs and of fairness indices. -/
structure Files where
  tpt : List Row
  jain : List (ℚ × ℚ)
  deriving DecidableEq

/-- 8e-6. -/
def mbit : ℚ := 8 / 10 ^ 6

section Sorting

variable {α : Type} [LE α] [DecidableLE α] {xs ys : List α}

/-- `list.sort`. -/
def sort (xs : List α) : List α := xs.insertionSort (· ≤ ·)

theorem sort_perm (xs : List α) : (sort xs).Perm xs := List.perm_insertionSort _ xs

variable [Std.Total fun a b : α => a ≤ b] [IsTrans α fun a b => a ≤ b]
  [Std.Antisymm fun a b : α => a ≤ b]

omit [Std.Antisymm fun a b : α => a ≤ b] in
theorem sort_pairwise (xs : List α) : (sort xs).Pairwise (· ≤ ·) :=
  List.pairwise_insertionSort (· ≤ ·) xs

theorem sort_eq (h : xs.Perm ys) (hys : ys.Pairwise (· ≤ ·)) : sort xs = ys :=
  List.Perm.eq_of_pairwise' (sort_pairwise xs) hys ((sort_perm xs).trans h)

end Sorting

namespace Plot

def cell (s : Plot) (ts : ℚ) (x : UInt16) : ℚ :=
  match (s.buckets.get? ts).bind (·.get? x) with
  | some rate => rate * mbit
  | none => 0

/-- What follows the loop, up to the polygons; it raises if there is no bucket. -/
def files (s : Plot) : Option Files := do
  let timestamps := sort s.buckets.keys
  let flows := sort s.flows.keys
  let startTime ← timestamps.head?
  pure
    { tpt := timestamps.map fun ts => ⟨ts - startTime, flows.map (s.cell ts)⟩
      jain := timestamps.filterMap fun ts => (s.jain.get? ts).map fun j => (ts - startTime, j) }

end Plot

variable {δ : Type} (d : Dpkt δ)

/-- The flow that a packet is counted for. -/
def sportOf (p : Packet) : Option UInt16 :=
  (udpEth d p.buf).bind fun u => if u.dport ∈ dports then some u.sport else none

/-- The flows of the packets that are counted. -/
def sports (pcap : List Packet) : List UInt16 := (pcap.filterMap (sportOf d)).dedup

def flowBytes (x : UInt16) (pcap : List Packet) : ℕ :=
  ((pcap.filter fun p => sportOf d p = some x).map fun p => p.buf.length).sum

/-- The packets from `lo` on and before `hi`. -/
def within (lo hi : ℚ) (pcap : List Packet) : List Packet :=
  pcap.filter fun p => lo ≤ p.ts ∧ p.ts < hi

/-- The packets of the bucket that ends at `ts`. -/
def during (pcap : List Packet) (ts : ℚ) : List Packet :=
  within (openedAt (openings pcap) ts) ts pcap

/-- How many flows have packets in the bucket that ends at `ts`. -/
def active (pcap : List Packet) (ts : ℚ) : ℕ := (sports d (during pcap ts)).length

/-- The line of the bucket that ends at `ts`: what each flow of the capture has sent in it, over the
time it took. -/
def rowOf (pcap : List Packet) (startTime ts : ℚ) : Row :=
  ⟨ts - startTime, (sort (sports d pcap)).map fun x =>
    flowBytes d x (during pcap ts) / (ts - openedAt (openings pcap) ts) * mbit⟩

/-- The rates of the flows that have sent something. -/
def Row.shares (row : Row) : List ℚ := row.rates.filter fun rate => rate ≠ 0

/-- What the files should hold: a line for each opening that ends a bucket with packets, and an
index where as many flows are active as in the bucket before. -/
def report (pcap : List Packet) : Option Files :=
  let ends := (openings pcap).filter fun ts => active d pcap ts ≠ 0
  ends.head?.map fun startTime =>
    { tpt := ends.map (rowOf d pcap startTime)
      jain :=
        (ends.filter fun ts => active d pcap (openedAt (openings pcap) ts) = active d pcap ts).map
          fun ts => (ts - startTime, Fairness.index (rowOf d pcap startTime ts).shares) }

variable {d} {s s' : Plot} {p : Packet} {pcap pcap' : List Packet} {os : List ℚ} {ts c : ℚ}
  {x : UInt16} {bucket : Dict UInt16 ℚ}

section Flows

theorem mem_sports : x ∈ sports d pcap ↔ ∃ p ∈ pcap, sportOf d p = some x := by
  simp [sports]

theorem mem_sports_concat :
    x ∈ sports d (pcap ++ [p]) ↔ x ∈ sports d pcap ∨ sportOf d p = some x := by
  simp [sports]

theorem sports_nodup : (sports d pcap).Nodup := List.nodup_dedup _

theorem flowBytes_concat : flowBytes d x (pcap ++ [p]) =
    flowBytes d x pcap + if sportOf d p = some x then p.buf.length else 0 := by
  by_cases hx : sportOf d p = some x <;> simp [flowBytes, hx]

theorem flowBytes_eq_zero (h : x ∉ sports d pcap) : flowBytes d x pcap = 0 := by
  have hnone : pcap.filter (fun p => sportOf d p = some x) = [] := by
    rw [List.filter_eq_nil_iff]
    intro p hp hx
    exact h (mem_sports.mpr ⟨p, hp, of_decide_eq_true hx⟩)
  rw [flowBytes, hnone]
  rfl

theorem counted_of_sportOf (h : sportOf d p = some x) : counted d p := by
  obtain ⟨u, hu, hx⟩ := Option.bind_eq_some_iff.mp h
  rw [counted, hu]
  split_ifs at hx with hport
  exact decide_eq_true hport

theorem flowBytes_pos (h : x ∈ sports d pcap) : 0 < flowBytes d x pcap := by
  obtain ⟨p, hp, hx⟩ := mem_sports.mp h
  have hlen : 0 < p.buf.length := bytes_pos (counted_of_sportOf hx)
  refine hlen.trans_le (List.le_sum_of_mem (List.mem_map.mpr ⟨p, ?_, rfl⟩))
  exact List.mem_filter.mpr ⟨hp, decide_eq_true hx⟩

end Flows

/-- A packet goes to the flow it is counted for, if any. -/
theorem take_eq_count (s : Plot) (p : Packet) :
    s.take d p = match sportOf d p with
      | some x => s.count x p.buf.length
      | none => s := by
  rw [Plot.take, sportOf]
  cases udpEth d p.buf with
  | none => rfl
  | some u =>
    simp only [Option.bind_some]
    split_ifs <;> rfl

theorem count_get? (s : Plot) (x y : UInt16) (len : ℕ) :
    (s.count x len).bucket.get? y =
      if y = x then some ((s.bucket.get? x).getD 0 + len) else s.bucket.get? y := by
  rw [Plot.count, Dict.get?_set]
  by_cases hx : x ∉ s.bucket.keys
  · rw [if_pos hx, Dict.get?_set, Dict.get?_set, if_pos rfl, Dict.get?_eq_none hx]
    by_cases hy : y = x
    · rw [if_pos hy, if_pos hy, Option.getD_some, Option.getD_none]
    · rw [if_neg hy, if_neg hy, if_neg hy]
  · rw [if_neg hx]

/-- The bucket that ended at `ts`. -/
def Plot.ended (s : Plot) (ts : ℚ) : Dict UInt16 ℚ := (s.buckets.get? ts).getD .empty

/-- A bucket has what each flow has sent in some packets, over `c`. -/
def Tells (d : Dpkt δ) (pcap : List Packet) (c : ℚ) (bucket : Dict UInt16 ℚ) : Prop :=
  ∀ x, bucket.get? x = if x ∈ sports d pcap then some (flowBytes d x pcap / c) else none

theorem Tells.mem_keys (h : Tells d pcap c bucket) : x ∈ bucket.keys ↔ x ∈ sports d pcap := by
  rw [Dict.mem_keys_iff, h x]
  split_ifs with hx <;> simp [hx]

theorem Tells.keys_perm (h : Tells d pcap c bucket) : bucket.keys.Perm (sports d pcap) :=
  (List.perm_ext_iff_of_nodup bucket.nodup sports_nodup).mpr fun _ => h.mem_keys

theorem Tells.size (h : Tells d pcap c bucket) : bucket.size = (sports d pcap).length := by
  rw [← h.keys_perm.length_eq, Dict.keys, List.length_map, Dict.size]

theorem tells_empty (h : sports d pcap = []) : Tells d pcap c .empty := by
  intro x
  rw [h, if_neg List.not_mem_nil]
  rfl

theorem Tells.scale (h : Tells d pcap 1 bucket) (c : ℚ) :
    Tells d pcap c (bucket.map (· / c)) := by
  intro x
  rw [Dict.get?_map, h x]
  split_ifs with hx <;> simp

/-- The values of a bucket, in some order. -/
theorem Tells.values_perm (h : Tells d pcap c bucket) :
    bucket.values.Perm ((sports d pcap).map fun x => (flowBytes d x pcap / c : ℚ)) := by
  have hvalues : bucket.values.map some =
      (bucket.keys.map fun x => (flowBytes d x pcap / c : ℚ)).map some := by
    rw [Dict.values_eq, List.map_map]
    refine List.map_congr_left fun x hx => ?_
    rw [h x, if_pos (h.mem_keys.mp hx), Function.comp_apply]
  rw [List.map_injective_iff.mpr (Option.some_injective _) hvalues]
  exact h.keys_perm.map _

/-- The index that the script computes is Jain's. -/
theorem Tells.jainIndex (h : Tells d pcap c bucket) (hc : 0 < c) (hne : sports d pcap ≠ []) :
    jainIndex bucket.values =
      some (Fairness.index ((sports d pcap).map fun x => (flowBytes d x pcap / c : ℚ))) := by
  have hperm := h.values_perm
  have hshares : (sports d pcap).map (fun x => (flowBytes d x pcap / c : ℚ)) ≠ [] := by
    simpa using hne
  have hpos := Fairness.length_mul_pos hshares (by
    intro r hr
    obtain ⟨x, hx, rfl⟩ := List.mem_map.mp hr
    have hbytes : (0 : ℚ) < flowBytes d x pcap := by exact_mod_cast flowBytes_pos hx
    positivity)
  have hvalues : bucket.values ≠ [] := fun hnil => hshares (hnil ▸ hperm).nil_eq.symm
  rw [TptGraph.jainIndex, if_pos hvalues, divide, hperm.length_eq, (hperm.map _).sum_eq,
    if_neg hpos.ne', hperm.sum_eq]
  rfl

section Recorded

variable {lo hi : ℚ} {o : ℚ}

theorem within_concat (h : hi ≤ p.ts) : within lo hi (pcap ++ [p]) = within lo hi pcap := by
  simp [within, not_lt.mpr h]

theorem within_of_early (h : ∀ p ∈ pcap, p.ts < hi) :
    within lo hi pcap = pcap.filter fun p => decide (lo ≤ p.ts) := by
  refine List.filter_congr fun p hp => ?_
  simp [h p hp]

theorem openedAt_cases (os : List ℚ) (ts : ℚ) :
    openedAt os ts = -1 ∨ openedAt os ts ∈ os ∧ openedAt os ts < ts := by
  rw [openedAt, lastOf]
  cases hlast : (os.filter fun o => decide (o < ts)).getLast? with
  | none => exact .inl rfl
  | some o =>
    obtain ⟨ho, hlt⟩ := List.mem_filter.mp (List.mem_of_getLast? hlast)
    exact .inr ⟨ho, of_decide_eq_true hlt⟩

/-- The end of a bucket, with all that it writes. -/
theorem close_some (h : s.close ts = some s') (hlt : s.bucketStart < ts) :
    ∃ bucket, bucket = s.bucket.map (· / (ts - s.bucketStart)) ∧
      s'.bucketStart = ts ∧ s'.bucket = .empty ∧ s'.prevBucket = bucket ∧ s'.flows = s.flows ∧
      s'.buckets = (if bucket.size ≠ 0 then s.buckets.set ts bucket else s.buckets) ∧
      ∀ o, s'.jain.get? o =
        if o = ts ∧ s.prevBucket.size = bucket.size then jainIndex bucket.values
        else s.jain.get? o := by
  have hscale : scale s.bucket (ts - s.bucketStart) =
      some (s.bucket.map (· / (ts - s.bucketStart))) := if_neg fun h => (sub_pos.mpr hlt).ne' h.2
  rw [Plot.close, hscale, Option.bind_eq_bind, Option.bind_some] at h
  generalize s.bucket.map (· / (ts - s.bucketStart)) = bucket at h ⊢
  refine ⟨bucket, rfl, ?_⟩
  by_cases hsize : s.prevBucket.size = bucket.size
  · rw [if_neg (not_not.mpr hsize)] at h
    obtain ⟨jain, hjain, hs'⟩ := Option.bind_eq_some_iff.mp h
    obtain ⟨j, hj, rfl⟩ := Option.map_eq_some_iff.mp hjain
    obtain rfl := Option.some.inj hs'
    refine ⟨rfl, rfl, rfl, rfl, rfl, fun o => ?_⟩
    rw [Dict.get?_set, hj]
    exact if_congr (and_iff_left hsize).symm rfl rfl
  · rw [if_pos hsize] at h
    obtain rfl := Option.some.inj h
    exact ⟨rfl, rfl, rfl, rfl, rfl, fun o => (if_neg fun ho => hsize ho.2).symm⟩

/-- What the loop has recorded of the buckets that have ended, and of the one that is open. -/
structure Details (d : Dpkt δ) (os : List ℚ) (pcap : List Packet) (s : Plot) : Prop where
  gaps : os.Pairwise fun o o' => o + bktSz ≤ o'
  flows : ∀ x, x ∈ s.flows.keys ↔ x ∈ sports d pcap
  bucket : Tells d (pcap.filter fun p => decide (s.bucketStart ≤ p.ts)) 1 s.bucket
  keys : ∀ ts, ts ∈ s.buckets.keys ↔ ts ∈ os ∧ (s.ended ts).size ≠ 0
  ended : ∀ ts ∈ os, Tells d (within (openedAt os ts) ts pcap) (ts - openedAt os ts) (s.ended ts)
  prev : s.prevBucket = s.ended s.bucketStart
  jain : ∀ ts ∈ os, s.jain.get? ts =
    if (s.ended (openedAt os ts)).size = (s.ended ts).size then jainIndex (s.ended ts).values
    else none
  fresh : ∀ ts ∉ os, s.jain.get? ts = none

theorem details_new : Details d [] [] .new := by
  constructor
  case gaps => exact .nil
  case flows =>
    intro x
    simp [sports, Plot.new, Dict.keys, Dict.empty]
  case bucket => exact tells_empty rfl
  case keys =>
    intro ts
    simp [Plot.new, Dict.keys, Dict.empty]
  case ended =>
    intro ts hts
    exact absurd hts List.not_mem_nil
  case prev => rfl
  case jain =>
    intro ts hts
    exact absurd hts List.not_mem_nil
  case fresh =>
    intro ts _
    rfl

/-- A packet in the open bucket. -/
theorem Details.take (h : Details d os pcap s) (hopened : ∀ o ∈ os, o ≤ s.bucketStart)
    (hstart : s.bucketStart ≤ p.ts) : Details d os (pcap ++ [p]) (s.take d p) := by
  have hold : ∀ ts ∈ os, within (openedAt os ts) ts (pcap ++ [p]) =
      within (openedAt os ts) ts pcap := fun ts hts =>
    within_concat ((hopened ts hts).trans hstart)
  have hopen : (pcap ++ [p]).filter (fun p => decide (s.bucketStart ≤ p.ts)) =
      pcap.filter (fun p => decide (s.bucketStart ≤ p.ts)) ++ [p] := by
    simp [hstart]
  rw [take_eq_count]
  cases hp : sportOf d p with
  | none =>
    refine { h with flows := fun x => ?_, bucket := fun x => ?_, ended := fun ts hts => ?_ }
    · rw [h.flows, mem_sports_concat, hp]
      simp
    · rw [h.bucket x, hopen]
      simp only [mem_sports_concat, flowBytes_concat, hp, reduceCtorEq, or_false, if_false,
        add_zero]
    · exact (hold ts hts).symm ▸ h.ended ts hts
  | some y =>
    refine
      { h with
        flows := fun x => ?_
        bucket := fun x => ?_
        keys := h.keys
        ended := fun ts hts => ?_
        prev := h.prev
        jain := h.jain }
    · rw [mem_sports_concat, hp, Option.some.injEq, ← h.flows]
      simp only [Plot.count]
      split_ifs with hy
      · constructor
        · exact .inl
        · rintro (hx | rfl)
          · exact hx
          · exact hy
      · rw [Dict.mem_keys_set, or_comm, eq_comm]
    · have hb := h.bucket x
      change (s.count y p.buf.length).bucket.get? x =
        if x ∈ sports d ((pcap ++ [p]).filter fun q => decide (s.bucketStart ≤ q.ts)) then
          some (flowBytes d x ((pcap ++ [p]).filter fun q => decide (s.bucketStart ≤ q.ts)) / 1 : ℚ)
        else none
      rw [count_get?, hopen]
      simp only [mem_sports_concat, flowBytes_concat, hp, Option.some.injEq]
      by_cases hx : x = y
      · rw [if_pos hx, if_pos (.inr hx.symm), if_pos hx.symm, ← hx, hb]
        split_ifs with hmem
        · simp
        · simp [flowBytes_eq_zero hmem]
      · rw [if_neg hx, hb, if_neg (Ne.symm hx), add_zero]
        simp [Ne.symm hx]
    · exact (hold ts hts).symm ▸ h.ended ts hts

theorem Details.fresh_key (h : Details d os pcap s) (hts : ts ∉ os) : s.ended ts = .empty := by
  have hkey : ts ∉ s.buckets.keys := fun hmem => hts ((h.keys ts).mp hmem).1
  rw [Plot.ended, Dict.get?_eq_none hkey]
  rfl

theorem Details.ended_set (h : Details d os pcap s) (hts : ts ∉ os)
    (hbuckets : s'.buckets = if bucket.size ≠ 0 then s.buckets.set ts bucket else s.buckets)
    (o : ℚ) : s'.ended o = if o = ts then bucket else s.ended o := by
  rw [Plot.ended, hbuckets]
  by_cases hsize : bucket.size = 0
  · rw [if_neg (not_not.mpr hsize), ← Plot.ended]
    by_cases ho : o = ts
    · rw [if_pos ho, ho, h.fresh_key hts, Dict.eq_empty hsize]
    · rw [if_neg ho]
  · rw [if_pos hsize, Dict.get?_set]
    by_cases ho : o = ts
    · rw [if_pos ho, if_pos ho, Option.getD_some]
    · rw [if_neg ho, if_neg ho, Plot.ended]

/-- A bucket without packets gets no entry. -/
theorem Details.keys_set (h : Details d os pcap s) (hts : ts ∉ os)
    (hbuckets : s'.buckets = if bucket.size ≠ 0 then s.buckets.set ts bucket else s.buckets)
    (o : ℚ) : o ∈ s'.buckets.keys ↔ o ∈ os ++ [ts] ∧ (s'.ended o).size ≠ 0 := by
  have hkey : ts ∉ s.buckets.keys := fun hmem => hts ((h.keys ts).mp hmem).1
  rw [h.ended_set hts hbuckets, hbuckets, List.mem_append, List.mem_singleton]
  by_cases ho : o = ts
  · subst ho
    simp only [if_true, or_true, true_and]
    split_ifs with hsize
    · simp [Dict.mem_keys_set, hsize]
    · simp [hkey, not_not.mp hsize]
  · simp only [ho, if_false, or_false, ← h.keys o]
    split_ifs with hsize
    · simp [Dict.mem_keys_set, ho]
    · rfl

/-- The end of a bucket. -/
theorem Details.close (h : Details d os pcap s) (hf : Follows d os pcap s)
    (hts : s.bucketStart + bktSz ≤ ts) (h₀ : 0 ≤ ts) (hclose : s.close ts = some s') :
    Details d (os ++ [ts]) pcap s' := by
  have hlt : s.bucketStart < ts := by
    rw [bktSz] at hts
    linarith
  have hnew : ts ∉ os := fun hmem => absurd (hf.opened ts hmem) (not_le.mpr hlt)
  have hstart : openedAt (os ++ [ts]) ts = s.bucketStart := hf.openedAt_end hlt
  have hold : ∀ o ∈ os, openedAt (os ++ [ts]) o = openedAt os o := fun o ho =>
    openedAt_concat ((hf.opened o ho).trans hlt.le)
  have hbefore : ∀ o ∈ os, openedAt os o ≠ ts := by
    intro o ho heq
    rcases openedAt_cases os o with hnone | ⟨hmem, -⟩
    · rw [heq] at hnone
      linarith
    · exact hnew (heq ▸ hmem)
  obtain ⟨bucket, hb, hs', hbucket, hprev, hflows, hbuckets, hjain⟩ := close_some hclose hlt
  have hended : ∀ o, s'.ended o = if o = ts then bucket else s.ended o := h.ended_set hnew hbuckets
  have hsame : ∀ o ∈ os, s'.ended o = s.ended o := by
    intro o ho
    have hne : o ≠ ts := fun heq => hnew (heq ▸ ho)
    rw [hended, if_neg hne]
  have htold : Tells d (within s.bucketStart ts pcap) (ts - s.bucketStart) bucket := by
    rw [hb, within_of_early fun p hp => (hf.early p hp).trans_le hts]
    exact h.bucket.scale _
  constructor
  case gaps =>
    refine List.pairwise_append.mpr ⟨h.gaps, List.pairwise_singleton _ _, fun o ho o' ho' => ?_⟩
    rw [List.mem_singleton.mp ho']
    exact (add_le_add_left (hf.opened o ho) bktSz).trans hts
  case flows =>
    rw [hflows]
    exact h.flows
  case bucket =>
    have hnone : pcap.filter (fun p => decide (s'.bucketStart ≤ p.ts)) = [] := by
      rw [List.filter_eq_nil_iff, hs']
      intro p hp
      simpa using (hf.early p hp).trans_le hts
    rw [hnone, hbucket]
    exact tells_empty rfl
  case keys => exact h.keys_set hnew hbuckets
  case ended =>
    intro o ho
    rcases List.mem_append.mp ho with ho | ho
    · rw [hsame o ho, hold o ho]
      exact h.ended o ho
    · rw [List.mem_singleton.mp ho, hended, if_pos rfl, hstart]
      exact htold
  case prev => rw [hprev, hs', hended, if_pos rfl]
  case jain =>
    intro o ho
    rw [hjain]
    rcases List.mem_append.mp ho with ho | ho
    · have hne : o ≠ ts := fun heq => hnew (heq ▸ ho)
      rw [if_neg fun h => hne h.1, h.jain o ho, hold o ho, hsame o ho, hended,
        if_neg (hbefore o ho)]
    · rw [List.mem_singleton.mp ho, hstart, hended ts, if_pos rfl, hended, if_neg hlt.ne, ← h.prev,
        h.fresh ts hnew]
      exact if_congr (and_iff_right rfl) rfl rfl
  case fresh =>
    intro o ho
    rw [List.mem_append, List.mem_singleton, not_or] at ho
    rw [hjain, if_neg fun h => ho.2 h.1, h.fresh o ho.1]

/-- One turn of the loop. -/
theorem Details.turn (h : Details d (openings pcap) pcap s) (hf : Follows d (openings pcap) pcap s)
    (h₀ : 0 ≤ p.ts) (hsorted : ∀ q ∈ pcap, q.ts ≤ p.ts) (hturn : turn d s p = some s') :
    Details d (openings (pcap ++ [p])) (pcap ++ [p]) s' := by
  rw [openings_concat h₀, ← hf.start]
  by_cases hclose : s.bucketStart + bktSz ≤ p.ts
  · have hlt : s.bucketStart < p.ts := by
      rw [bktSz] at hclose
      linarith
    rw [TptGraph.turn, if_pos (.inl hclose)] at hturn
    obtain ⟨s₁, hs₁, hs'⟩ := Option.bind_eq_some_iff.mp hturn
    obtain rfl := Option.some.inj hs'
    have hstart : s₁.bucketStart = p.ts := (close_some hs₁ hlt).choose_spec.2.1
    rw [if_pos hclose]
    refine (h.close hf hclose h₀ hs₁).take ?_ hstart.le
    intro o ho
    rw [hstart]
    rcases List.mem_append.mp ho with ho | ho
    · exact (hf.opened o ho).trans hlt.le
    · exact (List.mem_singleton.mp ho).le
  · have hset : s.bucketStart ≠ -1 := by
      intro hunset
      rw [hunset, bktSz] at hclose
      linarith
    rw [TptGraph.turn, if_neg (not_or.mpr ⟨hclose, hset⟩)] at hturn
    obtain rfl := Option.some.inj hturn
    rw [if_neg hclose]
    exact h.take hf.opened (hf.start ▸ lastOf_le h₀ hsorted)

theorem plot_details (hsorted : pcap.Pairwise fun p q => p.ts ≤ q.ts)
    (h₀ : ∀ p ∈ pcap, 0 ≤ p.ts) :
    ∃ s, plot d pcap = some s ∧ Details d (openings pcap) pcap s := by
  induction pcap using List.reverseRecOn with
  | nil => exact ⟨_, rfl, details_new⟩
  | append_singleton pcap p ih =>
    obtain ⟨hpre, -, hlast⟩ := List.pairwise_append.mp hsorted
    have hlate : ∀ q ∈ pcap, q.ts ≤ p.ts := fun q hq => hlast q hq p (List.mem_singleton_self p)
    have hfirst : ∀ q ∈ pcap, 0 ≤ q.ts := fun q hq => h₀ q (List.mem_append_left _ hq)
    have hp : 0 ≤ p.ts := h₀ p (by simp)
    obtain ⟨s, hs, hdetails⟩ := ih hpre hfirst
    obtain ⟨s₁, hs₁, hfollows⟩ := plot_follows (d := d) hpre hfirst
    obtain rfl : s = s₁ := Option.some.inj (hs.symm.trans hs₁)
    obtain ⟨s', hs', -⟩ := hfollows.turn hp hlate
    refine ⟨s', ?_, hdetails.turn hfollows hp hlate hs'⟩
    rw [plot, List.foldlM_append, ← plot, hs]
    simp [hs']

end Recorded

section Report

variable {startTime : ℚ}

/-- The opening of a bucket comes before its end. -/
theorem openedAt_lt (h₀ : ∀ p ∈ pcap, 0 ≤ p.ts) (hts : ts ∈ openings pcap) :
    openedAt (openings pcap) ts < ts := by
  rcases openedAt_cases (openings pcap) ts with hnone | ⟨-, hlt⟩
  · obtain ⟨p, hp, hpts⟩ := mem_openings hts
    have hnonneg := h₀ p hp
    rw [hnone, ← hpts]
    linarith
  · exact hlt

theorem sports_during (ts : ℚ) : sports d (during pcap ts) ⊆ sports d pcap := by
  intro x hx
  obtain ⟨p, hp, hport⟩ := mem_sports.mp hx
  exact mem_sports.mpr ⟨p, List.mem_of_mem_filter hp, hport⟩

/-- The rates of a line that are not 0 are those of the flows in its bucket. -/
theorem shares_perm (hlt : openedAt (openings pcap) ts < ts) :
    (rowOf d pcap startTime ts).shares.Perm
      (((sports d (during pcap ts)).map fun x =>
        (flowBytes d x (during pcap ts) / (ts - openedAt (openings pcap) ts) : ℚ)).map
          (· * mbit)) := by
  have hc : ts - openedAt (openings pcap) ts ≠ 0 := (sub_pos.mpr hlt).ne'
  rw [Row.shares, rowOf, List.filter_map, List.map_map]
  refine List.Perm.map _ ((List.perm_ext_iff_of_nodup (List.Nodup.filter _ ?_) sports_nodup).mpr ?_)
  · exact (sort_perm _).nodup_iff.mpr sports_nodup
  · intro x
    rw [List.mem_filter, (sort_perm _).mem_iff, Function.comp_apply, decide_eq_true_eq]
    constructor
    · rintro ⟨-, hrate⟩
      by_contra hx
      rw [flowBytes_eq_zero hx] at hrate
      simp at hrate
    · intro hx
      have hbytes : (flowBytes d x (during pcap ts) : ℚ) ≠ 0 := by
        exact_mod_cast (flowBytes_pos hx).ne'
      exact ⟨sports_during ts hx, mul_ne_zero (div_ne_zero hbytes hc) (by norm_num [mbit])⟩

variable (h : Details d (openings pcap) pcap s)

include h

theorem Details.active_eq (hts : ts ∈ openings pcap) : active d pcap ts = (s.ended ts).size :=
  (h.ended ts hts).size.symm

theorem Details.active_before (h₀ : ∀ p ∈ pcap, 0 ≤ p.ts) (ts : ℚ) :
    active d pcap (openedAt (openings pcap) ts) =
      (s.ended (openedAt (openings pcap) ts)).size := by
  rcases openedAt_cases (openings pcap) ts with hnone | ⟨hmem, -⟩
  · have hnever : (-1 : ℚ) ∉ openings pcap := by
      intro hmem
      obtain ⟨p, hp, hpts⟩ := mem_openings hmem
      have hnonneg := h₀ p hp
      linarith
    have hduring : during pcap (-1) = [] := by
      rw [during, within, List.filter_eq_nil_iff]
      intro p hp hearly
      have hnonneg := h₀ p hp
      have hlt := (of_decide_eq_true hearly).2
      linarith
    rw [hnone, h.fresh_key hnever, active, hduring]
    rfl
  · exact h.active_eq hmem

theorem Details.timestamps : sort s.buckets.keys =
    (openings pcap).filter fun ts => active d pcap ts ≠ 0 := by
  have hlt : (openings pcap).Pairwise (· < ·) := h.gaps.imp fun hgap => by
    rw [bktSz] at hgap
    linarith
  have hperm : s.buckets.keys.Perm
      ((openings pcap).filter fun ts => active d pcap ts ≠ 0) := by
    have hnodup : (openings pcap).Nodup := hlt.imp ne_of_lt
    refine (List.perm_ext_iff_of_nodup s.buckets.nodup (hnodup.filter _)).mpr fun ts => ?_
    rw [← Dict.keys, h.keys, List.mem_filter, decide_eq_true_eq]
    exact and_congr_right fun hts => by rw [h.active_eq hts]
  exact sort_eq hperm ((hlt.imp le_of_lt).filter _)

theorem Details.flows_sorted : sort s.flows.keys = sort (sports d pcap) := by
  have hperm : s.flows.keys.Perm (sports d pcap) :=
    (List.perm_ext_iff_of_nodup s.flows.nodup sports_nodup).mpr h.flows
  exact sort_eq (hperm.trans (sort_perm _).symm) (sort_pairwise _)

theorem Details.cell (hts : ts ∈ openings pcap) (x : UInt16) :
    s.cell ts x =
      flowBytes d x (during pcap ts) / (ts - openedAt (openings pcap) ts) * mbit := by
  have hget : (s.buckets.get? ts).bind (·.get? x) = (s.ended ts).get? x := by
    rw [Plot.ended]
    cases s.buckets.get? ts <;> rfl
  rw [Plot.cell, hget, h.ended ts hts x, ← during]
  by_cases hx : x ∈ sports d (during pcap ts)
  · rw [if_pos hx]
  · rw [if_neg hx, flowBytes_eq_zero hx]
    simp

/-- An index is recorded where as many flows are active as before, and it is that of the line. -/
theorem Details.index (h₀ : ∀ p ∈ pcap, 0 ≤ p.ts) (hts : ts ∈ openings pcap)
    (hbusy : active d pcap ts ≠ 0) (startTime : ℚ) :
    s.jain.get? ts =
      if active d pcap (openedAt (openings pcap) ts) = active d pcap ts then
        some (Fairness.index (rowOf d pcap startTime ts).shares)
      else none := by
  have hlt := openedAt_lt h₀ hts
  have hne : sports d (during pcap ts) ≠ [] := fun hnil => hbusy (by rw [active, hnil]; rfl)
  rw [h.jain ts hts, h.active_before h₀, h.active_eq hts,
    (h.ended ts hts).jainIndex (sub_pos.mpr hlt) hne, Fairness.index_perm (shares_perm hlt),
    Fairness.index_map_mul (by norm_num [mbit])]
  rfl

end Report

/-- In a capture in the order of time no packet is before the first. -/
theorem ts_nonneg (hsorted : pcap.Pairwise fun p q => p.ts ≤ q.ts)
    (hfirst : ∀ p ∈ pcap.head?, 0 ≤ p.ts) : ∀ p ∈ pcap, 0 ≤ p.ts := by
  cases pcap with
  | nil => simp
  | cons first rest =>
    have hzero : 0 ≤ first.ts := hfirst first rfl
    intro p hp
    rcases List.mem_cons.mp hp with rfl | hp
    · exact hzero
    · exact hzero.trans ((List.pairwise_cons.mp hsorted).1 p hp)

theorem Details.files (h : Details d (openings pcap) pcap s) (h₀ : ∀ p ∈ pcap, 0 ≤ p.ts) :
    s.files = report d pcap := by
  rw [Plot.files, report, h.timestamps, h.flows_sorted]
  have hends : ∀ ts ∈ (openings pcap).filter fun ts => active d pcap ts ≠ 0,
      ts ∈ openings pcap ∧ active d pcap ts ≠ 0 := fun ts hts =>
    (List.mem_filter.mp hts).imp_right of_decide_eq_true
  generalize (openings pcap).filter (fun ts => active d pcap ts ≠ 0) = ends at hends
  cases ends.head? with
  | none => rfl
  | some startTime =>
    refine congrArg some (congrArg₂ Files.mk (List.map_congr_left fun ts hts => ?_) ?_)
    · rw [rowOf]
      exact congrArg _ (List.map_congr_left fun x _ => h.cell (hends ts hts).1 x)
    · rw [← List.filterMap_eq_map', List.filterMap_filter]
      refine List.filterMap_congr fun ts hts => ?_
      obtain ⟨hopening, hbusy⟩ := hends ts hts
      rw [h.index h₀ hopening hbusy startTime]
      by_cases hsame : active d pcap (openedAt (openings pcap) ts) = active d pcap ts
      · simp [hsame]
      · simp [hsame]

/-- On every capture in the order of time the script writes what the capture says: for each bucket
with packets a line with what each flow sent in it over the time it took, and Jain's index of the
line where as many flows were active as before. It raises if there is no such bucket. -/
theorem files_exact (d : Dpkt δ) (hsorted : pcap.Pairwise fun p q => p.ts ≤ q.ts)
    (hfirst : ∀ p ∈ pcap.head?, 0 ≤ p.ts) :
    ∃ s, plot d pcap = some s ∧ s.files = report d pcap := by
  have h₀ := ts_nonneg hsorted hfirst
  obtain ⟨s, hs, hdetails⟩ := plot_details (d := d) hsorted h₀
  exact ⟨s, hs, hdetails.files h₀⟩

/-- A datagram of 56 bytes from port 8001. -/
def longer : List UInt8 := datagram.set 21 65 ++ List.replicate 28 0

/-- Two buckets with packets of two flows, and a packet that ends the second. -/
def twoFlows : List Packet :=
  [⟨0, datagram⟩, ⟨0, longer⟩, ⟨1 / 5, datagram⟩, ⟨1 / 5, longer⟩, ⟨1 / 2, []⟩]

theorem files_exact_twoFlows :
    (report rawIp twoFlows).map (·.jain) = some [(3 / 10, 9 / 10)] ∧
      ∃ s, plot rawIp twoFlows = some s ∧ s.files = report rawIp twoFlows :=
  ⟨by decide +kernel, files_exact rawIp (by simp [twoFlows]; norm_num) (by simp [twoFlows])⟩

theorem report_row {g : Files} (hg : report d pcap = some g) (h₀ : ∀ p ∈ pcap, 0 ≤ p.ts)
    {line : ℚ × ℚ} (hline : line ∈ g.jain) :
    ∃ row ∈ g.tpt, row.offset = line.1 ∧ row.shares ≠ [] ∧ (∀ rate ∈ row.shares, 0 < rate) ∧
      line.2 = Fairness.index row.shares := by
  obtain ⟨startTime, -, rfl⟩ := Option.map_eq_some_iff.mp hg
  obtain ⟨ts, hts, rfl⟩ := List.mem_map.mp hline
  obtain ⟨hopening, hbusy⟩ := List.mem_filter.mp (List.mem_of_mem_filter hts)
  have hlt := openedAt_lt h₀ hopening
  have hperm : (rowOf d pcap startTime ts).shares.Perm _ := shares_perm hlt
  refine ⟨_, List.mem_map.mpr ⟨ts, List.mem_of_mem_filter hts, rfl⟩, rfl, ?_, ?_, rfl⟩
  · intro hnil
    have hlen := hperm.length_eq
    rw [hnil, List.length_map, List.length_map, List.length_nil] at hlen
    exact of_decide_eq_true hbusy hlen.symm
  · intro rate hrate
    obtain ⟨r, hr, rfl⟩ := List.mem_map.mp (hperm.mem_iff.mp hrate)
    obtain ⟨x, hx, rfl⟩ := List.mem_map.mp hr
    have hbytes : (0 : ℚ) < flowBytes d x (during pcap ts) := by exact_mod_cast flowBytes_pos hx
    have hc := sub_pos.mpr hlt
    have hmbit : 0 < mbit := by norm_num [mbit]
    positivity

/-- Every index that the script writes lies between 1/n and 1 for the n active flows of the line at
the same time, and is 1 just where these have the same rate. -/
theorem indices_fair (d : Dpkt δ) (hsorted : pcap.Pairwise fun p q => p.ts ≤ q.ts)
    (hfirst : ∀ p ∈ pcap.head?, 0 ≤ p.ts) :
    ∃ s, plot d pcap = some s ∧ ∀ g ∈ s.files, ∀ line ∈ g.jain,
      ∃ row ∈ g.tpt, row.offset = line.1 ∧ (row.shares.length : ℚ)⁻¹ ≤ line.2 ∧ line.2 ≤ 1 ∧
        (line.2 = 1 ↔ ∀ a ∈ row.shares, ∀ b ∈ row.shares, a = b) := by
  have h₀ := ts_nonneg hsorted hfirst
  obtain ⟨s, hs, hdetails⟩ := plot_details (d := d) hsorted h₀
  refine ⟨s, hs, fun g hg line hline => ?_⟩
  rw [hdetails.files h₀] at hg
  obtain ⟨row, hrow, hoffset, hne, hpos, hindex⟩ := report_row hg h₀ hline
  rw [hindex]
  exact ⟨row, hrow, hoffset, Fairness.inv_length_le_index hne hpos,
    Fairness.index_le_one hne hpos, Fairness.index_eq_one_iff hne hpos⟩

theorem indices_fair_twoFlows :
    ∃ s, plot rawIp twoFlows = some s ∧ ∀ g ∈ s.files, ∀ line ∈ g.jain,
      ∃ row ∈ g.tpt, row.offset = line.1 ∧ (row.shares.length : ℚ)⁻¹ ≤ line.2 ∧ line.2 ≤ 1 ∧
        (line.2 = 1 ↔ ∀ a ∈ row.shares, ∀ b ∈ row.shares, a = b) :=
  indices_fair rawIp (by simp [twoFlows]; norm_num) (by simp [twoFlows])

end TcpEyenet.TptGraph
