import TcpEyenet.Ttest.Registry

/-! What the ttest receiver has counted of a source, over all its workers. -/
namespace TcpEyenet.Ttest.Trcv

variable {s s' : Trcv} {w v : UInt16} {a src : RconnTuple} {p : Ptr} {sz : UInt16} {r : Rconn}
  {ds : UInt16 → List (RconnTuple × UInt16)} {trs : List Act} {tr : Act} {nCpus : UInt16}

/-- The sum of the records of a source: each worker that has heard of it has one. -/
def received (s : Trcv) (a : RconnTuple) : Counters :=
  (s.heap.map fun r => if r.t = a then r.stats else 0).sum

/-- The size of a valid datagram of the source, whichever worker takes it. -/
def validFrom (a : RconnTuple) (tr : Act) : Option UInt16 :=
  match tr.input with
  | (_, .recv src d) => if src = a then pktsizeOf d else none
  | _ => none

def taken (a : RconnTuple) (trs : List Act) : List UInt16 := trs.filterMap (validFrom a)

/-- The sizes of a source that workers have made a record for and not counted yet. -/
def waiting (s : Trcv) (nCpus : UInt16) (a : RconnTuple) : Multiset UInt16 :=
  ∑ i ∈ Finset.range nCpus.toNat, (sizes a (s.inFlight (UInt16.ofNat i)) : Multiset UInt16)

theorem taken_concat : taken a (trs ++ [tr]) = taken a trs ++ (validFrom a tr).toList := by
  rw [taken, taken, List.filterMap_append]
  cases h : validFrom a tr <;> simp [h]

/-- One element of a list changes the sum by what its own share changes by. -/
theorem sum_modify {α M : Type} [AddCommMonoid M] {l : List α} {n : ℕ} {x : α} {f : α → α}
    {g : α → M} {d : M} (hx : l[n]? = some x) (hd : g (f x) = g x + d) :
    ((l.modify n f).map g).sum = (l.map g).sum + d := by
  induction l generalizing n with
  | nil => cases hx
  | cons y l ih =>
    cases n with
    | zero =>
      obtain rfl : y = x := Option.some.inj hx
      simp only [List.modify_zero_cons, List.map_cons, List.sum_cons, hd]
      exact add_right_comm ..
    | succ n =>
      have htail := ih (n := n) hx
      simp only [List.modify_succ_cons, List.map_cons, List.sum_cons, htail]
      exact (add_assoc ..).symm

theorem received_bump (hr : s.heap[p]? = some r) :
    (s.bump p sz).received a = s.received a + if r.t = a then ⟨1, sz.toUInt64⟩ else 0 := by
  refine sum_modify hr ?_
  by_cases ha : r.t = a
  · simp only [if_pos ha]
  · simp only [if_neg ha, add_zero]

theorem received_register (hp : p < s.heap.length) :
    (s.register w p sz).received a = s.received a := by
  have hsame : (s.register w p sz).received a = s.received a + 0 := by
    refine sum_modify (List.getElem?_eq_getElem hp) ?_
    rw [add_zero]
  rwa [add_zero] at hsame

theorem received_alloc : (s.alloc w src sz).received a = s.received a := by
  simp [received, alloc, setPhase]

theorem received_link {b : Fin maxPorts × Fin maxAddrHashSz} (hr : s.heap[p]? = some r) :
    ((s.addHash w p b).bump p sz).received a =
      s.received a + if r.t = a then ⟨1, sz.toUInt64⟩ else 0 :=
  received_bump (s := s.addHash w p b) hr

/-- A step of one worker changes what waits by what this worker makes wait. -/
theorem waiting_update (hn : w < nCpus) (h : ∀ v, v ≠ w → s'.inFlight v = s.inFlight v) :
    s'.waiting nCpus a + (sizes a (s.inFlight w) : Multiset UInt16) =
      s.waiting nCpus a + (sizes a (s'.inFlight w) : Multiset UInt16) := by
  have hmem : w.toNat ∈ Finset.range nCpus.toNat :=
    Finset.mem_range.mpr (UInt16.lt_iff_toNat_lt.mp hn)
  have hrest : ∑ i ∈ (Finset.range nCpus.toNat).erase w.toNat,
      (sizes a (s'.inFlight (UInt16.ofNat i)) : Multiset UInt16) =
      ∑ i ∈ (Finset.range nCpus.toNat).erase w.toNat,
        (sizes a (s.inFlight (UInt16.ofNat i)) : Multiset UInt16) := by
    refine Finset.sum_congr rfl fun i hi => ?_
    obtain ⟨hne, hlt⟩ := Finset.mem_erase.mp hi
    have hcpus := nCpus.toNat_lt
    have hbound := Finset.mem_range.mp hlt
    have hother : UInt16.ofNat i ≠ w := by
      rintro rfl
      rw [UInt16.toNat_ofNat_of_lt' (hbound.trans hcpus)] at hne
      exact hne rfl
    rw [h _ hother]
  rw [waiting, waiting, ← Finset.add_sum_erase _ _ hmem, ← Finset.add_sum_erase _ _ hmem, hrest,
    UInt16.ofNat_toNat]
  abel

theorem waiting_congr (h : ∀ v, s'.inFlight v = s.inFlight v) :
    s'.waiting nCpus a = s.waiting nCpus a :=
  Finset.sum_congr rfl fun i _ => by rw [h]

/-- What was taken of a source is in its records, or waits. -/
def Accounted (nCpus : UInt16) (a : RconnTuple) (trs : List Act) (s : Trcv) : Prop :=
  ∃ xs, s.received a = total xs ∧
    (xs : Multiset UInt16) + s.waiting nCpus a = (taken a trs : Multiset UInt16)

theorem accounted_step (htab : tr.src.Tables ds) (ht : (machine nCpus).Takes tr)
    (h : Accounted nCpus a trs tr.src) : Accounted nCpus a (trs ++ [tr]) tr.dst := by
  obtain ⟨hn, hmove⟩ := takes_move ht
  obtain ⟨xs, hxs, hall⟩ := h
  rw [Accounted, taken_concat, ← Multiset.coe_add, ← hall]
  obtain ⟨s, ⟨w, i⟩, out, s'⟩ := tr
  dsimp only at hn hmove htab hxs ⊢
  cases hmove with
  | skip _ src d hw hd =>
    refine ⟨xs, hxs, ?_⟩
    simp [validFrom, hd]
  | hit _ src d sz p r hw hd hp hr hwid =>
    have hown : s.owner p = some (w, src) := (lookup_eq_some htab hp).2
    have hsrc : r.t = src := by
      rw [owner, hr, Option.map_some] at hown
      exact (Prod.mk.inj (Option.some.inj hown)).2
    have hwait : (s.bump p sz).waiting nCpus a = s.waiting nCpus a :=
      waiting_congr fun v => inFlight_congr rfl fun q _ _ => owner_bump q
    rw [received_bump hr, hxs, hwait, hsrc]
    by_cases ha : src = a
    · refine ⟨xs ++ [sz], by rw [if_pos ha, total_concat], ?_⟩
      simp only [validFrom, hd, if_pos ha, Option.toList_some, ← Multiset.coe_add]
      abel
    · refine ⟨xs, by rw [if_neg ha, add_zero], ?_⟩
      simp [validFrom, ha]
  | miss _ src d sz hw hd hp =>
    have hother : ∀ v, v ≠ w → (s.alloc w src sz).inFlight v = s.inFlight v := fun v hv =>
      (inFlight_alloc htab).trans (if_neg hv)
    have hwait := waiting_update (a := a) hn hother
    rw [inFlight_of_receiving hw, inFlight_alloc htab, if_pos rfl] at hwait
    refine ⟨xs, received_alloc.trans hxs, ?_⟩
    have hnone : ((sizes a [] : List UInt16) : Multiset UInt16) = 0 := rfl
    rw [hnone, add_zero] at hwait
    rw [hwait, ← add_assoc]
    congr 1
    by_cases ha : src = a
    · simp [validFrom, hd, ha, sizes]
    · simp [validFrom, ha, sizes]
  | register _ p sz hw =>
    obtain ⟨t, ho, -⟩ := htab.fresh w p sz (by rw [pending, hw])
    have hwait : (s.register w p sz).waiting nCpus a = s.waiting nCpus a :=
      waiting_congr fun v => inFlight_congr (pending_register hw) fun q _ _ => owner_register q
    refine ⟨xs, (received_register (owner_lt ho)).trans hxs, ?_⟩
    rw [hwait]
    simp [validFrom]
  | link _ p sz r hw hr hwid =>
    have hwas : s.inFlight w = [(r.t, sz)] := by
      simp [inFlight, pending, hw, owner, hr]
    have hempty : ((s.addHash w p r.t.hash).bump p sz).inFlight w = [] := by
      simp [inFlight, pending_link]
    have hother : ∀ v, v ≠ w →
        ((s.addHash w p r.t.hash).bump p sz).inFlight v = s.inFlight v := fun v hv =>
      inFlight_congr (by rw [pending_link, if_neg hv]) fun q _ _ => owner_link q
    have hwait := waiting_update (a := a) hn hother
    rw [hwas, hempty] at hwait
    have hnone : ((sizes a [] : List UInt16) : Multiset UInt16) = 0 := rfl
    rw [hnone, add_zero] at hwait
    rw [received_link hr, hxs, ← hwait]
    by_cases ha : r.t = a
    · refine ⟨xs ++ [sz], by rw [if_pos ha, total_concat], ?_⟩
      simp only [validFrom, sizes, ha, decide_true, List.filter_cons_of_pos, List.filter_nil,
        List.map_cons, List.map_nil, ← Multiset.coe_add]
      simp only [Option.toList_none, Multiset.coe_nil, add_zero]
      abel
    · refine ⟨xs, by rw [if_neg ha, add_zero], ?_⟩
      simp [validFrom, sizes, ha]

theorem accounted_run (h : (machine nCpus).Run new trs s) (a : RconnTuple) :
    Accounted nCpus a trs s := by
  refine h.along (C := fun _ _ => True) (fun _ _ _ _ => trivial) ⟨[], rfl, ?_⟩
    fun pre tr hpre ht _ hI => ?_
  · have hnone : new.waiting nCpus a = 0 := Finset.sum_eq_zero fun i _ => rfl
    rw [hnone]
    rfl
  · obtain ⟨ds, hds⟩ := refines_run hpre
    exact accounted_step hds.tables ht hI

end TcpEyenet.Ttest.Trcv
