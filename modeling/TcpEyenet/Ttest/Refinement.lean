import TcpEyenet.Ttest.Table

/-! The tables of the ttest receiver as maps from sources to counts. -/
namespace TcpEyenet.Ttest.Trcv

abbrev Act := Transition Trcv (UInt16 × Ract) Empty

variable {s s' : Trcv} {w v : UInt16} {t src : RconnTuple} {p q : Ptr} {sz : UInt16} {r : Rconn}
  {b : Fin maxPorts × Fin maxAddrHashSz} {xs : List (RconnTuple × UInt16)}
  {ds : UInt16 → List (RconnTuple × UInt16)} {trs : List Act}
  {tr : Act} {d : List UInt8} {nCpus : UInt16}

/-- A step with its guard and its outcome. -/
inductive Move : Trcv → UInt16 × Ract → Trcv → Prop
  | skip (s : Trcv) (w : UInt16) (src : RconnTuple) (d : List UInt8)
      (hw : (s.workers w).phase = .receiving) (hd : pktsizeOf d = none) :
      Move s (w, .recv src d) s
  | hit (s : Trcv) (w : UInt16) (src : RconnTuple) (d : List UInt8) (sz : UInt16) (p : Ptr)
      (r : Rconn) (hw : (s.workers w).phase = .receiving) (hd : pktsizeOf d = some sz)
      (hp : s.lookup w src = some p) (hr : s.heap[p]? = some r) (hwid : r.wid = w) :
      Move s (w, .recv src d) (s.bump p sz)
  | miss (s : Trcv) (w : UInt16) (src : RconnTuple) (d : List UInt8) (sz : UInt16)
      (hw : (s.workers w).phase = .receiving) (hd : pktsizeOf d = some sz)
      (hp : s.lookup w src = none) : Move s (w, .recv src d) (s.alloc w src sz)
  | register (s : Trcv) (w : UInt16) (p : Ptr) (sz : UInt16)
      (hw : (s.workers w).phase = .registering p sz) : Move s (w, .register) (s.register w p sz)
  | link (s : Trcv) (w : UInt16) (p : Ptr) (sz : UInt16) (r : Rconn)
      (hw : (s.workers w).phase = .linking p sz) (hr : s.heap[p]? = some r) (hwid : r.wid = w) :
      Move s (w, .link) ((s.addHash w p r.t.hash).bump p sz)

theorem count_eq_some : s.count w p sz = some s' ↔
    ∃ r, s.heap[p]? = some r ∧ r.wid = w ∧ s' = s.bump p sz := by
  unfold count
  cases s.heap[p]? with
  | none => simp
  | some r =>
    by_cases hr : r.wid = w
    · simp [hr, eq_comm]
    · simp [hr]

theorem takes_move (h : (machine nCpus).Takes tr) :
    tr.input.1 < nCpus ∧ Move tr.src tr.input tr.dst := by
  obtain ⟨s, ⟨w, i⟩, out, dst⟩ := tr
  simp only [Machine.Takes, machine, step] at h
  split_ifs at h with hn
  refine ⟨hn, ?_⟩
  simp only [workerStep] at h
  split at h
  · rename_i src d hw
    split at h
    · rename_i hd
      obtain ⟨rfl, -⟩ := Traced.mk.inj (Option.some.inj h)
      exact .skip _ _ _ _ hw hd
    · rename_i sz hd
      split at h
      · rename_i p hp
        obtain ⟨s', hs', he⟩ := Option.map_eq_some_iff.mp h
        obtain ⟨r, hr, hwid, rfl⟩ := count_eq_some.mp hs'
        obtain ⟨rfl, -⟩ := Traced.mk.inj he
        exact .hit _ _ _ _ _ _ r hw hd hp hr hwid
      · rename_i hp
        obtain ⟨rfl, -⟩ := Traced.mk.inj (Option.some.inj h)
        exact .miss _ _ _ _ _ hw hd hp
  · rename_i p sz hw
    obtain ⟨rfl, -⟩ := Traced.mk.inj (Option.some.inj h)
    exact .register _ _ _ _ hw
  · rename_i p sz hw
    split at h
    · simp at h
    · rename_i r hr
      obtain ⟨s', hs', he⟩ := Option.map_eq_some_iff.mp h
      obtain ⟨r', hr', hwid, rfl⟩ := count_eq_some.mp hs'
      obtain ⟨rfl, -⟩ := Traced.mk.inj he
      obtain rfl := Option.some.inj (hr.symm.trans hr')
      exact .link _ _ _ _ r hw hr hwid
  · simp at h

/-- The record a worker has made but not linked yet, with the size it still has to count. -/
def pending (s : Trcv) (w : UInt16) : Option (Ptr × UInt16) :=
  match (s.workers w).phase with
  | .receiving => none
  | .registering p sz => some (p, sz)
  | .linking p sz => some (p, sz)

/-- The worker and the source a record is for. -/
def owner (s : Trcv) (p : Ptr) : Option (UInt16 × RconnTuple) :=
  (s.heap[p]?).map fun r => (r.wid, r.t)

def statsOf (s : Trcv) (p : Ptr) : Option Counters := (s.heap[p]?).map Rconn.stats

/-- The records of a source in a bucket of a worker. -/
def entries (s : Trcv) (w : UInt16) (t : RconnTuple) (b : Fin maxPorts × Fin maxAddrHashSz) :
    List Ptr :=
  ((s.workers w).rconnHash b).filter (s.isOf t)

theorem isOf_eq_true : s.isOf t p = true ↔ ∃ w, s.owner p = some (w, t) := by
  rw [isOf, owner]
  cases s.heap[p]? <;> simp

theorem isOf_congr (h : s'.owner p = s.owner p) : s'.isOf t p = s.isOf t p := by
  rw [Bool.eq_iff_iff, isOf_eq_true, isOf_eq_true, h]

theorem entries_congr (hb : (s'.workers w).rconnHash b = (s.workers w).rconnHash b)
    (ho : ∀ p ∈ (s.workers w).rconnHash b, s'.owner p = s.owner p) :
    s'.entries w t b = s.entries w t b := by
  rw [entries, entries, hb]
  apply List.filter_congr
  intro p hp
  exact isOf_congr (ho p hp)

theorem mem_entries : p ∈ s.entries w t b ↔
    p ∈ (s.workers w).rconnHash b ∧ ∃ v, s.owner p = some (v, t) := by
  rw [entries, List.mem_filter, isOf_eq_true]

section Records

variable {α β : Type} {l : List α} {f : α → α} {g : α → β} {x : α} {m n : ℕ}

/-- A field that a change of one record leaves alone. -/
theorem map_modify_of_eq (hf : ∀ r, g (f r) = g r) :
    ((l.modify m f)[n]?).map g = (l[n]?).map g := by
  rw [List.getElem?_modify]
  cases l[n]? with
  | none => rfl
  | some r => by_cases hn : m = n <;> simp [hn, hf]

theorem map_modify : ((l.modify m f)[n]?).map g =
    if n = m then (l[m]?).map (g ∘ f) else (l[n]?).map g := by
  rw [List.getElem?_modify]
  by_cases hn : n = m
  · subst hn
    simp
  · simp [hn, Ne.symm hn]

theorem map_concat : ((l ++ [x])[n]?).map g =
    if n = l.length then some (g x) else (l[n]?).map g := by
  by_cases hn : n = l.length
  · simp [hn]
  · rw [if_neg hn]
    rcases lt_or_gt_of_ne hn with hlt | hgt
    · rw [List.getElem?_append_left hlt]
    · rw [List.getElem?_eq_none (by simp; omega), List.getElem?_eq_none hgt.le]

end Records

theorem owner_bump (q : Ptr) : (s.bump p sz).owner q = s.owner q := map_modify_of_eq fun _ => rfl

theorem owner_register (q : Ptr) : (s.register w p sz).owner q = s.owner q :=
  map_modify_of_eq fun _ => rfl

theorem owner_alloc (q : Ptr) : (s.alloc w src sz).owner q =
    if q = s.heap.length then some (w, src) else s.owner q := map_concat

theorem statsOf_bump (q : Ptr) : (s.bump p sz).statsOf q =
    if q = p then (s.statsOf p).map (· + ⟨1, sz.toUInt64⟩) else s.statsOf q := by
  have hp : (s.statsOf p).map (· + (⟨1, sz.toUInt64⟩ : Counters)) =
      (s.heap[p]?).map ((· + ⟨1, sz.toUInt64⟩) ∘ Rconn.stats) := Option.map_map ..
  rw [hp]
  exact map_modify

theorem statsOf_register (q : Ptr) : (s.register w p sz).statsOf q = s.statsOf q :=
  map_modify_of_eq fun _ => rfl

theorem statsOf_alloc (q : Ptr) : (s.alloc w src sz).statsOf q =
    if q = s.heap.length then some 0 else s.statsOf q := map_concat

@[simp] theorem setPhase_rconnHash (ph : Rphase) :
    ((s.setPhase w ph).workers v).rconnHash = (s.workers v).rconnHash := by
  by_cases hv : v = w
  · simp [setPhase, hv]
  · simp [setPhase, hv]

theorem setPhase_phase (ph : Rphase) :
    ((s.setPhase w ph).workers v).phase = if v = w then ph else (s.workers v).phase := by
  by_cases hv : v = w
  · simp [setPhase, hv]
  · simp [setPhase, hv]

theorem addHash_rconnHash {h : Fin maxPorts × Fin maxAddrHashSz} :
    ((s.addHash w p h).workers v).rconnHash b =
      if v = w ∧ b = h then p :: (s.workers v).rconnHash b else (s.workers v).rconnHash b := by
  by_cases hv : v = w
  · subst hv
    by_cases hb : b = h
    · simp [addHash, hb]
    · simp [addHash, hb]
  · simp [addHash, hv]

theorem addHash_phase {h : Fin maxPorts × Fin maxAddrHashSz} :
    ((s.addHash w p h).workers v).phase = if v = w then .receiving else (s.workers v).phase := by
  by_cases hv : v = w
  · simp [addHash, hv]
  · simp [addHash, hv]

/-- The number of the given sizes and their sum. -/
def total (szs : List UInt16) : Counters :=
  ⟨UInt64.ofNat szs.length, UInt64.ofNat (szs.map UInt16.toNat).sum⟩

/-- The sizes of the datagrams of a source. -/
def sizes (t : RconnTuple) (xs : List (RconnTuple × UInt16)) : List UInt16 :=
  (xs.filter fun x => x.1 = t).map Prod.snd

@[simp] theorem total_nil : total [] = 0 := rfl

theorem total_concat (szs : List UInt16) :
    total (szs ++ [sz]) = total szs + ⟨1, sz.toUInt64⟩ := by
  simp only [total, List.length_append, List.length_singleton, List.map_append, List.map_cons,
    List.map_nil, List.sum_append, List.sum_singleton, UInt64.ofNat_add, UInt64.ofNat_uInt16ToNat]
  rfl

theorem sizes_concat_ne (h : src ≠ t) : sizes t (xs ++ [(src, sz)]) = sizes t xs := by
  simp [sizes, h]

theorem sizes_concat_self : sizes t (xs ++ [(t, sz)]) = sizes t xs ++ [sz] := by
  simp [sizes]

/-- What a worker holds of a source, given the sizes it has counted: nothing if there are none, and
else one record, in the bucket of the source, with their number and their sum. -/
structure Slot (s : Trcv) (w : UInt16) (t : RconnTuple) (szs : List UInt16) : Prop where
  none : szs = [] → ∀ b, s.entries w t b = []
  one : szs ≠ [] → ∃ p, s.owner p = some (w, t) ∧ s.statsOf p = some (total szs) ∧
    ∀ b, s.entries w t b = if b = t.hash then [p] else []

/-- The tables of the workers, where `ds w` is what the worker `w` has counted. -/
structure Tables (s : Trcv) (ds : UInt16 → List (RconnTuple × UInt16)) : Prop where
  live (w : UInt16) (b : Fin maxPorts × Fin maxAddrHashSz) :
    ∀ p ∈ (s.workers w).rconnHash b, ∃ t, s.owner p = some (w, t)
  slot (w : UInt16) (t : RconnTuple) : s.Slot w t (sizes t (ds w))
  fresh (w : UInt16) (p : Ptr) (sz : UInt16) : s.pending w = some (p, sz) →
    ∃ t, s.owner p = some (w, t) ∧ s.statsOf p = some 0 ∧ ∀ b, s.entries w t b = []
  owned (w : UInt16) (t : RconnTuple) (p : Ptr) : s.owner p = some (w, t) →
    (∃ b, p ∈ (s.workers w).rconnHash b) ∨ ∃ sz, s.pending w = some (p, sz)

theorem Slot.frame {szs : List UInt16} (h : s.Slot w t szs)
    (he : ∀ b, s'.entries w t b = s.entries w t b)
    (hp : ∀ p, s.owner p = some (w, t) → s'.owner p = s.owner p ∧ s'.statsOf p = s.statsOf p) :
    s'.Slot w t szs := by
  refine ⟨fun hnil b => (he b).trans (h.none hnil b), fun hne => ?_⟩
  obtain ⟨p, ho, hs, hb⟩ := h.one hne
  obtain ⟨ho', hs'⟩ := hp p ho
  exact ⟨p, ho'.trans ho, hs'.trans hs, fun b => (he b).trans (hb b)⟩

/-- A record in the table is the one its source has there. -/
theorem Slot.of_mem {szs : List UInt16} (h : s.Slot w t szs) (hp : p ∈ s.entries w t b) :
    szs ≠ [] ∧ s.statsOf p = some (total szs) ∧
      ∀ b, s.entries w t b = if b = t.hash then [p] else [] := by
  have hne : szs ≠ [] := by
    rintro hnil
    rw [h.none hnil b] at hp
    simp at hp
  obtain ⟨q, -, hs, hb⟩ := h.one hne
  have hq : p = q := by
    rw [hb] at hp
    split_ifs at hp
    · exact List.mem_singleton.mp hp
    · simp at hp
  exact ⟨hne, hq ▸ hs, hq ▸ hb⟩

theorem owner_unique (h : s.owner p = some (w, t)) (h' : s.owner p = some (v, src)) :
    w = v ∧ t = src :=
  Prod.mk.inj (Option.some.inj (h.symm.trans h'))

/-- The record the table has for a source is the record of its slot. -/
theorem Tables.entry (h : s.Tables ds) (hp : p ∈ (s.workers w).rconnHash b)
    (ho : s.owner p = some (w, t)) : sizes t (ds w) ≠ [] ∧
      s.statsOf p = some (total (sizes t (ds w))) ∧
      ∀ b, s.entries w t b = if b = t.hash then [p] else [] :=
  (h.slot w t).of_mem (mem_entries.mpr ⟨hp, w, ho⟩)

theorem Tables.fresh_not_mem (h : s.Tables ds) (hp : s.pending w = some (p, sz))
    (hq : q ∈ (s.workers v).rconnHash b) : q ≠ p := by
  rintro rfl
  obtain ⟨t, ho, -, hb⟩ := h.fresh w q sz hp
  obtain ⟨t', ho'⟩ := h.live v b q hq
  obtain ⟨rfl, rfl⟩ := owner_unique ho' ho
  have hmem : q ∈ s.entries v t' b := mem_entries.mpr ⟨hq, v, ho'⟩
  simp [hb] at hmem

/-- Two records of one worker and one source are one record. -/
theorem Tables.injective (h : s.Tables ds) (hp : s.owner p = some (w, t))
    (hq : s.owner q = some (w, t)) : p = q := by
  rcases h.owned w t p hp with ⟨b, hb⟩ | ⟨sz, hsz⟩
  · obtain ⟨-, -, hone⟩ := h.entry hb hp
    rcases h.owned w t q hq with ⟨c, hc⟩ | ⟨sz, hsz⟩
    · have hmem : q ∈ s.entries w t c := mem_entries.mpr ⟨hc, w, hq⟩
      rw [hone] at hmem
      split_ifs at hmem
      · exact (List.mem_singleton.mp hmem).symm
      · simp at hmem
    · obtain ⟨t', ho, -, hnone⟩ := h.fresh w q sz hsz
      obtain ⟨-, rfl⟩ := owner_unique hq ho
      have hmem : p ∈ s.entries w t b := mem_entries.mpr ⟨hb, w, hp⟩
      simp [hnone] at hmem
  · obtain ⟨t', ho, -, hnone⟩ := h.fresh w p sz hsz
    obtain ⟨-, rfl⟩ := owner_unique hp ho
    rcases h.owned w t q hq with ⟨c, hc⟩ | ⟨sz', hsz'⟩
    · have hmem : q ∈ s.entries w t c := mem_entries.mpr ⟨hc, w, hq⟩
      simp [hnone] at hmem
    · exact (Prod.mk.inj (Option.some.inj (hsz.symm.trans hsz'))).1

theorem lookup_eq_some (h : s.Tables ds) (hp : s.lookup w src = some p) :
    p ∈ (s.workers w).rconnHash src.hash ∧ s.owner p = some (w, src) := by
  have hmem : p ∈ (s.workers w).rconnHash src.hash := List.mem_of_find?_eq_some hp
  obtain ⟨v, hv⟩ := isOf_eq_true.mp (List.find?_some hp)
  obtain ⟨t, ht⟩ := h.live w src.hash p hmem
  obtain ⟨rfl, rfl⟩ := owner_unique hv ht
  exact ⟨hmem, hv⟩

theorem lookup_eq_none (h : s.Tables ds) (hp : s.lookup w src = none) :
    sizes src (ds w) = [] ∧ ∀ b, s.entries w src b = [] := by
  have hnil : s.entries w src src.hash = [] := by
    rw [entries, List.filter_eq_nil_iff]
    exact fun q hq => by simpa using List.find?_eq_none.mp hp q hq
  have hsz : sizes src (ds w) = [] := by
    by_contra hne
    obtain ⟨q, -, -, hb⟩ := (h.slot w src).one hne
    simp [hb] at hnil
  exact ⟨hsz, (h.slot w src).none hsz⟩

/-- The sizes a worker has counted change for one worker and one source alone. -/
theorem sizes_update : sizes t (Function.update ds w (ds w ++ [(src, sz)]) v) =
    if v = w ∧ t = src then sizes t (ds v) ++ [sz] else sizes t (ds v) := by
  by_cases hv : v = w
  · subst hv
    by_cases ht : t = src
    · simp [ht, sizes_concat_self]
    · simp [ht, sizes_concat_ne (Ne.symm ht)]
  · simp [hv]

theorem tables_hit (h : s.Tables ds) (hp : s.lookup w src = some p) :
    (s.bump p sz).Tables (Function.update ds w (ds w ++ [(src, sz)])) := by
  obtain ⟨hmem, ho⟩ := lookup_eq_some h hp
  have hent : ∀ v t b, (s.bump p sz).entries v t b = s.entries v t b :=
    fun v t b => entries_congr rfl fun q _ => owner_bump q
  refine ⟨fun v b q hq => ?_, fun v t => ?_, fun v q z hq => ?_, fun v t q hq => ?_⟩
  · rw [owner_bump]
    exact h.live v b q hq
  · rw [sizes_update]
    split_ifs with heq
    · obtain ⟨rfl, rfl⟩ := heq
      obtain ⟨-, hs, hone⟩ := h.entry hmem ho
      refine ⟨fun hnil => by simp at hnil, fun _ => ⟨p, ?_, ?_, fun b => ?_⟩⟩
      · rw [owner_bump, ho]
      · simp [statsOf_bump, hs, total_concat]
      · rw [hent, hone]
    · refine (h.slot v t).frame (hent v t) fun q hq => ⟨owner_bump q, ?_⟩
      have hne : q ≠ p := by
        rintro rfl
        obtain ⟨rfl, rfl⟩ := owner_unique hq ho
        exact heq ⟨rfl, rfl⟩
      rw [statsOf_bump, if_neg hne]
  · obtain ⟨t, hot, hs, hb⟩ := h.fresh v q z hq
    have hne : p ≠ q := h.fresh_not_mem hq hmem
    refine ⟨t, by rw [owner_bump, hot], ?_, fun b => by rw [hent, hb]⟩
    rw [statsOf_bump, if_neg hne.symm, hs]
  · exact h.owned v t q (by rwa [owner_bump] at hq)

theorem pending_setPhase (ph : Rphase) (hv : v ≠ w) :
    (s.setPhase w ph).pending v = s.pending v := by
  rw [pending, pending, setPhase_phase, if_neg hv]

theorem pending_alloc : (s.alloc w src sz).pending v =
    if v = w then some (s.heap.length, sz) else s.pending v := by
  split_ifs with hv
  · rw [hv, pending, alloc, setPhase_phase, if_pos rfl]
  · rw [alloc, pending_setPhase _ hv]
    rfl

theorem owner_lt (h : s.owner p = some (w, t)) : p < s.heap.length := by
  obtain ⟨r, hr, -⟩ := Option.map_eq_some_iff.mp h
  exact (List.getElem?_eq_some_iff.mp hr).1

theorem alloc_old (h : s.owner q = some (v, t)) : (s.alloc w src sz).owner q = s.owner q ∧
    (s.alloc w src sz).statsOf q = s.statsOf q := by
  have hne : q ≠ s.heap.length := (owner_lt h).ne
  rw [owner_alloc, statsOf_alloc, if_neg hne, if_neg hne]
  exact ⟨rfl, rfl⟩

theorem tables_alloc (h : s.Tables ds) (hw : (s.workers w).phase = .receiving)
    (hp : s.lookup w src = none) : (s.alloc w src sz).Tables ds := by
  obtain ⟨-, hnone⟩ := lookup_eq_none h hp
  have hhash : ∀ v b, ((s.alloc w src sz).workers v).rconnHash b = (s.workers v).rconnHash b :=
    fun v b => by rw [alloc, setPhase_rconnHash]
  have hent : ∀ v t b, (s.alloc w src sz).entries v t b = s.entries v t b := by
    refine fun v t b => entries_congr (hhash v b) fun q hq => ?_
    obtain ⟨t', ht'⟩ := h.live v b q hq
    exact (alloc_old ht').1
  refine ⟨fun v b q hq => ?_, fun v t => ?_, fun v q z hq => ?_, fun v t q hq => ?_⟩
  · rw [hhash] at hq
    obtain ⟨t, ht⟩ := h.live v b q hq
    exact ⟨t, (alloc_old ht).1.trans ht⟩
  · exact (h.slot v t).frame (hent v t) fun q hq => alloc_old hq
  · rw [pending_alloc] at hq
    split_ifs at hq with hv
    · obtain ⟨rfl, rfl⟩ := Prod.mk.inj (Option.some.inj hq)
      subst hv
      refine ⟨src, by simp [owner_alloc], by simp [statsOf_alloc], fun b => ?_⟩
      rw [hent, hnone]
    · obtain ⟨t, ho, hs, hb⟩ := h.fresh v q z hq
      refine ⟨t, (alloc_old ho).1.trans ho, (alloc_old ho).2.trans hs, fun b => ?_⟩
      rw [hent, hb]
  · rw [owner_alloc] at hq
    split_ifs at hq with hn
    · obtain ⟨rfl, rfl⟩ := Prod.mk.inj (Option.some.inj hq)
      exact .inr ⟨sz, by rw [pending_alloc, if_pos rfl, hn]⟩
    · rcases h.owned v t q hq with ⟨b, hb⟩ | ⟨z, hz⟩
      · exact .inl ⟨b, by rwa [hhash]⟩
      · have hv : v ≠ w := by
          rintro rfl
          simp [pending, hw] at hz
        exact .inr ⟨z, by rwa [pending_alloc, if_neg hv]⟩

theorem pending_register (hw : (s.workers w).phase = .registering p sz) :
    (s.register w p sz).pending v = s.pending v := by
  by_cases hv : v = w
  · rw [hv, pending, pending, register, setPhase_phase, if_pos rfl, hw]
  · rw [register, pending_setPhase _ hv]
    rfl

theorem tables_register (h : s.Tables ds) (hw : (s.workers w).phase = .registering p sz) :
    (s.register w p sz).Tables ds := by
  have hhash : ∀ v b, ((s.register w p sz).workers v).rconnHash b = (s.workers v).rconnHash b :=
    fun v b => by rw [register, setPhase_rconnHash]
  have hent : ∀ v t b, (s.register w p sz).entries v t b = s.entries v t b :=
    fun v t b => entries_congr (hhash v b) fun q _ => owner_register q
  refine ⟨fun v b q hq => ?_, fun v t => ?_, fun v q z hq => ?_, fun v t q hq => ?_⟩
  · rw [hhash] at hq
    rw [owner_register]
    exact h.live v b q hq
  · exact (h.slot v t).frame (hent v t) fun q _ => ⟨owner_register q, statsOf_register q⟩
  · rw [pending_register hw] at hq
    obtain ⟨t, ho, hs, hb⟩ := h.fresh v q z hq
    exact ⟨t, (owner_register q).trans ho, (statsOf_register q).trans hs,
      fun b => (hent v t b).trans (hb b)⟩
  · rw [owner_register] at hq
    simpa only [hhash, pending_register hw] using h.owned v t q hq

theorem entries_addHash (ho : s.owner p = some (w, src)) :
    (s.addHash w p src.hash).entries v t b =
      if v = w ∧ t = src ∧ b = src.hash then p :: s.entries v t b else s.entries v t b := by
  have hof : ∀ q, (s.addHash w p src.hash).isOf t q = s.isOf t q := fun q => isOf_congr rfl
  have hp : s.isOf t p = decide (t = src) := by
    rw [Bool.eq_iff_iff, isOf_eq_true, ho]
    simp [eq_comm]
  rw [entries, addHash_rconnHash, funext hof]
  by_cases hv : v = w ∧ b = src.hash
  · rw [if_pos hv, List.filter_cons, hp]
    by_cases ht : t = src
    · simp [ht, hv, entries]
    · simp [ht, entries]
  · rw [if_neg hv, if_neg fun hc => hv ⟨hc.1, hc.2.2⟩, entries]

theorem pending_link : ((s.addHash w p b).bump p sz).pending v =
    if v = w then none else s.pending v := by
  have hph : (((s.addHash w p b).bump p sz).workers v).phase =
      if v = w then .receiving else (s.workers v).phase := addHash_phase
  rw [pending, hph]
  split_ifs <;> rfl

theorem owner_link (q : Ptr) : ((s.addHash w p b).bump p sz).owner q = s.owner q := owner_bump q

theorem rconnHash_link {h : Fin maxPorts × Fin maxAddrHashSz} :
    (((s.addHash w p h).bump p sz).workers v).rconnHash b =
      if v = w ∧ b = h then p :: (s.workers v).rconnHash b else (s.workers v).rconnHash b :=
  addHash_rconnHash

theorem entries_link (ho : s.owner p = some (w, src)) :
    ((s.addHash w p src.hash).bump p sz).entries v t b =
      if v = w ∧ t = src ∧ b = src.hash then p :: s.entries v t b else s.entries v t b := by
  rw [← entries_addHash ho]
  exact entries_congr rfl fun q _ => owner_bump q

/-- The first count of a record, which its worker has just made. -/
theorem statsOf_link (w sz : UInt16) (b : Fin maxPorts × Fin maxAddrHashSz)
    (hs : s.statsOf p = some 0) (q : Ptr) :
    ((s.addHash w p b).bump p sz).statsOf q =
      if q = p then some ⟨1, sz.toUInt64⟩ else s.statsOf q := by
  have hsame : (s.addHash w p b).statsOf = s.statsOf := rfl
  rw [statsOf_bump, hsame, hs, Option.map_some, zero_add]

/-- A source without a record has sent nothing that was counted. -/
theorem Slot.eq_nil {szs : List UInt16} (h : s.Slot w t szs) (hnone : ∀ b, s.entries w t b = []) :
    szs = [] := by
  by_contra hne
  obtain ⟨q, -, -, hb⟩ := h.one hne
  simpa [hnone] using hb t.hash

/-- The new record takes the place of its source; every other one stays as it is. -/
theorem slot_link (h : s.Tables ds) (ho : s.owner p = some (w, src)) (hs : s.statsOf p = some 0)
    (hnone : ∀ b, s.entries w src b = []) (v : UInt16) (t : RconnTuple) :
    ((s.addHash w p src.hash).bump p sz).Slot v t
      (sizes t (Function.update ds w (ds w ++ [(src, sz)]) v)) := by
  have hstat := statsOf_link w sz src.hash hs
  have hsz : sizes src (ds w) = [] := (h.slot w src).eq_nil hnone
  rw [sizes_update]
  split_ifs with heq
  · obtain ⟨rfl, rfl⟩ := heq
    refine ⟨fun hnil => by simp at hnil, fun _ => ⟨p, ?_, ?_, fun b => ?_⟩⟩
    · rw [owner_link, ho]
    · rw [hstat, if_pos rfl, hsz, total_concat, total_nil, zero_add]
    · simp [entries_link ho, hnone]
  · have hout : ∀ b, ¬(v = w ∧ t = src ∧ b = src.hash) := fun b hc => heq ⟨hc.1, hc.2.1⟩
    refine (h.slot v t).frame (fun b => by rw [entries_link ho, if_neg (hout b)]) fun q hq => ?_
    have hne : q ≠ p := by
      rintro rfl
      obtain ⟨rfl, rfl⟩ := owner_unique hq ho
      exact heq ⟨rfl, rfl⟩
    exact ⟨owner_link q, by rw [hstat, if_neg hne]⟩

theorem tables_link (h : s.Tables ds) (hw : (s.workers w).phase = .linking p sz)
    (hr : s.heap[p]? = some r) :
    ((s.addHash w p r.t.hash).bump p sz).Tables
      (Function.update ds w (ds w ++ [(r.t, sz)])) := by
  have hpend : s.pending w = some (p, sz) := by rw [pending, hw]
  obtain ⟨src, ho, hs, hnone⟩ := h.fresh w p sz hpend
  obtain rfl : r.t = src := by
    rw [owner, hr] at ho
    exact (Prod.mk.inj (Option.some.inj ho)).2
  have hstat := statsOf_link w sz r.t.hash hs
  refine ⟨fun v b q hq => ?_, fun v t => ?_, fun v q z hq => ?_, fun v t q hq => ?_⟩
  · rw [owner_link]
    rw [rconnHash_link] at hq
    split_ifs at hq with heq
    · rcases List.mem_cons.mp hq with rfl | hq
      · exact ⟨r.t, heq.1 ▸ ho⟩
      · exact h.live v b q hq
    · exact h.live v b q hq
  · exact slot_link h ho hs hnone v t
  · rw [pending_link] at hq
    split_ifs at hq with hv
    obtain ⟨t, hot, hst, hb⟩ := h.fresh v q z hq
    have hne : q ≠ p := by
      rintro rfl
      exact hv (owner_unique hot ho).1
    refine ⟨t, (owner_link q).trans hot, by rw [hstat, if_neg hne, hst], fun b => ?_⟩
    rw [entries_link ho, if_neg fun hc => hv hc.1, hb]
  · rw [owner_link] at hq
    rcases h.owned v t q hq with ⟨b, hb⟩ | ⟨z, hz⟩
    · refine .inl ⟨b, ?_⟩
      rw [rconnHash_link]
      split_ifs
      · exact List.mem_cons_of_mem _ hb
      · exact hb
    · by_cases hv : v = w
      · subst hv
        obtain ⟨rfl, -⟩ := Prod.mk.inj (Option.some.inj (hpend.symm.trans hz))
        exact .inl ⟨r.t.hash, by rw [rconnHash_link, if_pos ⟨rfl, rfl⟩]; exact List.mem_cons_self⟩
      · exact .inr ⟨z, by rwa [pending_link, if_neg hv]⟩

end TcpEyenet.Ttest.Trcv
