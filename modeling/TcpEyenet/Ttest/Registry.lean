import TcpEyenet.Ttest.Refinement

/-! What the workers of the ttest receiver have handled, and the list they share. -/
namespace TcpEyenet.Ttest.Trcv

variable {s s' : Trcv} {w v : UInt16} {t src : RconnTuple} {p q : Ptr} {sz : UInt16} {r : Rconn}
  {ds : UInt16 → List (RconnTuple × UInt16)} {trs : List Act} {tr : Act} {d : List UInt8}
  {nCpus : UInt16} {a : Ract}

/-- The source and the size of a valid datagram that the worker `w` takes. -/
def validAt (w : UInt16) (tr : Act) : Option (RconnTuple × UInt16) :=
  match tr.input with
  | (v, .recv src d) => if v = w then (pktsizeOf d).map fun sz => (src, sz) else none
  | _ => none

def handled (w : UInt16) (trs : List Act) : List (RconnTuple × UInt16) := trs.filterMap (validAt w)

/-- The datagram a worker has made a record for and not counted yet. -/
def inFlight (s : Trcv) (w : UInt16) : List (RconnTuple × UInt16) :=
  match s.pending w with
  | none => []
  | some (p, sz) => ((s.owner p).map fun o => (o.2, sz)).toList

/-- A record that its worker has not registered yet. -/
def Registering (s : Trcv) (p : Ptr) : Prop :=
  ∃ w sz, (s.workers w).phase = .registering p sz

def cidOf (s : Trcv) (p : Ptr) : Option UInt64 := (s.heap[p]?).map Rconn.cid

/-- The list of all connections: every registered record once, with its place as its `cid`. -/
structure Registry (nCpus : UInt16) (s : Trcv) : Prop where
  made (p : Ptr) (w : UInt16) (t : RconnTuple) : s.owner p = some (w, t) → w < nCpus
  nodup : s.lheadConn.Nodup
  listed (p : Ptr) : p ∈ s.lheadConn ↔ p < s.heap.length ∧ ¬s.Registering p
  conns : s.nConns = UInt64.ofNat s.lheadConn.length
  seed : s.cidSeed = UInt64.ofNat s.lheadConn.length
  cid (n : ℕ) (p : Ptr) : s.lheadConn[n]? = some p → s.cidOf p = some (UInt64.ofNat n)

/-- The tables and the list, and what a worker has handled is what it has counted and has still to
count. -/
structure Refines (nCpus : UInt16) (ds : UInt16 → List (RconnTuple × UInt16)) (trs : List Act)
    (s : Trcv) : Prop where
  tables : s.Tables ds
  registry : s.Registry nCpus
  handled (w : UInt16) : handled w trs = ds w ++ s.inFlight w

theorem handled_concat : handled w (trs ++ [tr]) = handled w trs ++ (validAt w tr).toList := by
  rw [handled, handled, List.filterMap_append]
  cases h : validAt w tr <;> simp [h]

theorem inFlight_of_receiving (hw : (s.workers w).phase = .receiving) : s.inFlight w = [] := by
  simp [inFlight, pending, hw]

theorem inFlight_congr (hp : s'.pending w = s.pending w)
    (ho : ∀ p sz, s.pending w = some (p, sz) → s'.owner p = s.owner p) :
    s'.inFlight w = s.inFlight w := by
  rw [inFlight, inFlight, hp]
  split
  · rfl
  · rename_i p sz hps
    rw [ho p sz hps]

theorem cidOf_bump (q : Ptr) : (s.bump p sz).cidOf q = s.cidOf q := map_modify_of_eq fun _ => rfl

theorem cidOf_alloc (hq : q < s.heap.length) : (s.alloc w src sz).cidOf q = s.cidOf q :=
  map_concat.trans (if_neg hq.ne)

theorem cidOf_register (hp : p < s.heap.length) : (s.register w p sz).cidOf q =
    if q = p then some s.cidSeed else s.cidOf q := by
  have hfield : (s.register w p sz).cidOf q =
      if q = p then (s.heap[p]?).map fun _ => s.cidSeed else s.cidOf q := map_modify
  rw [hfield, List.getElem?_eq_getElem hp, Option.map_some]

theorem length_bump : (s.bump p sz).heap.length = s.heap.length := List.length_modify ..

theorem length_alloc : (s.alloc w src sz).heap.length = s.heap.length + 1 := by
  simp [alloc, setPhase]

theorem length_register : (s.register w p sz).heap.length = s.heap.length := List.length_modify ..

theorem registering_alloc (hw : (s.workers w).phase = .receiving) :
    (s.alloc w src sz).Registering q ↔ q = s.heap.length ∨ s.Registering q := by
  constructor
  · rintro ⟨v, z, hv⟩
    rw [alloc, setPhase_phase] at hv
    split_ifs at hv with hvw
    · exact .inl (Rphase.registering.inj hv).1.symm
    · exact .inr ⟨v, z, hv⟩
  · rintro (rfl | ⟨v, z, hv⟩)
    · exact ⟨w, sz, by rw [alloc, setPhase_phase, if_pos rfl]⟩
    · have hvw : v ≠ w := by
        rintro rfl
        simp [hw] at hv
      exact ⟨v, z, by rw [alloc, setPhase_phase, if_neg hvw]; exact hv⟩

/-- Two workers never have the same record to register. -/
theorem Tables.registering_inj (h : s.Tables ds) {z : UInt16}
    (hw : (s.workers w).phase = .registering p sz) (hv : (s.workers v).phase = .registering p z) :
    v = w := by
  obtain ⟨t, ho, -⟩ := h.fresh w p sz (by rw [pending, hw])
  obtain ⟨t', ho', -⟩ := h.fresh v p z (by rw [pending, hv])
  exact (owner_unique ho' ho).1

theorem registering_register (h : s.Tables ds) (hw : (s.workers w).phase = .registering p sz) :
    (s.register w p sz).Registering q ↔ s.Registering q ∧ q ≠ p := by
  constructor
  · rintro ⟨v, z, hv⟩
    rw [register, setPhase_phase] at hv
    split_ifs at hv with hvw
    refine ⟨⟨v, z, hv⟩, ?_⟩
    rintro rfl
    exact hvw (h.registering_inj hw hv)
  · rintro ⟨⟨v, z, hv⟩, hne⟩
    have hvw : v ≠ w := by
      rintro rfl
      exact hne (Rphase.registering.inj (hv.symm.trans hw)).1
    exact ⟨v, z, by rw [register, setPhase_phase, if_neg hvw]; exact hv⟩

theorem registering_link {b : Fin maxPorts × Fin maxAddrHashSz}
    (hw : (s.workers w).phase = .linking p sz) :
    ((s.addHash w p b).bump p sz).Registering q ↔ s.Registering q := by
  have hph : ∀ v, (((s.addHash w p b).bump p sz).workers v).phase =
      if v = w then .receiving else (s.workers v).phase := fun v => addHash_phase
  constructor
  · rintro ⟨v, z, hv⟩
    rw [hph] at hv
    split_ifs at hv
    exact ⟨v, z, hv⟩
  · rintro ⟨v, z, hv⟩
    have hvw : v ≠ w := by
      rintro rfl
      simp [hw] at hv
    exact ⟨v, z, by rw [hph, if_neg hvw, hv]⟩

/-- A step that touches neither the list nor whose the records are. -/
theorem Registry.frame (h : s.Registry nCpus) (hl : s'.lheadConn = s.lheadConn)
    (hn : s'.nConns = s.nConns) (hs : s'.cidSeed = s.cidSeed)
    (hlen : s'.heap.length = s.heap.length) (hreg : ∀ q, s'.Registering q ↔ s.Registering q)
    (ho : ∀ q, s'.owner q = s.owner q) (hc : ∀ q, s'.cidOf q = s.cidOf q) :
    s'.Registry nCpus := by
  refine ⟨fun q v t hq => h.made q v t (by rwa [ho] at hq), hl ▸ h.nodup, fun q => ?_, ?_, ?_,
    fun n q hq => ?_⟩
  · rw [hl, hlen, hreg]
    exact h.listed q
  · rw [hn, hl, h.conns]
  · rw [hs, hl, h.seed]
  · rw [hc]
    exact h.cid n q (hl ▸ hq)

theorem registry_alloc (h : s.Registry nCpus) (hn : w < nCpus)
    (hw : (s.workers w).phase = .receiving) : (s.alloc w src sz).Registry nCpus := by
  refine ⟨fun q v t hq => ?_, h.nodup, fun q => ?_, h.conns, h.seed, fun n q hq => ?_⟩
  · rw [owner_alloc] at hq
    split_ifs at hq
    · exact (Prod.mk.inj (Option.some.inj hq)).1 ▸ hn
    · exact h.made q v t hq
  · have hl : (s.alloc w src sz).lheadConn = s.lheadConn := rfl
    rw [hl, h.listed, length_alloc, registering_alloc hw]
    constructor
    · rintro ⟨hlt, hreg⟩
      refine ⟨Nat.lt_succ_of_lt hlt, ?_⟩
      rintro (heq | hq)
      · exact hlt.ne heq
      · exact hreg hq
    · rintro ⟨hlt, hreg⟩
      have hne : q ≠ s.heap.length := fun heq => hreg (.inl heq)
      exact ⟨lt_of_le_of_ne (Nat.le_of_lt_succ hlt) hne, fun hq => hreg (.inr hq)⟩
  · have hmem : q ∈ s.lheadConn := List.mem_of_getElem? hq
    rw [cidOf_alloc ((h.listed q).mp hmem).1]
    exact h.cid n q hq

theorem registry_register (ht : s.Tables ds) (h : s.Registry nCpus)
    (hw : (s.workers w).phase = .registering p sz) : (s.register w p sz).Registry nCpus := by
  obtain ⟨t, ho, -⟩ := ht.fresh w p sz (by rw [pending, hw])
  have hp : p < s.heap.length := owner_lt ho
  have hnew : p ∉ s.lheadConn := fun hmem => ((h.listed p).mp hmem).2 ⟨w, sz, hw⟩
  have hl : (s.register w p sz).lheadConn = s.lheadConn ++ [p] := rfl
  have hlen : UInt64.ofNat (s.lheadConn ++ [p]).length = UInt64.ofNat s.lheadConn.length + 1 := by
    rw [List.length_append, List.length_singleton, UInt64.ofNat_add]
    rfl
  refine ⟨fun q v t hq => ?_, ?_, fun q => ?_, ?_, ?_, fun n q hq => ?_⟩
  · rw [owner_register] at hq
    exact h.made q v t hq
  · rw [hl]
    exact List.concat_eq_append ▸ h.nodup.concat hnew
  · rw [hl, length_register, registering_register ht hw, List.mem_append, h.listed,
      List.mem_singleton]
    by_cases hq : q = p
    · simp [hq, hp]
    · simp [hq]
  · rw [hl, hlen, ← h.conns]
    rfl
  · rw [hl, hlen, ← h.seed]
    rfl
  · rw [hl] at hq
    rw [cidOf_register hp]
    rcases lt_or_ge n s.lheadConn.length with hlt | hge
    · rw [List.getElem?_append_left hlt] at hq
      have hne : q ≠ p := by
        rintro rfl
        exact hnew (List.mem_of_getElem? hq)
      rw [if_neg hne]
      exact h.cid n q hq
    · rw [List.getElem?_append_right hge, List.getElem?_singleton] at hq
      split_ifs at hq with hn
      obtain rfl := Option.some.inj hq
      obtain rfl : n = s.lheadConn.length := by omega
      rw [if_pos rfl, h.seed]

theorem inFlight_alloc (h : s.Tables ds) : (s.alloc w src sz).inFlight v =
    if v = w then [(src, sz)] else s.inFlight v := by
  by_cases hv : v = w
  · simp [inFlight, pending_alloc, owner_alloc, hv]
  · rw [if_neg hv]
    refine inFlight_congr (by rw [pending_alloc, if_neg hv]) fun q z hq => ?_
    obtain ⟨t, ho, -⟩ := h.fresh v q z hq
    exact (alloc_old ho).1

theorem inFlight_link (hw : (s.workers w).phase = .linking p sz) (hr : s.heap[p]? = some r) :
    Function.update ds w (ds w ++ [(r.t, sz)]) v ++
      ((s.addHash w p r.t.hash).bump p sz).inFlight v = ds v ++ s.inFlight v := by
  by_cases hv : v = w
  · subst hv
    have hpend : s.pending v = some (p, sz) := by rw [pending, hw]
    have hown : s.owner p = some (r.wid, r.t) := by rw [owner, hr, Option.map_some]
    simp [inFlight, pending_link, hpend, hown]
  · have hsame : ((s.addHash w p r.t.hash).bump p sz).inFlight v = s.inFlight v :=
      inFlight_congr (by rw [pending_link, if_neg hv]) fun q _ _ => owner_link q
    rw [hsame, Function.update_of_ne hv]

theorem refines_step (h : Refines nCpus ds trs tr.src) (ht : (machine nCpus).Takes tr) :
    ∃ ds', Refines nCpus ds' (trs ++ [tr]) tr.dst := by
  obtain ⟨hn, hmove⟩ := takes_move ht
  obtain ⟨s, ⟨w, i⟩, out, s'⟩ := tr
  obtain ⟨htab, hreg, hcount⟩ := h
  dsimp only at hn hmove htab hreg hcount ⊢
  cases hmove with
  | skip _ src d hw hd =>
    refine ⟨ds, htab, hreg, fun v => ?_⟩
    have hv : validAt v ⟨s, (w, .recv src d), out, s⟩ = none := by simp [validAt, hd]
    rw [handled_concat, hv, hcount]
    exact List.append_nil _
  | hit _ src d sz p r hw hd hp hr hwid =>
    refine ⟨_, tables_hit htab hp, ?_, fun v => ?_⟩
    · exact hreg.frame rfl rfl rfl length_bump (fun _ => Iff.rfl) owner_bump cidOf_bump
    · have hsame : (s.bump p sz).inFlight v = s.inFlight v :=
        inFlight_congr rfl fun q _ _ => owner_bump q
      rw [handled_concat, hcount, hsame]
      by_cases hv : v = w
      · subst hv
        simp [validAt, hd, inFlight_of_receiving hw]
      · simp [validAt, hv, Ne.symm hv]
  | miss _ src d sz hw hd hp =>
    refine ⟨ds, tables_alloc htab hw hp, registry_alloc hreg hn hw, fun v => ?_⟩
    rw [handled_concat, hcount, inFlight_alloc htab]
    by_cases hv : v = w
    · subst hv
      simp [validAt, hd, inFlight_of_receiving hw]
    · simp [validAt, hv, Ne.symm hv]
  | register _ p sz hw =>
    refine ⟨ds, tables_register htab hw, registry_register htab hreg hw, fun v => ?_⟩
    have hsame : (s.register w p sz).inFlight v = s.inFlight v :=
      inFlight_congr (pending_register hw) fun q _ _ => owner_register q
    rw [handled_concat, hcount, hsame]
    exact List.append_nil _
  | link _ p sz r hw hr hwid =>
    refine ⟨_, tables_link htab hw hr, ?_, fun v => ?_⟩
    · exact hreg.frame rfl rfl rfl length_bump (fun _ => registering_link hw) owner_link
        fun q => cidOf_bump q
    · rw [handled_concat, hcount, inFlight_link hw hr]
      exact List.append_nil _

theorem refines_run (h : (machine nCpus).Run new trs s) : ∃ ds, Refines nCpus ds trs s := by
  refine h.history (I := fun trs s => ∃ ds, Refines nCpus ds trs s) (C := fun _ => True)
    (fun _ _ => trivial) ?_ fun trs tr ht _ ⟨ds, hds⟩ => refines_step hds ht
  have hnone : ∀ p, new.owner p = none := fun p => rfl
  refine ⟨fun _ => [], ⟨fun w b p hp => ?_, fun w t => ⟨fun _ b => rfl, fun hne => ?_⟩,
    fun w p sz hp => ?_, fun w t p hp => ?_⟩, ⟨fun p w t hp => ?_, List.nodup_nil, fun p => ?_, rfl,
    rfl, fun n p hp => ?_⟩, fun w => rfl⟩
  · exact absurd hp List.not_mem_nil
  · exact absurd rfl hne
  · simp [pending, new] at hp
  · simp [hnone] at hp
  · simp [hnone] at hp
  · simp [new]
  · simp [new] at hp

/-- A worker and a source as one number. -/
def key (o : UInt16 × RconnTuple) : ℕ := o.1.toNat * 2 ^ 48 + o.2.ip.toNat * 2 ^ 16 + o.2.port.toNat

theorem key_lt {o : UInt16 × RconnTuple} (h : o.1 < nCpus) : key o < nCpus.toNat * 2 ^ 48 := by
  have hw : o.1.toNat < nCpus.toNat := UInt16.lt_iff_toNat_lt.mp h
  have hip := o.2.ip.toNat_lt
  have hport := o.2.port.toNat_lt
  rw [key]
  omega

theorem key_injective : Function.Injective key := by
  rintro ⟨w, ip, port⟩ ⟨w', ip', port'⟩ h
  simp only [key] at h
  have hip := ip.toNat_lt
  have hip' := ip'.toNat_lt
  have hport := port.toNat_lt
  have hport' := port'.toNat_lt
  obtain rfl : w = w' := UInt16.toNat_inj.mp (by omega)
  obtain rfl : ip = ip' := UInt32.toNat_inj.mp (by omega)
  obtain rfl : port = port' := UInt16.toNat_inj.mp (by omega)
  rfl

theorem owner_of_lt (h : p < s.heap.length) : ∃ w t, s.owner p = some (w, t) :=
  ⟨_, _, by rw [owner, List.getElem?_eq_getElem h, Option.map_some]⟩

/-- There are fewer records than a `cid` has values. -/
theorem Refines.heap_length_lt (h : Refines nCpus ds trs s) : s.heap.length < 2 ^ 64 := by
  have hcard : (Finset.range s.heap.length).card ≤ (Finset.range (nCpus.toNat * 2 ^ 48)).card := by
    refine Finset.card_le_card_of_injOn (fun p => ((s.owner p).map key).getD 0) ?_ ?_
    · intro p hp
      obtain ⟨w, t, ho⟩ := owner_of_lt (Finset.mem_range.mp hp)
      simpa [ho] using key_lt (h.registry.made p w t ho)
    · intro p hp q hq hkey
      obtain ⟨w, t, ho⟩ := owner_of_lt (Finset.mem_range.mp hp)
      obtain ⟨v, u, ho'⟩ := owner_of_lt (Finset.mem_range.mp hq)
      have heq : (w, t) = (v, u) := key_injective (by simpa [ho, ho'] using hkey)
      exact h.tables.injective ho (heq ▸ ho')
  rw [Finset.card_range, Finset.card_range] at hcard
  have hn := nCpus.toNat_lt
  omega

theorem Refines.lheadConn_length_lt (h : Refines nCpus ds trs s) : s.lheadConn.length < 2 ^ 64 := by
  have hsub : s.lheadConn.toFinset ⊆ Finset.range s.heap.length := by
    intro p hp
    exact Finset.mem_range.mpr ((h.registry.listed p).mp (List.mem_toFinset.mp hp)).1
  have hcard := Finset.card_le_card hsub
  rw [List.toFinset_card_of_nodup h.registry.nodup, Finset.card_range] at hcard
  exact lt_of_le_of_lt hcard h.heap_length_lt

theorem Refines.cids_distinct (h : Refines nCpus ds trs s) :
    s.lheadConn.Pairwise fun p q => s.cidOf p ≠ s.cidOf q := by
  rw [List.pairwise_iff_getElem]
  intro i j hi hj hlt heq
  have hlen := h.lheadConn_length_lt
  rw [h.registry.cid i _ (List.getElem?_eq_getElem hi),
    h.registry.cid j _ (List.getElem?_eq_getElem hj)] at heq
  have hnat := congrArg UInt64.toNat (Option.some.inj heq)
  rw [UInt64.toNat_ofNat_of_lt' (hi.trans hlen), UInt64.toNat_ofNat_of_lt' (hj.trans hlen)] at hnat
  omega

/-- Where the worker is at the step. -/
def AtStep (s : Trcv) (w : UInt16) : Ract → Prop
  | .recv _ _ => (s.workers w).phase = .receiving
  | .register => ∃ p sz, (s.workers w).phase = .registering p sz
  | .link => ∃ p sz, (s.workers w).phase = .linking p sz

/-- No step fails, the assertion in it included. -/
theorem Refines.step_isSome (h : Refines nCpus ds trs s) (hn : w < nCpus) (ha : s.AtStep w a) :
    (step nCpus s (w, a)).isSome := by
  have hcount : ∀ {p t}, s.owner p = some (w, t) → ∀ sz, (s.count w p sz).isSome := by
    intro p t ho sz
    obtain ⟨r, hr, heq⟩ := Option.map_eq_some_iff.mp ho
    have hc : s.count w p sz = some (s.bump p sz) :=
      count_eq_some.mpr ⟨r, hr, (Prod.mk.inj heq).1, rfl⟩
    simp [hc]
  rw [step, if_pos hn]
  cases a with
  | recv src d =>
    have hw : (s.workers w).phase = .receiving := ha
    simp only [workerStep, hw]
    split
    · rfl
    · split
      · rename_i hp
        rw [Option.isSome_map]
        exact hcount (lookup_eq_some h.tables hp).2 _
      · rfl
  | register =>
    obtain ⟨p, sz, hw⟩ := ha
    simp [workerStep, hw]
  | link =>
    obtain ⟨p, sz, hw⟩ := ha
    obtain ⟨t, ho, -⟩ := h.tables.fresh w p sz (by rw [pending, hw])
    obtain ⟨r, hr, heq⟩ := Option.map_eq_some_iff.mp ho
    have hc : (s.addHash w p r.t.hash).count w p sz = some ((s.addHash w p r.t.hash).bump p sz) :=
      count_eq_some.mpr ⟨r, hr, (Prod.mk.inj heq).1, rfl⟩
    simp [workerStep, hw, hr, hc]

/-- Every record that is not being registered is in the list once, under a `cid` of its own. -/
structure Listing (s : Trcv) : Prop where
  once (p : Ptr) : p < s.heap.length → ¬s.Registering p → s.lheadConn.count p = 1
  only (p : Ptr) : p ∈ s.lheadConn → p < s.heap.length
  cids : s.lheadConn.Pairwise fun p q => s.cidOf p ≠ s.cidOf q
  conns : s.nConns.toNat = s.lheadConn.length

theorem tables_refine (h : (machine nCpus).Run new trs s) :
    (∀ w, (s.workers w).phase = .receiving → ∀ t, s.Slot w t (sizes t (handled w trs))) ∧
      s.Listing ∧ ∀ w a, w < nCpus → s.AtStep w a → (step nCpus s (w, a)).isSome := by
  obtain ⟨ds, hds⟩ := refines_run h
  refine ⟨fun w hw t => ?_, ⟨fun p hp hreg => ?_, fun p hp => ?_, hds.cids_distinct, ?_⟩,
    fun w a hn ha => hds.step_isSome hn ha⟩
  · rw [hds.handled, inFlight_of_receiving hw, List.append_nil]
    exact hds.tables.slot w t
  · exact List.count_eq_one_of_mem hds.registry.nodup ((hds.registry.listed p).mpr ⟨hp, hreg⟩)
  · exact ((hds.registry.listed p).mp hp).1
  · rw [hds.registry.conns, UInt64.toNat_ofNat_of_lt' hds.lheadConn_length_lt]

/-- A datagram of ttest with the given `pktsize`. -/
def datagram (pktsize : UInt16) : List UInt8 :=
  ([0xab, 0xcd, 0xdc, 0xba, 0, 0, 0, 1] : List UInt8) ++
    [(pktsize >>> 8).toUInt8, pktsize.toUInt8] ++ List.replicate 90 0

/-- Two sources in one bucket of worker 0, one of them with worker 1 as well, and a short
datagram. -/
def collisions : List (UInt16 × Ract) :=
  [(0, .recv ⟨7, 5⟩ (datagram 1472)), (1, .recv ⟨7, 5⟩ (datagram 64)), (1, .register),
    (0, .register), (1, .link), (0, .link), (0, .recv ⟨7, 8197⟩ (datagram 100)), (0, .register),
    (0, .link), (0, .recv ⟨7, 5⟩ (datagram 1472)), (0, .recv ⟨7, 5⟩ [0xab])]

theorem collisions_accepted : ((machine 2).exec new collisions).isSome := by decide +kernel

theorem tables_refine_collisions :
    ∃ trs s, (machine 2).exec new collisions = some (trs, s) ∧ s.lheadConn = [1, 0, 2] ∧
      s.Slot 0 ⟨7, 5⟩ [1472, 1472] ∧ s.Slot 0 ⟨7, 8197⟩ [100] ∧ s.Slot 1 ⟨7, 8197⟩ [] := by
  have hlist : (Option.get _ collisions_accepted).2.lheadConn = [1, 0, 2] := by decide +kernel
  have hphase₀ : ((Option.get _ collisions_accepted).2.workers 0).phase = .receiving := by
    decide +kernel
  have hphase₁ : ((Option.get _ collisions_accepted).2.workers 1).phase = .receiving := by
    decide +kernel
  have hsizes : sizes ⟨7, 5⟩ (handled 0 (Option.get _ collisions_accepted).1) = [1472, 1472] ∧
      sizes ⟨7, 8197⟩ (handled 0 (Option.get _ collisions_accepted).1) = [100] ∧
      sizes ⟨7, 8197⟩ (handled 1 (Option.get _ collisions_accepted).1) = [] := by
    decide +kernel
  have hslot := (tables_refine (Machine.exec_get_run collisions_accepted)).1
  refine ⟨_, _, (Option.some_get collisions_accepted).symm, hlist, ?_, ?_, ?_⟩
  · exact hsizes.1 ▸ hslot 0 hphase₀ ⟨7, 5⟩
  · exact hsizes.2.1 ▸ hslot 0 hphase₀ ⟨7, 8197⟩
  · exact hsizes.2.2 ▸ hslot 1 hphase₁ ⟨7, 8197⟩

end TcpEyenet.Ttest.Trcv
