import TcpEyenet.Controller.Frame

/-! What the loop of `on_ack` over `unacked_pkts` does, entry by entry. -/
namespace TcpEyenet.Eyenet

variable {e : Eyenet} {s s' : Sweep} {seqNo k : ℤ} {pkt : PacketInfo} {l : List (ℤ × PacketInfo)}

/-- From `e` to `e'` the entries of `l` up to `seqNo` went, and those before it were counted. -/
structure Retires (seqNo : ℤ) (l : List (ℤ × PacketInfo)) (e e' : Eyenet) : Prop where
  unackedPkts (k : ℤ) : e'.unackedPkts[k]? =
    if k ≤ seqNo ∧ k ∈ l.map Prod.fst then none else e.unackedPkts[k]?
  nlost : e'.nlost = e.nlost + (l.map Prod.fst).countP (· < seqNo)
  size : e'.unackedPkts.size + (l.map Prod.fst).countP (· ≤ seqNo) = e.unackedPkts.size

theorem retireOne_tmpSeq : (retireOne seqNo k pkt s).tmpSeq = k := by
  unfold retireOne
  dsimp only
  split_ifs <;> rfl

theorem retireOne_unackedPkts :
    (retireOne seqNo k pkt s).eyenet.unackedPkts = s.eyenet.unackedPkts.erase k := by
  unfold retireOne
  dsimp only
  split_ifs <;> rfl

theorem retireOne_nlost : (retireOne seqNo k pkt s).eyenet.nlost =
    s.eyenet.nlost + if k < seqNo then 1 else 0 := by
  unfold retireOne
  dsimp only
  split_ifs <;> simp

theorem getElem?_erase_unacked {m : Std.TreeMap ℤ PacketInfo} (j k : ℤ) :
    (m.erase k)[j]? = if j = k then none else m[j]? := by
  rw [Std.TreeMap.getElem?_erase]
  simp only [compare_eq_iff_eq, @eq_comm _ k j]

theorem mem_erase_unacked {m : Std.TreeMap ℤ PacketInfo} {j k : ℤ} :
    j ∈ m.erase k ↔ j ≠ k ∧ j ∈ m := by
  rw [Std.TreeMap.mem_erase]
  simp only [ne_eq, compare_eq_iff_eq, @eq_comm _ k j]

theorem size_erase_unacked {m : Std.TreeMap ℤ PacketInfo} {k : ℤ} (h : k ∈ m) :
    (m.erase k).size + 1 = m.size := by
  have hpos : 0 < m.size := by
    rw [← Std.TreeMap.length_keys]
    exact List.length_pos_of_mem (Std.TreeMap.mem_keys.mpr h)
  rw [Std.TreeMap.size_erase, if_pos (Std.TreeMap.mem_iff_contains.mp h)]
  omega

theorem unackedPkts_sorted (e : Eyenet) : (e.unackedPkts.toList.map Prod.fst).Pairwise (· < ·) := by
  rw [List.pairwise_map]
  exact Std.TreeMap.ordered_keys_toList.imp fun hlt => compare_lt_iff_lt.mp hlt

theorem mem_unackedPkts_iff : k ∈ e.unackedPkts.toList.map Prod.fst ↔ k ∈ e.unackedPkts := by
  rw [Std.TreeMap.map_fst_toList_eq_keys, Std.TreeMap.mem_keys]

/-- Where every key is beyond the acknowledged one, the loop stops at once. -/
theorem retires_of_lt (hall : ∀ j ∈ l.map Prod.fst, seqNo < j) : Retires seqNo l e e := by
  have hle : (l.map Prod.fst).countP (· ≤ seqNo) = 0 :=
    List.countP_eq_zero.mpr fun j hj => by simpa using hall j hj
  have hlt : (l.map Prod.fst).countP (· < seqNo) = 0 :=
    List.countP_eq_zero.mpr fun j hj => by simpa using (hall j hj).le
  refine ⟨fun j => ?_, ?_, ?_⟩
  · rw [if_neg]
    rintro ⟨hj, hm⟩
    exact absurd (hall j hm) (not_lt.mpr hj)
  · rw [hlt, Nat.cast_zero, add_zero]
  · rw [hle, add_zero]

/-- One entry, and then the others. -/
theorem Retires.cons {e' : Eyenet} (hgt : ¬ seqNo < k) (hk : k ∈ s.eyenet.unackedPkts)
    (hr : Retires seqNo l (retireOne seqNo k pkt s).eyenet e') :
    Retires seqNo ((k, pkt) :: l) s.eyenet e' := by
  refine ⟨fun j => ?_, ?_, ?_⟩
  · rw [hr.unackedPkts, retireOne_unackedPkts, getElem?_erase_unacked]
    simp only [List.map_cons, List.mem_cons]
    by_cases hjk : j = k
    · have hle : j ≤ seqNo := hjk ▸ not_lt.mp hgt
      simp [hjk, hjk ▸ hle]
    · simp only [hjk, if_false, false_or]
  · rw [hr.nlost, retireOne_nlost, List.map_cons, List.countP_cons]
    simp only [decide_eq_true_eq]
    split_ifs <;> push_cast <;> ring
  · have hsize := hr.size
    rw [retireOne_unackedPkts] at hsize
    have herase := size_erase_unacked hk
    rw [List.map_cons, List.countP_cons_of_pos (by simpa using hgt)]
    omega

/-- Entries in key order never trip the order check, so the loop always finishes. -/
theorem retire_ok (seqNo : ℤ) (hsort : (l.map Prod.fst).Pairwise (· < ·))
    (htmp : ∀ k ∈ l.map Prod.fst, s.tmpSeq ≤ k)
    (hmem : ∀ k ∈ l.map Prod.fst, k ∈ s.eyenet.unackedPkts) :
    ∃ s', retire seqNo l s = .ok s' ∧ Retires seqNo l s.eyenet s'.eyenet := by
  induction l generalizing s with
  | nil => exact ⟨s, rfl, retires_of_lt (by simp)⟩
  | cons x l ih =>
    obtain ⟨k, pkt⟩ := x
    simp only [List.map_cons, List.pairwise_cons, List.forall_mem_cons] at hsort htmp hmem
    obtain ⟨hk, hsort⟩ := hsort
    simp only [retire, if_neg (not_lt.mpr htmp.1)]
    split_ifs with hgt
    · have hall : ∀ j ∈ (k :: l.map Prod.fst), seqNo < j := by
        simp only [List.forall_mem_cons]
        exact ⟨hgt, fun j hj => hgt.trans (hk j hj)⟩
      exact ⟨_, rfl, retires_of_lt hall⟩
    · have hmem' : ∀ j ∈ l.map Prod.fst, j ∈ (retireOne seqNo k pkt s).eyenet.unackedPkts := by
        intro j hj
        rw [retireOne_unackedPkts, mem_erase_unacked]
        exact ⟨(hk j hj).ne', hmem.2 j hj⟩
      obtain ⟨s', hs', hr⟩ := ih hsort
        (fun j hj => by rw [retireOne_tmpSeq]; exact (hk j hj).le) hmem'
      exact ⟨s', hs', .cons hgt hmem.1 hr⟩

/-- What the loop does to the map and to the count of the lost. -/
theorem sweep_ok (hpos : ∀ k ∈ e.unackedPkts, 0 ≤ k) (seqNo : ℤ) :
    ∃ s, e.sweep seqNo = .ok s ∧
      (seqNo ∈ e.unackedPkts → Retires seqNo e.unackedPkts.toList e s.eyenet) ∧
      (seqNo ∉ e.unackedPkts → s.eyenet = e) := by
  unfold sweep
  dsimp only
  by_cases hin : seqNo ∈ e.unackedPkts
  · have htmp : ∀ k ∈ e.unackedPkts.toList.map Prod.fst, -1 ≤ k := by
      intro k hk
      have hk := hpos k (mem_unackedPkts_iff.mp hk)
      omega
    obtain ⟨s, hs, hr⟩ := retire_ok seqNo
      (s := { eyenet := e, tmpSeq := -1, loss := false, reduce := false }) e.unackedPkts_sorted htmp
      fun k => mem_unackedPkts_iff.mp
    rw [if_pos (Std.TreeMap.mem_iff_contains.mp hin)]
    exact ⟨s, hs, fun _ => hr, fun hnot => absurd hin hnot⟩
  · rw [if_neg (fun h => hin (Std.TreeMap.mem_iff_contains.mpr h))]
    exact ⟨_, rfl, fun h => absurd h hin, fun _ => rfl⟩

end TcpEyenet.Eyenet
