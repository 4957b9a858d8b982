import TcpEyenet.Controller.Accounts
import TcpEyenet.Lib.Cursor

/-! The loop of `on_ack` over `unacked_pkts` with the iterator it goes by. -/
namespace TcpEyenet.Eyenet

open Cursor

variable {e : Eyenet} {δ recvTs sendTs : ℚ} {ack seqNo k : ℤ} {u : Utility}
  {trs : List (Transition Eyenet Op ℚ)}

/-- The body of the loop, which erases the entry it has retired. -/
def visit (seqNo k : ℤ) (pkt : PacketInfo) (s : Sweep) : Pass ℤ Sweep Exit :=
  if s.tmpSeq > k then .exit .malformedUnacked
  else if k > seqNo then .leave { s with tmpSeq := k }
  else .on (retireOne seqNo k pkt s) [k]

/-- The loop, which logs the keys it visits. Every entry needs one pass at most. -/
def walk (e : Eyenet) (seqNo : ℤ) : Traced ℤ (Ending Sweep Exit) :=
  let s : Sweep := { eyenet := e, tmpSeq := -1, loss := false, reduce := false }
  if e.unackedPkts.contains seqNo then
    rangeFor (fun s => s.eyenet.unackedPkts) (visit seqNo) (e.unackedPkts.size + 1)
      (start e.unackedPkts) s
  else pure (.finished s)

/-- `on_ack` with that loop in it. -/
def onAckWalk (e : Eyenet) (ack : ℤ) (_recvTs sendTs : ℚ) : Traced ℤ (Ending Eyenet Exit) :=
  if e.currTs < sendTs then pure (.exited .sendInFuture)
  else if (e.sampleRtt (e.currTs - sendTs)).rttSample.virginRtt.tail <
      (e.sampleRtt (e.currTs - sendTs)).rttMin then pure (.exited .rttBelowMin)
  else do
    let w ← (e.atUpdate sendTs).updateIntersend.val.walk (ack - 1)
    pure (w.map fun s => (settle s).val)

/-- The ack finishes, and has visited every entry up to its own once. -/
def Traverses (e : Eyenet) (ack : ℤ) (recvTs sendTs : ℚ) : Prop :=
  (e.onAckWalk ack recvTs sendTs).val.isFinished = true ∧
    ∀ k ∈ e.unackedPkts, k ≤ ack - 1 → (e.onAckWalk ack recvTs sendTs).log.count k = 1

/-- Where the loop runs, it steps on from the first entry, which it has erased, or exits there. -/
theorem walk_of_mem (h : seqNo ∈ e.unackedPkts) : (e.walk seqNo).val.isFinished = false := by
  have hne : e.unackedPkts.minKey? ≠ none := by
    intro hnone
    rw [Std.TreeMap.minKey?_eq_none_iff] at hnone
    simp [Std.TreeMap.mem_iff_contains, Std.TreeMap.contains_of_isEmpty hnone] at h
  obtain ⟨k, hk⟩ := Option.ne_none_iff_exists'.mp hne
  obtain ⟨hmem, hmin⟩ := Std.TreeMap.minKey?_eq_some_iff_mem_and_forall.mp hk
  have hle : k ≤ seqNo := by
    by_contra hlt
    have hcmp := hmin seqNo h
    rw [compare_gt_iff_gt.mpr (not_le.mp hlt)] at hcmp
    simp at hcmp
  have hget : (Sweep.mk e (-1) false false).eyenet.unackedPkts[k]? = some e.unackedPkts[k] :=
    Std.TreeMap.getElem?_eq_some_getElem hmem
  have hstart : start e.unackedPkts = .entry k := by
    rw [start, ← Std.TreeMap.minKey?_eq_head?_keys, hk, Option.elim]
  simp only [walk, Std.TreeMap.mem_iff_contains.mp h, if_true, hstart]
  by_cases htmp : -1 > k
  · have hexit : visit seqNo k e.unackedPkts[k] ⟨e, -1, false, false⟩ = .exit .malformedUnacked :=
      if_pos htmp
    rw [rangeFor_exits (f := fun s : Sweep => s.eyenet.unackedPkts) hget hexit]
    rfl
  · have hon : visit seqNo k e.unackedPkts[k] ⟨e, -1, false, false⟩ =
        .on (retireOne seqNo k e.unackedPkts[k] ⟨e, -1, false, false⟩) [k] := by
      rw [visit, if_neg htmp, if_neg (not_lt.mpr hle)]
    have herased : k ∈ [k] := List.mem_singleton_self k
    rw [rangeFor_strays (f := fun s : Sweep => s.eyenet.unackedPkts) hget hon herased]
    rfl

theorem walk_of_not_mem (h : seqNo ∉ e.unackedPkts) :
    (e.walk seqNo).val.isFinished = true ∧ (e.walk seqNo).log = [] := by
  rw [Std.TreeMap.mem_iff_contains] at h
  simp only [walk, h]
  exact ⟨rfl, rfl⟩

theorem onAckWalk_eq (hr : e.rttSample.Inv) (ack : ℤ) (recvTs : ℚ) (hle : sendTs ≤ e.currTs) :
    (e.onAckWalk ack recvTs sendTs).val.isFinished =
        ((e.atUpdate sendTs).updateIntersend.val.walk (ack - 1)).val.isFinished ∧
      (e.onAckWalk ack recvTs sendTs).log =
        ((e.atUpdate sendTs).updateIntersend.val.walk (ack - 1)).log := by
  have hmin := not_rttBelowMin (RttWin.inv_add hr (sub_nonneg.mpr hle))
  rw [onAckWalk, if_neg (not_lt.mpr hle), if_neg hmin]
  simp

/-- The traversal is well defined and complete just if there is nothing to traverse: as soon as an
ack finds its packet the loop steps on from the entry that it has erased. -/
theorem traverses_iff (hr : machine.Run (newWith δ u) trs e) (ack : ℤ) (recvTs : ℚ)
    (hle : sendTs ≤ e.currTs) :
    Traverses e ack recvTs sendTs ↔ ∀ k ∈ e.unackedPkts, ack - 1 < k := by
  obtain ⟨hval, hlog⟩ := onAckWalk_eq (rtt_run hr) ack recvTs hle
  have hmap := (swept_books e sendTs).1
  rw [Traverses, hval, hlog]
  by_cases hin : ack - 1 ∈ e.unackedPkts
  · rw [walk_of_mem (hmap ▸ hin)]
    refine iff_of_false (by simp) fun hall => ?_
    exact absurd (hall _ hin) (lt_irrefl _)
  · obtain ⟨hfin, hnil⟩ := walk_of_not_mem (hmap ▸ hin)
    rw [hfin, hnil]
    simp

/-- One packet is sent, and its ack comes. -/
def onePacket : List Op := [.initialise, .setTs 1, .onPktSent 0, .setTs 5]

theorem onePacket_accepted : (machine.exec (new 1) onePacket).isSome := by
  decide +kernel

theorem steps_from_erased :
    ∃ trs e, machine.exec (new 1) onePacket = some (trs, e) ∧ 1 ≤ e.currTs ∧
      ¬ Traverses e 1 3 1 := by
  have hlate : 1 ≤ (Option.get _ onePacket_accepted).2.currTs := by decide +kernel
  have hstray : ((Option.get _ onePacket_accepted).2.onAckWalk 1 3 1).val.isFinished = false := by
    decide +kernel
  obtain ⟨⟨trs, e⟩, hx⟩ := Option.isSome_iff_exists.mp onePacket_accepted
  simp only [hx, Option.get_some] at hlate hstray
  refine ⟨trs, e, hx, hlate, fun h => ?_⟩
  have hfin := h.1
  rw [hstray] at hfin
  simp at hfin

theorem traverses_iff_onePacket :
    ∃ trs e, machine.exec (new 1) onePacket = some (trs, e) ∧ e.unackedPkts.size = 1 ∧
      (Traverses e 1 3 1 ↔ ∀ k ∈ e.unackedPkts, (1 : ℤ) - 1 < k) := by
  have hlate : 1 ≤ (Option.get _ onePacket_accepted).2.currTs := by decide +kernel
  have hsize : (Option.get _ onePacket_accepted).2.unackedPkts.size = 1 := by decide +kernel
  exact ⟨_, _, (Option.some_get onePacket_accepted).symm, hsize,
    traverses_iff (u := .constant) (Machine.exec_get_run onePacket_accepted) 1 3 hlate⟩

end TcpEyenet.Eyenet
