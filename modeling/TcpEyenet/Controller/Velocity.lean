import TcpEyenet.Controller.Frame

/-! The direction and the velocity of the window inside a round trip. -/
namespace TcpEyenet.Eyenet

variable {e e' x y : Eyenet} {trs pre : List (Transition Eyenet Op ℚ)}
  {tr : Transition Eyenet Op ℚ} {ds : List ℤ} {d : ℤ}

/-- `update_intersend` is past slow start and the probes, and the RTT since the last decision has
not gone by. -/
def MidRtt (e : Eyenet) : Prop :=
  e.ss = false ∧ 2 ≤ e.cwnd ∧ 0 < e.delta ∧ 1 ≤ e.updateAmt ∧ 2 * e.nprobe - 1 ≤ e.nack ∧
    e.currTs ≤ e.lastUpdateTs + e.rttSample.currRtt

instance (e : Eyenet) : Decidable e.MidRtt := inferInstanceAs (Decidable (_ ∧ _ ∧ _ ∧ _ ∧ _ ∧ _))

/-- The way the window has to go. -/
def turn (e : Eyenet) : ℤ := if e.cwnd < e.targetCwnd.val then 1 else -1

/-- From `e` to `x` nothing was decided and the turns were counted. -/
def Tallied (e x : Eyenet) (ds : List ℤ) : Prop :=
  x.lastUpdateDir = e.lastUpdateDir ∧ x.lastUpdateTs = e.lastUpdateTs ∧
    x.pktsRtt = e.pktsRtt + ds.length ∧ x.updateDir = e.updateDir + ds.sum

instance (e x : Eyenet) (ds : List ℤ) : Decidable (Tallied e x ds) :=
  inferInstanceAs (Decidable (_ ∧ _ ∧ _ ∧ _))

/-- Nothing is left for a reset to change. -/
def AtRest (e : Eyenet) : Prop :=
  e.lastUpdateDir = 0 ∧ e.lastUpdateTs = e.currTs ∧ e.pktsRtt = 0 ∧ e.updateDir = 0

instance (e : Eyenet) : Decidable e.AtRest := inferInstanceAs (Decidable (_ ∧ _ ∧ _ ∧ _))

theorem clampAmt_of_one (h : e.updateAmt = 1) :
    e.clampAmt = { e with updateAmt := 1, pktsRtt := e.pktsRtt + 1 } := by
  unfold clampAmt
  dsimp only
  rw [h]
  split_ifs <;> norm_num

theorem moveCwnd_steering (e : Eyenet) (tCwnd : ℚ) : (e.moveCwnd tCwnd).val.steering =
    { e.steering with updateDir := e.updateDir + if e.cwnd < tCwnd then 1 else -1 } := by
  simp only [moveCwnd, Traced.bind_val, Traced.ite_val, Traced.pure_val]
  split_ifs <;> rfl

/-- The resets are made on every ack, and inside the RTT the last direction is turned round. -/
theorem updateIntersend_midRtt (h : e.MidRtt) :
    e.updateIntersend.val.steering =
      { ss := false
        lastUpdateDir := -e.lastUpdateDir
        lastUpdateTs := e.currTs
        pktsRtt := 1
        updateDir := e.turn
        updateAmt := 1 } := by
  obtain ⟨hss, -, -, -, hn, hts⟩ := h
  have hsteer : e.steer e.targetCwnd.val =
      { e with
        updateAmt := 1
        lastUpdateDir := e.lastUpdateDir * -1
        lastUpdateTs := e.currTs
        pktsRtt := 0
        updateDir := 0 } := by
    rw [steer, if_neg (by simp [hss]), velocity, reviseAmt, if_neg (not_lt.mpr hts)]
  simp only [updateIntersend, if_neg (not_lt.mpr hn), Traced.bind_val, hsteer]
  rw [clampAmt_of_one rfl]
  apply (moveCwnd_steering _ e.targetCwnd.val).trans
  simp [steering, turn, hss]

/-- One ack counts as it should where there is nothing to reset, and nowhere else. -/
theorem tallied_updateIntersend_iff (h : e.MidRtt) :
    Tallied e e.updateIntersend.val [e.turn] ↔ e.AtRest := by
  have heq := updateIntersend_midRtt h
  obtain ⟨-, hdir, hts, hn, hturn, -⟩ := Steering.mk.inj heq
  rw [Tallied, AtRest, hdir, hts, hn, hturn, List.length_singleton, List.sum_singleton]
  constructor
  · rintro ⟨h₁, h₂, h₃, h₄⟩
    exact ⟨by omega, h₂.symm, by push_cast at h₃; omega, by omega⟩
  · rintro ⟨h₁, h₂, h₃, h₄⟩
    exact ⟨by omega, h₂.symm, by push_cast; omega, by omega⟩

/-- Where `update_intersend` starts from, if the call is an ack. -/
def entryOf (tr : Transition Eyenet Op ℚ) : Option Eyenet :=
  match tr.input with
  | .onAck _ _ sendTs => some (tr.src.atUpdate sendTs)
  | _ => none

/-- The turns that the acks of a run make. -/
def turns (trs : List (Transition Eyenet Op ℚ)) : List ℤ := (trs.filterMap entryOf).map turn

/-- Every ack of the run comes inside the RTT since the last decision. -/
def WithinRtt (trs : List (Transition Eyenet Op ℚ)) : Prop :=
  ∀ tr ∈ trs, tr.input ≠ .initialise ∧ ∀ u ∈ entryOf tr, u.MidRtt

/-- Every ack of the run finds nothing to reset. -/
def AlwaysAtRest (trs : List (Transition Eyenet Op ℚ)) : Prop :=
  ∀ tr ∈ trs, ∀ u ∈ entryOf tr, u.AtRest

/-- After every call of the run the counters have followed the acks so far. -/
def Accumulates (e : Eyenet) (trs : List (Transition Eyenet Op ℚ)) : Prop :=
  ∀ pre tr post, trs = pre ++ tr :: post → Tallied e tr.dst (turns (pre ++ [tr]))

theorem Tallied.concat_iff (h : Tallied e x ds) : Tallied e y (ds ++ [d]) ↔ Tallied x y [d] := by
  obtain ⟨h₁, h₂, h₃, h₄⟩ := h
  simp only [Tallied, List.length_append, List.sum_append, List.length_singleton,
    List.sum_singleton, h₁, h₂, h₃, h₄, Nat.cast_add]
  rw [add_assoc, add_assoc]

theorem tallied_nil (h : x.steering = e.steering) : Tallied e x [] := by
  obtain ⟨-, h₁, h₂, h₃, h₄, -⟩ := Steering.mk.inj h
  simp [Tallied, h₁, h₂, h₃, h₄]

theorem tallied_congr (he : e.steering = e'.steering) (hx : x.steering = y.steering) :
    Tallied e x ds ↔ Tallied e' y ds := by
  obtain ⟨-, h₁, h₂, h₃, h₄, -⟩ := Steering.mk.inj he
  obtain ⟨-, k₁, k₂, k₃, k₄, -⟩ := Steering.mk.inj hx
  simp only [Tallied, h₁, h₂, h₃, h₄, k₁, k₂, k₃, k₄]

theorem turns_concat_none (h : entryOf tr = none) : turns (pre ++ [tr]) = turns pre := by
  simp [turns, h]

theorem turns_concat_some {u : Eyenet} (h : entryOf tr = some u) :
    turns (pre ++ [tr]) = turns pre ++ [u.turn] := by
  simp [turns, h]

/-- A call other than a reset steers only as an ack. -/
theorem takes_entry (ht : machine.Takes tr) (hi : tr.input ≠ .initialise) :
    (entryOf tr = none ∧ tr.dst.steering = tr.src.steering) ∨
    ∃ u, entryOf tr = some u ∧ u.steering = tr.src.steering ∧
      tr.dst.steering = u.updateIntersend.val.steering := by
  rcases takes_cases ht with ⟨hin, -⟩ | ⟨ts, hin, hd⟩ | ⟨k, hin, hd⟩ | ⟨a, r, s, hin, hd⟩
  · exact absurd hin hi
  · left
    rw [hd]
    exact ⟨by simp [entryOf, hin], rfl⟩
  · left
    rw [hd]
    exact ⟨by simp [entryOf, hin], onPktSent_steering⟩
  · exact .inr ⟨tr.src.atUpdate s, by simp [entryOf, hin], atUpdate_steering, onAck_steering hd⟩

/-- An ack that comes inside the RTT. -/
theorem tallied_concat_iff {u : Eyenet} (h : Tallied e x ds) (hm : u.MidRtt)
    (hu : u.steering = x.steering) (hy : y.steering = u.updateIntersend.val.steering) :
    Tallied e y (ds ++ [u.turn]) ↔ u.AtRest := by
  rw [h.concat_iff, tallied_congr hu.symm hy, tallied_updateIntersend_iff hm]

theorem accumulates_src (hr : machine.Run e pre x)
    (h : ∀ l tr r, pre = l ++ tr :: r → Tallied e tr.dst (turns (l ++ [tr]))) :
    Tallied e x (turns pre) := by
  cases hr with
  | refl => exact tallied_nil rfl
  | @snoc ts tr hr ht => exact h ts tr [] rfl

theorem Accumulates.atRest (h : Accumulates e trs) (hr : machine.Run e trs e')
    (hw : WithinRtt trs) : AlwaysAtRest trs := by
  intro tr hm u hu
  obtain ⟨pre, post, he⟩ := List.append_of_mem hm
  obtain ⟨hpre, ht⟩ := hr.split he
  have hsrc : Tallied e tr.src (turns pre) := by
    apply accumulates_src hpre
    intro l tr' r hl
    exact h l tr' (r ++ tr :: post) (by simp [he, hl])
  have hdst := h pre tr post he
  rcases takes_entry ht (hw tr hm).1 with ⟨hnone, -⟩ | ⟨u', hsome, hu', hd⟩
  · simp [hnone] at hu
  · obtain rfl : u' = u := by simpa [hsome] using hu
    rw [turns_concat_some hsome] at hdst
    exact (tallied_concat_iff hsrc ((hw tr hm).2 u' hu) hu' hd).mp hdst

/-- Where every ack finds nothing to reset the counters follow it, and there is one ack at most. -/
theorem tallied_of_atRest (hr : machine.Run e trs e') (hw : WithinRtt trs)
    (hrest : AlwaysAtRest trs) :
    Tallied e e' (turns trs) ∧ (turns trs).length ≤ 1 ∧ (turns trs ≠ [] → e'.pktsRtt = 1) := by
  refine hr.history (I := fun ts x => Tallied e x (turns ts) ∧ (turns ts).length ≤ 1 ∧
    (turns ts ≠ [] → x.pktsRtt = 1)) (fun tr hm => And.intro (hw tr hm) (hrest tr hm))
    ⟨tallied_nil rfl, by simp [turns], by simp [turns]⟩ ?_
  rintro ts tr ht ⟨⟨hi, hmid⟩, hat⟩ ⟨htal, hlen, hone⟩
  rcases takes_entry ht hi with ⟨hnone, hd⟩ | ⟨u, hsome, hu, hd⟩
  · have hpkts : tr.dst.pktsRtt = tr.src.pktsRtt := congrArg Steering.pktsRtt hd
    rw [turns_concat_none hnone, hpkts]
    exact ⟨(tallied_congr rfl hd).mpr htal, hlen, hone⟩
  · have hpkts : tr.dst.pktsRtt = 1 :=
      congrArg Steering.pktsRtt (hd.trans (updateIntersend_midRtt (hmid u hsome)))
    have hzero : tr.src.pktsRtt = 0 :=
      (congrArg Steering.pktsRtt hu).symm.trans (hat u hsome).2.2.1
    have hnil : turns ts = [] := by
      by_contra hne
      have hpos := hone hne
      omega
    rw [turns_concat_some hsome]
    refine ⟨(tallied_concat_iff htal (hmid u hsome) hu hd).mpr (hat u hsome), ?_, fun _ => hpkts⟩
    simp [hnil]

theorem accumulates_iff (hr : machine.Run e trs e') (hw : WithinRtt trs) :
    Accumulates e trs ↔ (turns trs).length ≤ 1 ∧ AlwaysAtRest trs := by
  constructor
  · intro h
    have hat := h.atRest hr hw
    exact ⟨(tallied_of_atRest hr hw hat).2.1, hat⟩
  · rintro ⟨-, hat⟩ pre tr post he
    obtain ⟨hpre, ht⟩ := hr.split he
    have hsub : ∀ tr' ∈ pre ++ [tr], tr' ∈ trs := by
      intro tr' hm
      rw [he]
      simp only [List.mem_append, List.mem_cons, List.not_mem_nil, or_false] at hm ⊢
      tauto
    exact (tallied_of_atRest (.snoc hpre ht) (fun tr' hm => hw tr' (hsub tr' hm))
      fun tr' hm => hat tr' (hsub tr' hm)).1

/-- One ack counts, and any acks inside one round trip add up, just where each of them finds
nothing to reset; a second one never does. -/
theorem decides_once_iff (x : Eyenet) (hr : machine.Run e trs e') (hw : WithinRtt trs) :
    (x.MidRtt → (Tallied x x.updateIntersend.val [x.turn] ↔ x.AtRest)) ∧
      (Accumulates e trs ↔ (turns trs).length ≤ 1 ∧ AlwaysAtRest trs) :=
  ⟨tallied_updateIntersend_iff, accumulates_iff hr hw⟩

/-- Twenty acks at one time, the last of which moves the window. -/
def burst : List Op := .setTs 5 :: List.replicate 20 (.onAck 1 0 0)

theorem burst_accepted : (machine.exec (new 1) burst).isSome := by
  decide +kernel

theorem burst_midRtt : ((Option.get _ burst_accepted).2.atUpdate 0).MidRtt := by
  decide +kernel

/-- The next ack of the burst starts the count again. -/
theorem decides_again :
    ∃ trs e, machine.exec (new 1) burst = some (trs, e) ∧ (e.atUpdate 0).MidRtt ∧
      ¬ Tallied (e.atUpdate 0) (e.atUpdate 0).updateIntersend.val [(e.atUpdate 0).turn] := by
  have hnot : ¬ Tallied ((Option.get _ burst_accepted).2.atUpdate 0)
      ((Option.get _ burst_accepted).2.atUpdate 0).updateIntersend.val
      [((Option.get _ burst_accepted).2.atUpdate 0).turn] := by
    decide +kernel
  exact ⟨_, _, (Option.some_get burst_accepted).symm, burst_midRtt, hnot⟩

def twoMore : List Op := [.onPktSent 0, .onAck 1 0 0, .onAck 1 0 0]

theorem twoMore_accepted :
    (machine.exec (Option.get _ burst_accepted).2 twoMore).isSome := by
  decide +kernel

theorem decides_once_iff_burst :
    ∃ trs e, machine.exec (Option.get _ burst_accepted).2 twoMore = some (trs, e) ∧
      (turns trs).length = 2 ∧
      (Accumulates (Option.get _ burst_accepted).2 trs ↔
        (turns trs).length ≤ 1 ∧ AlwaysAtRest trs) ∧
      (Tallied ((Option.get _ burst_accepted).2.atUpdate 0)
          ((Option.get _ burst_accepted).2.atUpdate 0).updateIntersend.val
          [((Option.get _ burst_accepted).2.atUpdate 0).turn] ↔
        ((Option.get _ burst_accepted).2.atUpdate 0).AtRest) := by
  have hw : ∀ tr ∈ (Option.get _ twoMore_accepted).1, tr.input ≠ .initialise ∧
      ∀ u ∈ entryOf tr, u.MidRtt := by
    decide +kernel
  have hlen : (turns (Option.get _ twoMore_accepted).1).length = 2 := by decide +kernel
  obtain ⟨hone, hmany⟩ := decides_once_iff ((Option.get _ burst_accepted).2.atUpdate 0)
    (Machine.exec_get_run twoMore_accepted) hw
  exact ⟨_, _, (Option.some_get twoMore_accepted).symm, hlen, hmany, hone burst_midRtt⟩

end TcpEyenet.Eyenet
