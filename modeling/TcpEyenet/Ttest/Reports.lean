import TcpEyenet.Lib.Machine
import TcpEyenet.Ttest.Stats

/-! The interval reports of ttest, while the workers go on counting. -/
namespace TcpEyenet.Ttest

/-- Where `print_all_conn_stats` stands: before the next element of its loop, or at one of them
with the locals `prev` and `now` read so far. -/
inductive Phase (ι : Type)
  | todo (is : List ι)
  | gotPrev (i : ι) (prev : Counters) (is : List ι)
  | gotNow (i : ι) (prev now : Counters) (is : List ι)
  | copied (i : ι) (prev now : Counters) (is : List ι)

/-- The records of the workers of a sender, or of the connections of a receiver. -/
structure Monitor (ι : Type) where
  stats : ι → Counters
  statsPrev : ι → Counters
  phase : Phase ι

/-- A worker may count at any time; `report` starts a report over the given elements. -/
inductive Input (ι : Type)
  | count (i : ι) (d : Counters)
  | report (is : List ι)
  | readPrev
  | readNow
  | copy
  | print
  deriving DecidableEq

namespace Monitor

variable {ι : Type} [DecidableEq ι]

def new : Monitor ι := { stats := fun _ => 0, statsPrev := fun _ => 0, phase := .todo [] }

/-- `stats_prev` is copied from the record as it is then, not from `now`. -/
def step (s : Monitor ι) (i : Input ι) : Option (Traced (ι × Counters) (Monitor ι)) :=
  match i, s.phase with
  | .count i d, _ => some (pure { s with stats := Function.update s.stats i (s.stats i + d) })
  | .report is, .todo [] => some (pure { s with phase := .todo is })
  | .readPrev, .todo (i :: is) => some (pure { s with phase := .gotPrev i (s.statsPrev i) is })
  | .readNow, .gotPrev i prev is => some (pure { s with phase := .gotNow i prev (s.stats i) is })
  | .copy, .gotNow i prev now is =>
    some (pure
      { s with
        statsPrev := Function.update s.statsPrev i (s.stats i)
        phase := .copied i prev now is })
  | .print, .copied i prev now is => some ⟨{ s with phase := .todo is }, [(i, now - prev)]⟩
  | _, _ => none

def machine : Machine (Monitor ι) (Input ι) (ι × Counters) := ⟨step⟩

abbrev Act (ι : Type) := Transition (Monitor ι) (Input ι) (ι × Counters)

variable {s : Monitor ι} {i : ι} {trs pre : List (Act ι)} {tr : Act ι} {d : Counters}

/-- A step with its guard, what it prints and its outcome. -/
inductive Move : Monitor ι → Input ι → List (ι × Counters) → Monitor ι → Prop
  | count (stats prevs : ι → Counters) (phase : Phase ι) (i : ι) (d : Counters) :
      Move ⟨stats, prevs, phase⟩ (.count i d) []
        ⟨Function.update stats i (stats i + d), prevs, phase⟩
  | report (stats prevs : ι → Counters) (is : List ι) :
      Move ⟨stats, prevs, .todo []⟩ (.report is) [] ⟨stats, prevs, .todo is⟩
  | readPrev (stats prevs : ι → Counters) (i : ι) (is : List ι) :
      Move ⟨stats, prevs, .todo (i :: is)⟩ .readPrev [] ⟨stats, prevs, .gotPrev i (prevs i) is⟩
  | readNow (stats prevs : ι → Counters) (i : ι) (prev : Counters) (is : List ι) :
      Move ⟨stats, prevs, .gotPrev i prev is⟩ .readNow []
        ⟨stats, prevs, .gotNow i prev (stats i) is⟩
  | copy (stats prevs : ι → Counters) (i : ι) (prev now : Counters) (is : List ι) :
      Move ⟨stats, prevs, .gotNow i prev now is⟩ .copy []
        ⟨stats, Function.update prevs i (stats i), .copied i prev now is⟩
  | print (stats prevs : ι → Counters) (i : ι) (prev now : Counters) (is : List ι) :
      Move ⟨stats, prevs, .copied i prev now is⟩ .print [(i, now - prev)]
        ⟨stats, prevs, .todo is⟩

theorem takes_move (h : machine.Takes tr) : Move tr.src tr.input tr.out tr.dst := by
  obtain ⟨⟨stats, prevs, phase⟩, input, out, dst⟩ := tr
  simp only [Machine.Takes, machine, step] at h
  split at h
  · obtain ⟨rfl, rfl⟩ := Traced.mk.inj (Option.some.inj h)
    exact .count ..
  · obtain ⟨rfl, rfl⟩ := Traced.mk.inj (Option.some.inj h)
    exact .report ..
  · obtain ⟨rfl, rfl⟩ := Traced.mk.inj (Option.some.inj h)
    exact .readPrev ..
  · obtain ⟨rfl, rfl⟩ := Traced.mk.inj (Option.some.inj h)
    exact .readNow ..
  · obtain ⟨rfl, rfl⟩ := Traced.mk.inj (Option.some.inj h)
    exact .copy ..
  · obtain ⟨rfl, rfl⟩ := Traced.mk.inj (Option.some.inj h)
    exact .print ..
  · simp at h

/-- The sum of what all reports so far have printed for `i`. -/
def reported (i : ι) (trs : List (Act ι)) : Counters :=
  (((trs.flatMap Transition.out).filter fun o => o.1 = i).map Prod.snd).sum

/-- Where `i` is printed, what was read of it less what was copied. -/
def gap (i : ι) (tr : Act ι) : Counters :=
  match tr.src.phase, tr.input with
  | .copied j _ now _, .print => if j = i then now - tr.src.statsPrev i else 0
  | _, _ => 0

def drift (i : ι) (trs : List (Act ι)) : Counters := (trs.map (gap i)).sum

/-- What the last finished report of `i` counted up to. -/
def base (s : Monitor ι) (i : ι) : Counters :=
  match s.phase with
  | .copied j prev _ _ => if j = i then prev else s.statsPrev i
  | _ => s.statsPrev i

/-- What was read of `stats_prev` is still there. -/
def Fresh (s : Monitor ι) : Prop :=
  match s.phase with
  | .gotPrev j prev _ => prev = s.statsPrev j
  | .gotNow j prev _ _ => prev = s.statsPrev j
  | _ => True

theorem reported_concat_nil (h : tr.out = []) : reported i (trs ++ [tr]) = reported i trs := by
  simp [reported, h]

theorem reported_concat_one {j : ι} (h : tr.out = [(j, d)]) :
    reported i (trs ++ [tr]) = reported i trs + if j = i then d else 0 := by
  split_ifs with hj <;> simp [reported, h, hj]

theorem drift_concat : drift i (trs ++ [tr]) = drift i trs + gap i tr := by simp [drift]

/-- The counts between the reading of a record and its copy are lost to the reports. -/
theorem drift_step (ht : machine.Takes tr) (hf : tr.src.Fresh)
    (h : reported i trs = tr.src.base i + drift i trs) :
    tr.dst.Fresh ∧ reported i (trs ++ [tr]) = tr.dst.base i + drift i (trs ++ [tr]) := by
  have hm := takes_move ht
  obtain ⟨src, input, out, dst⟩ := tr
  rw [drift_concat]
  cases hm with
  | count stats prevs phase j d =>
    rw [reported_concat_nil rfl]
    exact ⟨hf, h.trans (by cases phase <;> simp [gap, base])⟩
  | report stats prevs is =>
    rw [reported_concat_nil rfl]
    exact ⟨trivial, h.trans (by simp [gap, base])⟩
  | readPrev stats prevs j is =>
    rw [reported_concat_nil rfl]
    exact ⟨rfl, h.trans (by simp [gap, base])⟩
  | readNow stats prevs j prev is =>
    rw [reported_concat_nil rfl]
    exact ⟨hf, h.trans (by simp [gap, base])⟩
  | copy stats prevs j prev now is =>
    rw [reported_concat_nil rfl]
    have hprev : prev = prevs j := hf
    refine ⟨trivial, h.trans ?_⟩
    by_cases hj : j = i
    · simp [gap, base, hj, hprev]
    · simp [gap, base, hj, Ne.symm hj]
  | print stats prevs j prev now is =>
    rw [reported_concat_one rfl, h]
    refine ⟨trivial, ?_⟩
    by_cases hj : j = i
    · simp only [gap, base, hj, if_true]
      abel
    · simp [gap, base, hj]

theorem drift_run (hr : machine.Run (new : Monitor ι) trs s) (i : ι) :
    reported i trs = s.base i + drift i trs :=
  (hr.history (I := fun ts s => s.Fresh ∧ reported i ts = s.base i + drift i ts)
    (C := fun _ => True) (by simp) ⟨trivial, rfl⟩
    fun ts tr ht _ h => drift_step ht h.1 h.2).2

/-- The step prints the report of `i`. -/
def Prints (i : ι) (tr : Act ι) : Prop := i ∈ tr.out.map Prod.fst

instance (i : ι) (tr : Act ι) : Decidable (Prints i tr) :=
  inferInstanceAs (Decidable (_ ∈ _))

/-- What was copied for the report of `i` under way is what was read for it. -/
def CopiedNow (i : ι) (s : Monitor ι) : Prop :=
  ∀ prev now is, s.phase = .copied i prev now is → s.statsPrev i = now

/-- After each report of `i` the reports so far add up to the counts copied last. -/
def Telescopes (i : ι) (trs : List (Act ι)) : Prop :=
  ∀ pre tr post, trs = pre ++ tr :: post → Prints i tr →
    reported i (pre ++ [tr]) = tr.dst.statsPrev i

theorem takes_prints (ht : machine.Takes tr) (i : ι) :
    (¬ Prints i tr ∧ gap i tr = 0) ∨
    (Prints i tr ∧ (gap i tr = 0 ↔ CopiedNow i tr.src) ∧ tr.dst.base i = tr.dst.statsPrev i) := by
  have hm := takes_move ht
  obtain ⟨src, input, out, dst⟩ := tr
  cases hm with
  | count stats prevs phase => exact .inl ⟨by simp [Prints], by cases phase <;> rfl⟩
  | print stats prevs j prev now is =>
    by_cases hj : j = i
    · obtain rfl := hj
      refine .inr ⟨by simp [Prints], ?_, rfl⟩
      simp only [gap, if_true, sub_eq_zero, CopiedNow, Phase.copied.injEq]
      constructor
      · rintro rfl _ _ _ ⟨-, -, rfl, -⟩
        rfl
      · intro h
        exact (h prev now is ⟨trivial, rfl, rfl, rfl⟩).symm
    · exact .inl ⟨by simpa [Prints] using Ne.symm hj, by simp [gap, hj]⟩
  | _ => exact .inl ⟨by simp [Prints], rfl⟩

/-- The reports add up as long as nothing is counted between a reading and its copy. -/
theorem drift_eq_zero (h : Telescopes i trs) (hr : machine.Run new trs s) (pre post : List (Act ι))
    (he : trs = pre ++ post) : drift i pre = 0 := by
  induction pre using List.reverseRecOn generalizing post with
  | nil => rfl
  | append_singleton pre tr ih =>
    have he' : trs = pre ++ tr :: post := by simpa using he
    obtain ⟨hpre, ht⟩ := hr.split he'
    rcases takes_prints ht i with ⟨-, hgap⟩ | ⟨hprint, -, hbase⟩
    · rw [drift_concat, hgap, ih _ he', add_zero]
    · have hsum := drift_run (.snoc hpre ht) i
      rw [h pre tr post he' hprint, hbase] at hsum
      simpa using hsum

/-- The reports of a worker or of a connection add up just where no report copies other counts
than it has read. -/
theorem telescopes_iff (hr : machine.Run (new : Monitor ι) trs s) (i : ι) :
    Telescopes i trs ↔ ∀ tr ∈ trs, Prints i tr → CopiedNow i tr.src := by
  constructor
  · intro h tr hm hprint
    obtain ⟨pre, post, he⟩ := List.append_of_mem hm
    rcases takes_prints (hr.split he).2 i with ⟨hnot, -⟩ | ⟨-, hiff, -⟩
    · exact absurd hprint hnot
    · apply hiff.mp
      have hdst := drift_eq_zero h hr (pre ++ [tr]) post (by simp [he])
      rwa [drift_concat, drift_eq_zero h hr pre _ he, zero_add] at hdst
  · intro h pre tr post he hprint
    obtain ⟨hpre, ht⟩ := hr.split he
    have hgap : ∀ c ∈ (pre ++ [tr]).map (gap i), c = 0 := by
      intro c hc
      obtain ⟨tr', hm, rfl⟩ := List.mem_map.mp hc
      have hm' : tr' ∈ trs := by
        rw [he]
        simp only [List.mem_append, List.mem_cons, List.not_mem_nil, or_false] at hm ⊢
        tauto
      rcases takes_prints (hr.takes hm') i with ⟨-, hz⟩ | ⟨hp, hiff, -⟩
      · exact hz
      · exact hiff.mpr (h tr' hm' hp)
    have hsum := drift_run (.snoc hpre ht) i
    rw [drift, List.sum_eq_zero hgap, add_zero] at hsum
    rcases takes_prints ht i with ⟨hnot, -⟩ | ⟨-, -, hbase⟩
    · exact absurd hprint hnot
    · rw [hsum, hbase]

theorem Telescopes.last (h : Telescopes i trs) (hm : tr ∈ trs.getLast?) (hprint : Prints i tr) :
    reported i trs = tr.dst.statsPrev i := by
  obtain ⟨pre, rfl⟩ := List.getLast?_eq_some_iff.mp hm
  exact h pre tr [] rfl hprint

/-- One packet of 100 bytes is counted while its connection is reported. -/
def lateCount : List (Input ℕ) :=
  [.report [0], .readPrev, .readNow, .count 0 ⟨1, 100⟩, .copy, .print]

theorem lateCount_accepted : (machine.exec new lateCount).isSome := by
  decide +kernel

/-- The packet is in no report, and no later one will print it. -/
theorem report_loses :
    ∃ trs s, machine.exec new lateCount = some (trs, s) ∧ ¬ Telescopes 0 trs := by
  have hlast : ∃ tr ∈ (Option.get _ lateCount_accepted).1.getLast?, Prints 0 tr ∧
      reported 0 (Option.get _ lateCount_accepted).1 ≠ tr.dst.statsPrev 0 := by
    decide +kernel
  obtain ⟨tr, hm, hprint, hsum⟩ := hlast
  exact ⟨_, _, (Option.some_get lateCount_accepted).symm, fun h => hsum (h.last hm hprint)⟩

theorem telescopes_iff_lateCount :
    ∃ trs s, machine.exec new lateCount = some (trs, s) ∧
      (Telescopes 0 trs ↔ ∀ tr ∈ trs, Prints 0 tr → CopiedNow 0 tr.src) :=
  ⟨_, _, (Option.some_get lateCount_accepted).symm,
    telescopes_iff (Machine.exec_get_run lateCount_accepted) 0⟩

end Monitor

end TcpEyenet.Ttest
