import TcpEyenet.Transport.Acks

/-! The congestion window and the highest acknowledged packet. -/
namespace TcpEyenet

variable {T : Type} [Controller T] {tcp : TcpTransport T} {s : Sender T} {i : Input Recv}
  {trs pre post : List (Action T)} {tr : Action T}

/-- The highest packet acked in this call, the one the last timeout took for acked, and the
highest acked since then. -/
structure Marks where
  acked : ℤ
  reset : ℤ
  since : Option ℤ

def Marks.new : Marks := ⟨-1, -1, none⟩

def Marks.highest (m : Marks) : ℤ := max m.acked m.reset

def Marks.after (m : Marks) (s : Sender T) (i : Input Recv) : Marks :=
  match i with
  | .sendData _ => .new
  | _ =>
    { acked := (ackIn s i).elim m.acked fun h => max m.acked h.seqNum.toInt
      reset := (resetIn s i).getD m.reset
      since :=
        if (resetIn s i).isSome then none
        else (ackIn s i).elim m.since fun h =>
          some (m.since.elim h.seqNum.toInt fun k => max k h.seqNum.toInt) }

def marks (trs : List (Action T)) : Marks :=
  trs.foldl (fun m tr => m.after tr.src tr.input) .new

omit [Controller T] in
@[simp] theorem marks_concat : marks (trs ++ [tr]) = (marks trs).after tr.src tr.input := by
  simp [marks]

/-- The locals with which the leading packet of a train is sent. -/
def leadIn (s : Sender T) (i : Input Recv) : Option Locals :=
  match s.phase, i with
  | .sending l, .send => if l.seqNum.tmod s.tcp.bnTrain = 0 then some l else none
  | _, _ => none

open TcpTransport

/-- No call in progress, or `largest_ack` is where the last timeout left it, raised to one past the
highest packet acked since. -/
def Raised (m : Marks) (s : Sender T) : Prop :=
  s.phase = .idle ∨
    s.tcp.largestAck = (m.since.elim m.reset fun k => max m.reset (k + 1)) ∧
      ∀ k ∈ m.since, k ≤ m.acked

theorem move_raised {m : Marks} {r : Traced Event (Sender T)} (h : Move s i r)
    (hm : Raised m s) : Raised (m.after s i) r.val := by
  by_cases hcall : ∃ call, i = .sendData call
  · obtain ⟨call, rfl⟩ := hcall
    refine .inr ⟨?_, by simp [Marks.after, Marks.new]⟩
    rw [move_largestAck h]
    rfl
  have hmark := hm.resolve_left (by rintro hidle; cases h <;> simp_all)
  obtain ⟨hlargest, hle⟩ := hmark
  refine .inr ?_
  rw [move_largestAck h]
  cases i with
  | sendData call => exact absurd ⟨call, rfl⟩ hcall
  | recv c₂ out c₃ =>
    simp only [nextAck, Marks.after, resetIn_recv]
    cases ackIn s (.recv c₂ out c₃) with
    | none => exact ⟨hlargest, hle⟩
    | some h =>
      rw [hlargest]
      cases hsince : m.since with
      | none => simp
      | some k =>
        have hk := hle k hsince
        simp only [Option.elim, Option.getD, Option.isSome, Option.mem_some_iff, forall_eq',
          Bool.false_eq_true, if_false]
        omega
  | _ =>
    simp only [nextAck, Marks.after]
    rw [ackIn_eq_none (by simp)]
    generalize resetIn s _ = o
    cases o with
    | none => exact ⟨hlargest, hle⟩
    | some q => simp

theorem raised_run (hr : Sender.machine.Run ⟨tcp, .idle⟩ trs s) : Raised (marks trs) s :=
  hr.history (I := fun trs s => Raised (marks trs) s) (C := fun _ => True) (by simp) (.inl rfl)
    fun trs tr ht _ h => by
      rw [marks_concat]
      exact move_raised (takes_move ht) h

omit [Controller T] in
/-- In a call `largest_ack` is at most one past the highest acknowledged packet, and it is that
just where the packet was acked since the call began or was last reset. -/
theorem Raised.largestAck {m : Marks} (h : Raised m s) (hcall : s.phase ≠ .idle) :
    s.tcp.largestAck ≤ m.highest + 1 ∧
      (s.tcp.largestAck = m.highest + 1 ↔ m.since = some m.highest) := by
  obtain ⟨hlargest, hle⟩ := h.resolve_left hcall
  rw [hlargest, Marks.highest]
  cases hsince : m.since with
  | none =>
    simp only [Option.elim, reduceCtorEq, iff_false]
    omega
  | some k =>
    have hk := hle k hsince
    simp only [Option.elim, Option.some.injEq]
    omega

/-- Every leading packet of a train lies within the window past the highest acknowledged one. -/
def WindowRespected (trs : List (Action T)) : Prop :=
  ∀ pre tr post, trs = pre ++ tr :: post → ∀ l ∈ leadIn tr.src tr.input,
    (l.seqNum : ℚ) - (marks pre).highest < Controller.cwnd tr.src.tcp.cong + 1

/-- The inner loop comes to the slot past the window: the highest acknowledged packet was acked
since the call began or was last reset, the next packet is the one `⌈cwnd⌉ + 1` past it and leads
a train, and the spacing lets a train out. -/
def AtExtraSlot (trs : List (Action T)) (s : Sender T) : Prop :=
  ∃ l, s.phase = .sending l ∧ (marks trs).since = some (marks trs).highest ∧
    l.seqNum = (marks trs).highest + 1 + ⌈Controller.cwnd s.tcp.cong⌉ ∧
    s.tcp.bnTrain ∣ l.seqNum ∧
    s.tcp.lastSTs + Controller.intersend s.tcp.cong * s.tcp.bnTrain ≤ l.currTs.val

omit [Controller T] in
theorem leadIn_eq_some {l : Locals} (h : leadIn s i = some l) :
    s.phase = .sending l ∧ i = .send ∧ l.seqNum.tmod s.tcp.bnTrain = 0 := by
  unfold leadIn at h
  split at h
  · rename_i l' hphase
    split_ifs at h with hlead
    obtain rfl := Option.some.inj h
    exact ⟨hphase, rfl, hlead⟩
  · simp at h

/-- A leading packet is sent only while the window is open. -/
theorem move_lead {l : Locals} {r : Traced Event (Sender T)} (h : Move s i r)
    (hbn : s.tcp.bnTrain ≠ 0) (hl : leadIn s i = some l) :
    s.phase = .sending l ∧ s.tcp.windowOpen l = true := by
  obtain ⟨hphase, rfl, hlead⟩ := leadIn_eq_some hl
  refine ⟨hphase, ?_⟩
  cases h with
  | crash tcp l' hz => exact absurd hz hbn
  | send tcp l' ht =>
    obtain rfl : l' = l := by simpa using hphase
    exact (test_eq_true ht).resolve_right fun hr => hr.2 hlead

/-- While the window is open a step of the inner loop is a send. -/
theorem move_open {l : Locals} {r : Traced Event (Sender T)} (h : Move s i r)
    (hphase : s.phase = .sending l) (hopen : s.tcp.windowOpen l = true) : i = .send := by
  cases h with
  | receive tcp l' c₂ out c₃ ht =>
    obtain rfl : l' = l := by simpa using hphase
    exact absurd hopen (by simp [(test_eq_false ht).1])
  | crash => rfl
  | send => rfl
  | _ => simp at hphase

/-- The one packet that the loop lets out past the window of `m`. -/
theorem extra_slot {w : ℚ} {q m : ℤ} (hopen : (q : ℚ) < (m + 1 : ℤ) + w + 1)
    (hpast : w + 1 ≤ (q : ℚ) - m) : q = m + 1 + ⌈w⌉ := by
  have hle : ⌈w⌉ ≤ q - m - 1 := Int.ceil_le.mpr (by push_cast; linarith)
  have hlt : q - m - 2 < ⌈w⌉ := Int.lt_ceil.mpr (by push_cast at hopen ⊢; linarith)
  omega

/-- A packet leaves the window just from the slot past it. -/
theorem leaves_iff {l : Locals} {m : Marks} (hphase : s.phase = .sending l) (hm : Raised m s)
    (hopen : s.tcp.windowOpen l = true) :
    Controller.cwnd s.tcp.cong + 1 ≤ (l.seqNum : ℚ) - m.highest ↔
      m.since = some m.highest ∧ l.seqNum = m.highest + 1 + ⌈Controller.cwnd s.tcp.cong⌉ := by
  obtain ⟨hle, hiff⟩ := hm.largestAck (by simp [hphase])
  rw [← hiff]
  simp only [windowOpen, decide_eq_true_eq] at hopen
  obtain ⟨hopen, -⟩ := hopen
  constructor
  · intro hpast
    rcases hle.lt_or_eq with hlt | heq
    · have hlt : (s.tcp.largestAck : ℚ) ≤ m.highest := by
        exact_mod_cast Int.lt_add_one_iff.mp hlt
      linarith
    · rw [heq] at hopen
      exact ⟨heq, extra_slot hopen hpast⟩
  · rintro ⟨-, hq⟩
    have hceil := Int.le_ceil (Controller.cwnd s.tcp.cong)
    rw [hq]
    push_cast
    linarith

/-- At the slot past the window the window is open. -/
theorem AtExtraSlot.windowOpen {m : Marks} {l : Locals} (hphase : s.phase = .sending l)
    (hm : Raised m s) (hsince : m.since = some m.highest)
    (hq : l.seqNum = m.highest + 1 + ⌈Controller.cwnd s.tcp.cong⌉)
    (hpace : s.tcp.lastSTs + Controller.intersend s.tcp.cong * s.tcp.bnTrain ≤ l.currTs.val) :
    s.tcp.windowOpen l = true := by
  have hlargest := ((hm.largestAck (by simp [hphase])).2).mpr hsince
  have hceil := Int.ceil_lt_add_one (Controller.cwnd s.tcp.cong)
  simp only [TcpTransport.windowOpen, decide_eq_true_eq]
  refine ⟨?_, hpace⟩
  rw [hlargest, hq]
  push_cast
  linarith

/-- The window is respected in just the runs whose inner loops never come to the slot past it. -/
theorem window_respected_iff (hbn : 1 ≤ tcp.bnTrain)
    (hr : Sender.machine.Run ⟨tcp, .idle⟩ trs s) :
    WindowRespected trs ↔ ∀ pre tr post, trs = pre ++ tr :: post → ¬ AtExtraSlot pre tr.src := by
  apply forall₄_congr
  intro pre tr post heq
  obtain ⟨hpre, ht⟩ := hr.split heq
  have hbn' : tr.src.tcp.bnTrain ≠ 0 := by
    rw [bnTrain_src hr (by simp [heq])]
    omega
  have hm := raised_run hpre
  constructor
  · rintro hresp ⟨l, hphase, hsince, hq, hdvd, hpace⟩
    have hopen := AtExtraSlot.windowOpen hphase hm hsince hq hpace
    have hsend := move_open (takes_move ht) hphase hopen
    have hl : leadIn tr.src tr.input = some l := by
      simp [leadIn, hphase, hsend, Int.tmod_eq_zero_of_dvd hdvd]
    exact absurd ((leaves_iff hphase hm hopen).mpr ⟨hsince, hq⟩) (not_le.mpr (hresp l hl))
  · intro hslot l hl
    obtain ⟨hphase, hopen⟩ := move_lead (takes_move ht) hbn' hl
    by_contra hpast
    obtain ⟨hsince, hq⟩ := (leaves_iff hphase hm hopen).mp (not_lt.mp hpast)
    simp only [TcpTransport.windowOpen, decide_eq_true_eq] at hopen
    exact hslot ⟨l, hphase, hsince, hq,
      Int.dvd_of_tmod_eq_zero (leadIn_eq_some hl).2.2, hopen.2⟩

theorem not_windowRespected {n : ℕ} (hn : n < trs.length)
    (h : (leadIn trs[n].src trs[n].input).any fun l =>
      Controller.cwnd trs[n].src.tcp.cong + 1 ≤ (l.seqNum : ℚ) - (marks (trs.take n)).highest) :
    ¬ WindowRespected trs := by
  intro hresp
  obtain ⟨l, hl, hle⟩ := Option.any_eq_true .. |>.mp h
  rw [decide_eq_true_eq] at hle
  have hsplit : trs = trs.take n ++ trs[n] :: trs.drop (n + 1) := by
    rw [← List.drop_eq_getElem_cons hn, List.take_append_drop]
  exact absurd hle (not_le.mpr (hresp _ _ _ hsplit l hl))

/-- Packet 0 is acked, and the window that follows it is sent. -/
def secondWindow : List (Input Recv) :=
  firstWindow ++ [.recv ⟨0⟩ (echo 0) ⟨0⟩, .top ⟨0⟩, .send, .send]

theorem secondWindow_accepted :
    (Sender.machine.exec (freshSender 1) secondWindow).isSome := by
  decide +kernel

/-- With a window of 10, packet 11 goes out while packet 0 is the highest acked one. -/
theorem window_exceeded :
    ∃ trs s, Sender.machine.Run (freshSender 1) trs s ∧ ¬ WindowRespected trs :=
  ⟨_, _, Machine.exec_get_run secondWindow_accepted,
    not_windowRespected (n := 17) (by decide +kernel) (by decide +kernel)⟩

theorem window_respected_iff_secondWindow :
    ∃ trs s, Sender.machine.Run (freshSender 1) trs s ∧ (WindowRespected trs ↔
      ∀ pre tr post, trs = pre ++ tr :: post → ¬ AtExtraSlot pre tr.src) :=
  ⟨_, _, Machine.exec_get_run secondWindow_accepted,
    window_respected_iff (by decide) (Machine.exec_get_run secondWindow_accepted)⟩

end TcpEyenet
