import TcpEyenet.Transport.Acks
import TcpEyenet.Utils

/-! The timeouts with which the sender polls. -/
namespace TcpEyenet

open TcpTransport

variable {T : Type} [Controller T] {tcp : TcpTransport T} {s : Sender T} {i : Input Recv}
  {trs : List (Action T)} {tr : Action T} {l : Locals} {c₂ : Double} {ms : ℤ}

theorem move_poll {r : Traced Event (Sender T)} (h : Move s i r) (hm : .poll ms ∈ r.log) :
    pollIn s i = some ms := by
  cases move_log h _ hm with
  | quiet hq => exact hq.elim
  | poll hp => exact hp

theorem poll_mem {r : Traced Event (Sender T)} (h : Move s i r) (hp : pollIn s i = some ms) :
    .poll ms ∈ r.log := by
  cases h with
  | handshake tcp call buf lastSTs c out =>
    obtain rfl : 200 = ms := Option.some.inj hp
    simp only [shake, Traced.bind_log, Traced.report_log, List.mem_append]
    exact .inr (.inl (by simp))
  | receive tcp l c₂ out c₃ ht =>
    obtain ⟨log, -, hrecv, -⟩ := receive_cases (test_eq_false ht).2.1 l c₂ out c₃
    obtain rfl := Option.some.inj hp
    simp [hrecv]
  | _ => simp [pollIn] at hp

/-- No poll of the step waits for more than a second, let alone for ever. -/
def PollsBounded (tr : Action T) : Prop :=
  ∀ ms, .poll ms ∈ tr.out → 0 ≤ ms ∧ ms ≤ 1000

/-- The second reading of the clock in an iteration is less than 1 ms past the time at which the
pacing lets the next train go, which counts from the first reading where the last send is taken
to be made at that reading. -/
def Prompt (tr : Action T) : Prop :=
  match tr.src.phase, tr.input with
  | .sending l, .recv c₂ _ _ =>
    let gap := Controller.intersend tr.src.tcp.cong * tr.src.tcp.bnTrain
    let last :=
      if l.currTs.val - tr.src.tcp.lastSTs ≥ gap ∨
          l.seqNum ≥ tr.src.tcp.largestAck + Controller.cwnd tr.src.tcp.cong
      then l.currTs.val else tr.src.tcp.lastSTs
    c₂.val < last + gap + 1
  | _, _ => True

theorem timeout_bounded (hw : 0 < Controller.cwnd tcp.cong) :
    (0 ≤ truncate (tcp.timeout c₂) ∧ truncate (tcp.timeout c₂) ≤ 1000) ↔
      c₂.val < tcp.lastSTs + Controller.intersend tcp.cong * tcp.bnTrain + 1 := by
  simp only [timeout, if_pos hw, truncate_nonneg, lt_min_iff]
  have hmax : truncate (min 1000
      (tcp.lastSTs + Controller.intersend tcp.cong * tcp.bnTrain - c₂.val)) ≤ 1000 := by
    apply (truncate_mono (min_le_left _ _)).trans
    exact (truncate_intCast 1000).le
  constructor
  · rintro ⟨⟨-, h⟩, -⟩
    linarith
  · intro h
    exact ⟨⟨by norm_num, by linarith⟩, hmax⟩

theorem prompt_iff {c₃ : Double} {out : Recv} {os : List Event} {dst : Sender T} :
    Prompt ⟨⟨tcp, .sending l⟩, .recv c₂ out c₃, os, dst⟩ ↔
      c₂.val < (tcp.snap l).lastSTs +
        Controller.intersend (tcp.snap l).cong * (tcp.snap l).bnTrain + 1 := by
  unfold snap
  simp only [Prompt]
  split_ifs <;> rfl

theorem pollsBounded_iff (ht : Move tr.src tr.input ⟨tr.dst, tr.out⟩)
    (hw : ∀ l, tr.src.phase = .sending l → 0 < Controller.cwnd tr.src.tcp.cong) :
    PollsBounded tr ↔ Prompt tr := by
  have hpoll : PollsBounded tr ↔ ∀ ms, pollIn tr.src tr.input = some ms → 0 ≤ ms ∧ ms ≤ 1000 :=
    forall_congr' fun _ => imp_congr_left ⟨move_poll ht, poll_mem ht⟩
  rw [hpoll]
  obtain ⟨src, i, out, dst⟩ := tr
  generalize (⟨dst, out⟩ : Traced Event (Sender T)) = r at ht
  cases ht with
  | handshake => simp [pollIn, Prompt]
  | receive tcp l c₂ out c₃ ht =>
    have hsnap : 0 < Controller.cwnd (tcp.snap l).cong := by
      rw [snap_cong]
      exact hw l rfl
    rw [prompt_iff, ← timeout_bounded hsnap]
    simp [pollIn]
  | _ => simp [pollIn, Prompt]

/-- The sender polls for 0 to 1000 ms in just the runs where every second reading is prompt. -/
theorem polls_bounded_iff
    (hw : ∀ tr ∈ trs, ∀ l, tr.src.phase = .sending l → 0 < Controller.cwnd tr.src.tcp.cong)
    (hr : Sender.machine.Run ⟨tcp, .idle⟩ trs s) :
    (∀ tr ∈ trs, PollsBounded tr) ↔ ∀ tr ∈ trs, Prompt tr :=
  forall₂_congr fun tr hm => pollsBounded_iff (takes_move (hr.takes hm)) (hw tr hm)

theorem latePoll_accepted :
    (Sender.machine.exec (freshSender 1) (firstWindow ++ [.recv oneMs .timeout oneMs])).isSome := by
  decide +kernel

/-- The window is full and 1 ms has passed: the sender polls for ever. -/
theorem poll_forever :
    ∃ trs s, Sender.machine.Run (freshSender 1) trs s ∧
      (∀ tr ∈ trs, 0 < tr.src.tcp.cong.cwnd ∧ 0 ≤ tr.src.tcp.cong.intersend) ∧
      (trs.flatMap fun tr => tr.input.readings).Pairwise (· ≤ ·) ∧
      ∃ tr ∈ trs, .poll (-1) ∈ tr.out ∧ ¬ PollsBounded tr := by
  have hpoll : ∃ tr ∈ (Option.get _ latePoll_accepted).1, .poll (-1) ∈ tr.out := by
    decide +kernel
  obtain ⟨tr, hm, hp⟩ := hpoll
  refine ⟨_, _, Machine.exec_get_run latePoll_accepted, by decide +kernel, by decide +kernel, tr,
    hm, hp, fun hb => ?_⟩
  exact absurd (hb _ hp).1 (by decide)

theorem polls_bounded_iff_latePoll :
    ∃ trs s, Sender.machine.Run (freshSender 1) trs s ∧
      ((∀ tr ∈ trs, PollsBounded tr) ↔ ∀ tr ∈ trs, Prompt tr) := by
  have hw : ∀ tr ∈ (Option.get _ latePoll_accepted).1, 0 < tr.src.tcp.cong.cwnd := by
    decide +kernel
  exact ⟨_, _, Machine.exec_get_run latePoll_accepted, polls_bounded_iff
    (fun tr hm _ _ => hw tr hm) (Machine.exec_get_run latePoll_accepted)⟩

end TcpEyenet
