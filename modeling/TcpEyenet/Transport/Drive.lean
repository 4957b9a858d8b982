import TcpEyenet.Transport.Steps

/-! The controller under the sender: a run of the sender drives a run of the controller. -/
namespace TcpEyenet

open TcpTransport

variable {tcp : TcpTransport Eyenet} {s : Sender Eyenet} {trs : List (Action Eyenet)} {δ ts : ℚ}
  {bnTrain : ℤ} {e e' : Eyenet} {l : Locals}

/-- Some calls lead from one controller to the other. -/
def Eyenet.Calls (e e' : Eyenet) : Prop := ∃ trs, Eyenet.machine.Run e trs e'

namespace Eyenet

theorem Calls.refl (e : Eyenet) : Calls e e := ⟨[], .refl⟩

theorem Calls.trans {e'' : Eyenet} (h₁ : Calls e e') (h₂ : Calls e' e'') : Calls e e'' := by
  obtain ⟨trs₁, h₁⟩ := h₁
  obtain ⟨trs₂, h₂⟩ := h₂
  exact ⟨_, h₁.append h₂⟩

theorem calls_of_step (op : Op) {log : List ℚ} (h : Eyenet.machine.step e op = some ⟨e', log⟩) :
    Calls e e' := by
  have ht : Eyenet.machine.Takes ⟨e, op, log, e'⟩ := h
  exact ⟨_, Machine.Run.cons ht .refl⟩

theorem calls_setTs (e : Eyenet) (ts : ℚ) : Calls e (e.setTs ts) :=
  calls_of_step (.setTs ts) rfl

theorem calls_initialise (e : Eyenet) : Calls e e.initialise :=
  calls_of_step .initialise rfl

theorem calls_onPktSent (e : Eyenet) (seqNo : ℤ) : Calls e (e.onPktSent seqNo) :=
  calls_of_step (.onPktSent seqNo) rfl

/-- This controller ignores timeouts and rates. -/
theorem eq_of_nudged (h : Nudged e e') : e' = e := by
  cases h <;> rfl

end Eyenet

open Eyenet

theorem record_calls : Calls tcp.cong (tcp.record l).val.cong := by
  unfold record
  split_ifs
  · exact (calls_setTs _ _).trans (calls_onPktSent _ _)
  · exact .refl _

theorem sendOne_calls : Calls tcp.cong (tcp.sendOne l).val.tcp.cong := by
  by_cases hbn : tcp.bnTrain = 0
  · rw [sendOne_of_eq hbn]
    exact .refl _
  · rw [sendOne_of_ne hbn, advance_tcp]
    have hrec : Calls tcp.spend.cong (tcp.spend.record l).val.cong := record_calls
    exact hrec

theorem giveUp_calls : Calls tcp.cong (tcp.giveUp l).val.cong := by
  unfold giveUp
  split_ifs
  · exact (calls_setTs _ _).trans (calls_initialise _)
  · exact .refl _

theorem move_calls {i : Input Recv} {r : Traced Event (Sender Eyenet)} (h : Move s i r) :
    Calls s.tcp.cong r.val.tcp.cong := by
  cases h with
  | sendData => exact .refl _
  | handshake tcp =>
    rw [shake_tcp]
    exact .refl _
  | start tcp call t₀ t₁ => exact (calls_setTs _ _).trans (calls_initialise _)
  | enter => exact giveUp_calls
  | finish tcp l c => exact calls_setTs _ _
  | crash => exact .refl _
  | send => exact sendOne_calls
  | receive tcp l c₂ out c₃ ht =>
    obtain ⟨log, -, -, h | h | h⟩ := receive_cases (test_eq_false ht).2.1 l c₂ out c₃
    · obtain ⟨-, cong, hn, hv⟩ := h
      rw [hv, eq_of_nudged hn]
      exact .refl _
    · rw [h.2.2, snap_cong]
      exact .refl _
    · obtain ⟨-, -, cong, rateEst, hn, hv⟩ := h
      rw [hv, eq_of_nudged hn]
      exact .refl _

theorem run_calls (hr : Sender.machine.Run ⟨tcp, .idle⟩ trs s) : Calls tcp.cong s.tcp.cong :=
  hr.invariant (I := fun s => Calls tcp.cong s.tcp.cong) (C := fun _ => True) (by simp) (.refl _)
    fun _ ht _ h => h.trans (move_calls (takes_move ht))

end TcpEyenet
