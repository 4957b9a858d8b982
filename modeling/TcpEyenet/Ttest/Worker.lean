import TcpEyenet.Ttest.Client
import TcpEyenet.Ttest.Table

/-! The sending threads of ttest, with the clock and the outcome of every send as inputs. -/
namespace TcpEyenet.Ttest

open Bytes

/-- `htonl` and `htons`, as the bytes of the field. -/
def netBytes (n v : ℕ) : List UInt8 := (leBytes n v).reverse

/-- `allocate_pkt`, on the buffer that `malloc` returns. -/
def Sworker.allocatePkt (w : Sworker) (mem : Buf) : Sworker :=
  { w with
    phdr :=
      ((mem.store 0 (netBytes 4 ttestPktSig)).store 8 (netBytes 2 w.psize.toNat)).store 10 [0, 0, 0]
    seq := 0 }

/-- Where `snd_worker` stands: at the test of `cmd`, in the loop over a burst that began at `s`,
in `wait_until` before its first look at the clock, in its inner loop or in its `usleep`, or at
its end. -/
inductive Stage
  | top
  | sending (s : UInt64) (i seq : UInt32)
  | waiting (till : UInt64)
  | spinning (till : UInt64)
  | sleeping (usec : UInt64)
  | stopped
  | crashed
  deriving DecidableEq

structure Thread where
  worker : Sworker
  stage : Stage

namespace Thread

/-- A burst begins at `s`, or the loop ends; `sendto` sends the packet or does not; the clock is
read; `usleep` returns at an instant that nothing reads. -/
inductive Input
  | burst (s : UInt64)
  | stop
  | send (ok : Bool)
  | clock (t : UInt64)
  | wake (t : UInt64)
  deriving DecidableEq

/-- `snd_worker` up to its loop. -/
def new (t : Tsnd) (w : Sworker) (mem : Buf) : Thread :=
  { worker :=
      { w with
        npktsBurst := t.npktsBurst
        qouta := t.npktsBurst
        ibg := t.ibg * 1000
        seq := 0 }.allocatePkt mem
    stage := .top }

/-- A packet that was sent leaves its number in `seq`, and that of the next one in the header. -/
def sent (th : Thread) (s : UInt64) (i seq : UInt32) : Traced (List UInt8) Thread :=
  ⟨{ worker := { th.worker with phdr := th.worker.phdr.store 4 (netBytes 4 (seq + 1).toNat) }
     stage := .sending s (i + 1) (seq + 1) },
    [th.worker.phdr.load 0 th.worker.psize.toNat]⟩

/-- The counts after a burst. `psize` is promoted to 32 bits, and so is the product. -/
def tally (w : Sworker) (seq : UInt32) : Sworker :=
  { w with
    stats := w.stats +
      ⟨(seq - w.seq).toUInt64, (w.psize.toUInt32 * (seq - w.seq)).toUInt64⟩
    seq := seq }

/-- The rest of a turn of the loop, up to `wait_until`. -/
def close (w : Sworker) (s : UInt64) (seq : UInt32) (t : UInt64) : Thread :=
  let w := tally w seq
  let delta := t - s
  if w.ibg ≤ delta then
    match divide (w.npktsBurst * delta) w.ibg with
    | none => ⟨w, .crashed⟩
    | some qouta => ⟨{ w with qouta := qouta }, .top⟩
  else ⟨{ w with qouta := w.npktsBurst }, .waiting (s + w.ibg)⟩

/-- The first look of `wait_until` at the clock. -/
def look (till n : UInt64) : Stage :=
  if n < till then if till - n < 100 then .spinning till else .sleeping (till - n) else .top

def step (th : Thread) : Input → Option (Traced (List UInt8) Thread)
  | .burst s =>
    match th.stage with
    | .top => some (pure { th with stage := .sending s 0 th.worker.seq })
    | _ => none
  | .stop =>
    match th.stage with
    | .top => some (pure { th with stage := .stopped })
    | _ => none
  | .send ok =>
    match th.stage with
    | .sending s i seq =>
      if i.toUInt64 < th.worker.qouta then
        some (if ok then th.sent s i seq else pure { th with stage := .sending s (i + 1) seq })
      else none
    | _ => none
  | .clock t =>
    match th.stage with
    | .sending s i seq =>
      if i.toUInt64 < th.worker.qouta then none else some (pure (close th.worker s seq t))
    | .waiting till => some (pure { th with stage := look till t })
    | .spinning till => some (pure { th with stage := if t < till then .spinning till else .top })
    | _ => none
  | .wake _ =>
    match th.stage with
    | .sleeping _ => some (pure { th with stage := .top })
    | _ => none

def machine : Machine Thread Input (List UInt8) := ⟨step⟩

abbrev Act := Transition Thread Input (List UInt8)

variable {th th₀ : Thread} {w : Sworker} {tr : Act} {trs pre post : List Act}

/-- A step with its guard, what it sends and its outcome. -/
inductive Move : Thread → Input → List (List UInt8) → Thread → Prop
  | burst (w : Sworker) (s : UInt64) : Move ⟨w, .top⟩ (.burst s) [] ⟨w, .sending s 0 w.seq⟩
  | stop (w : Sworker) : Move ⟨w, .top⟩ .stop [] ⟨w, .stopped⟩
  | sent (w : Sworker) (s : UInt64) (i seq : UInt32) (hi : i.toUInt64 < w.qouta) :
      Move ⟨w, .sending s i seq⟩ (.send true) [w.phdr.load 0 w.psize.toNat]
        ⟨{ w with phdr := w.phdr.store 4 (netBytes 4 (seq + 1).toNat) },
          .sending s (i + 1) (seq + 1)⟩
  | failed (w : Sworker) (s : UInt64) (i seq : UInt32) (hi : i.toUInt64 < w.qouta) :
      Move ⟨w, .sending s i seq⟩ (.send false) [] ⟨w, .sending s (i + 1) seq⟩
  | close (w : Sworker) (s : UInt64) (i seq : UInt32) (t : UInt64) (hi : ¬ i.toUInt64 < w.qouta)
      (th : Thread) (hclose : close w s seq t = th) :
      Move ⟨w, .sending s i seq⟩ (.clock t) [] th
  | look (w : Sworker) (till n : UInt64) : Move ⟨w, .waiting till⟩ (.clock n) [] ⟨w, look till n⟩
  | spin (w : Sworker) (till n : UInt64) :
      Move ⟨w, .spinning till⟩ (.clock n) [] ⟨w, if n < till then .spinning till else .top⟩
  | wake (w : Sworker) (usec t : UInt64) : Move ⟨w, .sleeping usec⟩ (.wake t) [] ⟨w, .top⟩

theorem takes_move (h : machine.Takes tr) : Move tr.src tr.input tr.out tr.dst := by
  obtain ⟨⟨w, stage⟩, input, out, dst⟩ := tr
  cases input with
  | burst s =>
    simp only [Machine.Takes, machine, step] at h
    split at h
    · obtain ⟨rfl, rfl⟩ := Traced.mk.inj (Option.some.inj h)
      exact .burst ..
    · cases h
  | stop =>
    simp only [Machine.Takes, machine, step] at h
    split at h
    · obtain ⟨rfl, rfl⟩ := Traced.mk.inj (Option.some.inj h)
      exact .stop ..
    · cases h
  | send ok =>
    simp only [Machine.Takes, machine, step] at h
    split at h
    · split at h
      · rename_i hi
        cases ok with
        | true =>
          obtain ⟨rfl, rfl⟩ := Traced.mk.inj (Option.some.inj h)
          exact .sent _ _ _ _ hi
        | false =>
          obtain ⟨rfl, rfl⟩ := Traced.mk.inj (Option.some.inj h)
          exact .failed _ _ _ _ hi
      · cases h
    · cases h
  | clock t =>
    simp only [Machine.Takes, machine, step] at h
    split at h
    · split at h
      · cases h
      · rename_i hi
        obtain ⟨rfl, rfl⟩ := Traced.mk.inj (Option.some.inj h)
        exact .close _ _ _ _ _ hi _ rfl
    · obtain ⟨rfl, rfl⟩ := Traced.mk.inj (Option.some.inj h)
      exact .look ..
    · obtain ⟨rfl, rfl⟩ := Traced.mk.inj (Option.some.inj h)
      exact .spin ..
    · cases h
  | wake t =>
    simp only [Machine.Takes, machine, step] at h
    split at h
    · obtain ⟨rfl, rfl⟩ := Traced.mk.inj (Option.some.inj h)
      exact .wake ..
    · cases h

theorem close_eq (w : Sworker) (s t : UInt64) (seq : UInt32) :
    ∃ qouta stage, close w s seq t = ⟨{ tally w seq with qouta := qouta }, stage⟩ ∧
      ∀ s i seq, stage ≠ .sending s i seq := by
  simp only [close]
  split_ifs
  · split
    · exact ⟨_, _, rfl, by simp⟩
    · exact ⟨_, _, rfl, by simp⟩
  · exact ⟨_, _, rfl, by simp⟩

theorem look_ne (till n s : UInt64) (i seq : UInt32) : look till n ≠ .sending s i seq := by
  unfold look
  split_ifs <;> simp

/-- A step that leads into the loop over a burst is its start or a turn of it. -/
theorem sending_cases (ht : machine.Takes tr) {s : UInt64} {i seq : UInt32}
    (hstage : tr.dst.stage = .sending s i seq) :
    (tr.input = .burst s ∧ tr.src.stage = .top ∧ i = 0 ∧ seq = tr.src.worker.seq) ∨
      ∃ ok i₀ seq₀, tr.input = .send ok ∧ tr.src.stage = .sending s i₀ seq₀ ∧
        i₀.toUInt64 < tr.src.worker.qouta ∧ i = i₀ + 1 ∧
        seq = (if ok then seq₀ + 1 else seq₀) ∧ tr.dst.worker.qouta = tr.src.worker.qouta := by
  have hm := takes_move ht
  obtain ⟨src, input, out, dst⟩ := tr
  cases hm with
  | burst w s =>
    obtain ⟨rfl, rfl, rfl⟩ := Stage.sending.inj hstage
    exact .inl ⟨rfl, rfl, rfl, rfl⟩
  | sent w s i seq hi =>
    obtain ⟨rfl, rfl, rfl⟩ := Stage.sending.inj hstage
    exact .inr ⟨true, i, seq, rfl, rfl, hi, rfl, rfl, rfl⟩
  | failed w s i seq hi =>
    obtain ⟨rfl, rfl, rfl⟩ := Stage.sending.inj hstage
    exact .inr ⟨false, i, seq, rfl, rfl, hi, rfl, rfl, rfl⟩
  | close w s i seq t hi th hclose =>
    obtain ⟨qouta, stage, heq, hne⟩ := close_eq w s t seq
    obtain rfl := hclose.symm.trans heq
    exact absurd hstage (hne _ _ _)
  | look w till n => exact absurd hstage (look_ne _ _ _ _ _)
  | spin w till n =>
    simp only at hstage
    split_ifs at hstage
  | _ => simp at hstage

/-- Where a burst ends: when it began, the number after its last packet, and the time. -/
def ends (tr : Act) : Option (UInt64 × UInt32 × UInt64) :=
  match tr.src.stage with
  | .sending s _ seq =>
    match tr.input with
    | .clock t => some (s, seq, t)
    | _ => none
  | _ => none

/-- What the loop does not change. -/
structure SameSettings (w w' : Sworker) : Prop where
  psize : w'.psize = w.psize
  ibg : w'.ibg = w.ibg
  npktsBurst : w'.npktsBurst = w.npktsBurst

theorem SameSettings.trans {w₁ w₂ w₃ : Sworker} (h : SameSettings w₁ w₂)
    (h' : SameSettings w₂ w₃) : SameSettings w₁ w₃ :=
  ⟨h'.psize.trans h.psize, h'.ibg.trans h.ibg, h'.npktsBurst.trans h.npktsBurst⟩

theorem settings_step (ht : machine.Takes tr) : SameSettings tr.src.worker tr.dst.worker := by
  have hm := takes_move ht
  obtain ⟨src, input, out, dst⟩ := tr
  cases hm with
  | close w s i seq t hi th hclose =>
    obtain ⟨qouta, stage, heq, -⟩ := close_eq w s t seq
    obtain rfl := hclose.symm.trans heq
    exact ⟨rfl, rfl, rfl⟩
  | _ => exact ⟨rfl, rfl, rfl⟩

theorem settings_run (hr : machine.Run th₀ trs th) : SameSettings th₀.worker th.worker :=
  hr.invariant (I := fun th => SameSettings th₀.worker th.worker) (C := fun _ => True)
    (fun _ _ => trivial) ⟨rfl, rfl, rfl⟩ fun _ ht _ h => h.trans (settings_step ht)

/-- The packets sent before the last burst, and how its sends ended so far. -/
structure Record where
  before : ℕ
  outcomes : List Bool
  deriving DecidableEq

namespace Record

def sent (r : Record) : ℕ := r.before + r.outcomes.count true

def note (r : Record) : Input → Record
  | .burst _ => { before := r.sent, outcomes := [] }
  | .send ok => { r with outcomes := r.outcomes ++ [ok] }
  | _ => r

end Record

def record (trs : List Act) : Record := trs.foldl (fun r tr => r.note tr.input) ⟨0, []⟩

def packets (trs : List Act) : List (List UInt8) := trs.flatMap Transition.out

theorem record_concat : record (trs ++ [tr]) = (record trs).note tr.input := by simp [record]

theorem sent_note (r : Record) (i : Input) :
    (r.note i).sent = r.sent + [i].count (.send true) := by
  cases i with
  | burst s => simp [Record.note, Record.sent]
  | send ok => cases ok <;> simp [Record.note, Record.sent, List.count_append, Nat.add_assoc]
  | _ => simp [Record.note, Record.sent]

theorem packets_concat : packets (trs ++ [tr]) = packets trs ++ tr.out := by simp [packets]

/-- In a burst the counter is that of its sends so far, modulo 2 ^ 32. It passes the quota only
where it wraps around. -/
def InBurst (trs : List Act) (th : Thread) : Prop :=
  ∀ s i seq, th.stage = .sending s i seq →
    i.toNat = (record trs).outcomes.length % 2 ^ 32 ∧
      ((record trs).outcomes.length ≤ th.worker.qouta.toNat ∨ 2 ^ 32 ≤ th.worker.qouta.toNat)

theorem turn_counts {i : UInt32} {qouta : UInt64} {oks : List Bool} (hi : i.toUInt64 < qouta)
    (ok : Bool) (h : i.toNat = oks.length % 2 ^ 32 ∧
      (oks.length ≤ qouta.toNat ∨ 2 ^ 32 ≤ qouta.toNat)) :
    (i + 1).toNat = (oks ++ [ok]).length % 2 ^ 32 ∧
      ((oks ++ [ok]).length ≤ qouta.toNat ∨ 2 ^ 32 ≤ qouta.toNat) := by
  have hlt : i.toNat < qouta.toNat := by simpa using UInt64.lt_iff_toNat_lt.mp hi
  have hone : (i + 1).toNat = (i.toNat + 1) % 2 ^ 32 := UInt32.toNat_add ..
  rw [List.length_append, List.length_singleton, hone]
  omega

theorem inBurst_step (ht : machine.Takes tr) (h : InBurst trs tr.src) :
    InBurst (trs ++ [tr]) tr.dst := by
  intro s i seq hstage
  rw [record_concat]
  rcases sending_cases ht hstage with
    ⟨hinput, -, rfl, -⟩ | ⟨ok, i₀, seq₀, hinput, hsrc, hi, rfl, -, hqouta⟩
  · rw [hinput]
    exact ⟨rfl, .inl (Nat.zero_le _)⟩
  · rw [hinput, hqouta]
    exact turn_counts hi ok (h _ _ _ hsrc)

/-- A burst that ends has had as many sends as its quota. -/
theorem InBurst.length_eq (h : InBurst trs th) {s : UInt64} {i seq : UInt32}
    (hstage : th.stage = .sending s i seq) (hi : ¬ i.toUInt64 < th.worker.qouta) :
    (record trs).outcomes.length = th.worker.qouta.toNat ∧ th.worker.qouta.toNat < 2 ^ 32 := by
  obtain ⟨hcount, hquota⟩ := h s i seq hstage
  have hle : th.worker.qouta.toNat ≤ i.toNat := by
    simpa using UInt64.le_iff_toNat_le.mp (UInt64.not_lt.mp hi)
  have hlt := i.toNat_lt
  omega

end Thread

end TcpEyenet.Ttest
