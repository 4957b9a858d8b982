import TcpEyenet.Lib.Simulation

/-! How `start_client` and `start_server` start their threads, and how the client ends them. A step
is one access to what they share, but `create`, `check` and `stop` make a few each, and a turn of
the second loop of a thread is one step, which always ends. -/
namespace TcpEyenet.Ttest

/-- Where `start_client` or `start_server` stands: before `pthread_create`, in the loop on
`wstatus` of the new worker, at the test after it, in its reports, in its joins, or at its end. -/
inductive Starter
  | creating
  | awaiting
  | checking
  | reporting
  | joining
  | returned (rc : ℤ)
  deriving DecidableEq

/-- Where the thread made by one `pthread_create` stands: it has not read its argument yet, opens
the socket of the worker with the index it has read, is in one of the two loops on `cmd`, or has
ended. -/
inductive Rung
  | unmade
  | entered
  | opening (idx : ℕ)
  | waiting (idx : ℕ)
  | looping (idx : ℕ)
  | ended
  deriving DecidableEq

/-- `i` is the loop variable of the starter, whose address every thread gets for its argument. -/
structure Launch where
  main : Starter
  i : ℕ
  cmd : ℕ
  wstatus : ℕ → ℕ
  thread : ℕ → Rung

namespace Launch

/-- A step of the starter: `pthread_create` and its outcome, a look at `wstatus` in the loop and
after it, the end of the test, a join that returns. Or a step of the thread `k`: it reads its
argument, opens its socket and sets `wstatus`, looks at `cmd`. -/
inductive Act
  | create (ok : Bool)
  | poll
  | check
  | stop
  | join
  | read (k : ℕ)
  | opened (k : ℕ) (wstatus : ℕ)
  | look (k : ℕ)
  deriving DecidableEq

/-- The head of the loop that makes the workers. -/
def next (n : ℕ) (s : Launch) : Launch :=
  if s.i < n then { s with main := .creating } else { s with main := .reporting, cmd := 1 }

/-- The head of the loop that joins them. -/
def nextJoin (n : ℕ) (s : Launch) : Launch :=
  if s.i < n then { s with main := .joining } else { s with main := .returned 0 }

def start (n : ℕ) : Launch :=
  next n { main := .creating, i := 0, cmd := 0, wstatus := fun _ => 0, thread := fun _ => .unmade }

def setThread (s : Launch) (k : ℕ) (rung : Rung) : Launch :=
  { s with thread := Function.update s.thread k rung }

def setStatus (s : Launch) (idx wstatus : ℕ) : Launch :=
  { s with wstatus := Function.update s.wstatus idx wstatus }

/-- What a worker sets `wstatus` to once it has tried to open its socket. Only a client's worker
has a packet to allocate. -/
def Outcome (client : Bool) (wstatus : ℕ) : Prop :=
  wstatus = 1 ∨ wstatus = 2 ∨ (client = true ∧ wstatus = 3)

instance (client : Bool) (wstatus : ℕ) : Decidable (Outcome client wstatus) := by
  unfold Outcome
  infer_instance

/-- A look at `cmd` by the thread `k`: each turn of the second loop is reported with the index of
the worker it is for. -/
def lookAt (s : Launch) (k : ℕ) : Option (Traced ℕ Launch) :=
  match s.thread k with
  | .waiting idx => some (pure (if s.cmd = 1 then s.setThread k (.looping idx) else s))
  | .looping idx =>
    some (if s.cmd = 1 then ⟨s, [idx]⟩ else pure ((s.setStatus idx 100).setThread k .ended))
  | _ => none

/-- The server never leaves its reports. -/
def step (client : Bool) (n : ℕ) (s : Launch) : Act → Option (Traced ℕ Launch)
  | .create ok =>
    if s.main = .creating then
      let s := s.setStatus s.i 0
      some (pure (if ok then { s.setThread s.i .entered with main := .awaiting }
        else { s with main := .returned (-1) }))
    else none
  | .poll =>
    if s.main = .awaiting then
      some (pure (if s.wstatus s.i = 0 then s else { s with main := .checking }))
    else none
  | .check =>
    if s.main = .checking then
      some (pure (if s.wstatus s.i = 1 then next n { s with i := s.i + 1 }
        else { s with main := .returned (-1) }))
    else none
  | .stop =>
    if client = true ∧ s.main = .reporting then some (pure (nextJoin n { s with cmd := 2, i := 0 }))
    else none
  | .join =>
    if s.main = .joining ∧ s.thread s.i = .ended then
      some (pure (nextJoin n { s with i := s.i + 1 }))
    else none
  | .read k => if s.thread k = .entered then some (pure (s.setThread k (.opening s.i))) else none
  | .opened k wstatus =>
    match s.thread k with
    | .opening idx =>
      if Outcome client wstatus then
        some (pure ((s.setStatus idx wstatus).setThread k
          (if wstatus = 1 then .waiting idx else .ended)))
      else none
    | _ => none
  | .look k => s.lookAt k

def machine (client : Bool) (n : ℕ) : Machine Launch Act ℕ := ⟨step client n⟩

abbrev Step := Transition Launch Act ℕ

variable {s s' : Launch} {n i k idx : ℕ} {client : Bool} {tr : Step} {trs : List Step}
  {main : Starter} {m : Mark}

/-- A step with its guard, what it reports and its outcome. -/
inductive Move (client : Bool) (n : ℕ) : Launch → Act → List ℕ → Launch → Prop
  | create (s : Launch) (ok : Bool) (hmain : s.main = .creating) :
      Move client n s (.create ok) []
        (if ok then { (s.setStatus s.i 0).setThread s.i .entered with main := .awaiting }
          else { s.setStatus s.i 0 with main := .returned (-1) })
  | spin (s : Launch) (hmain : s.main = .awaiting) (hst : s.wstatus s.i = 0) :
      Move client n s .poll [] s
  | poll (s : Launch) (hmain : s.main = .awaiting) (hst : s.wstatus s.i ≠ 0) :
      Move client n s .poll [] { s with main := .checking }
  | check (s : Launch) (hmain : s.main = .checking) :
      Move client n s .check []
        (if s.wstatus s.i = 1 then next n { s with i := s.i + 1 }
          else { s with main := .returned (-1) })
  | stop (s : Launch) (hmain : s.main = .reporting) :
      Move client n s .stop [] (nextJoin n { s with cmd := 2, i := 0 })
  | join (s : Launch) (hmain : s.main = .joining) (hend : s.thread s.i = .ended) :
      Move client n s .join [] (nextJoin n { s with i := s.i + 1 })
  | read (s : Launch) (k : ℕ) (hk : s.thread k = .entered) :
      Move client n s (.read k) [] (s.setThread k (.opening s.i))
  | opened (s : Launch) (k idx wstatus : ℕ) (hk : s.thread k = .opening idx)
      (hout : Outcome client wstatus) :
      Move client n s (.opened k wstatus) []
        ((s.setStatus idx wstatus).setThread k (if wstatus = 1 then .waiting idx else .ended))
  | sleep (s : Launch) (k idx : ℕ) (hk : s.thread k = .waiting idx) (hcmd : s.cmd ≠ 1) :
      Move client n s (.look k) [] s
  | begin (s : Launch) (k idx : ℕ) (hk : s.thread k = .waiting idx) (hcmd : s.cmd = 1) :
      Move client n s (.look k) [] (s.setThread k (.looping idx))
  | turn (s : Launch) (k idx : ℕ) (hk : s.thread k = .looping idx) (hcmd : s.cmd = 1) :
      Move client n s (.look k) [idx] s
  | leave (s : Launch) (k idx : ℕ) (hk : s.thread k = .looping idx) (hcmd : s.cmd ≠ 1) :
      Move client n s (.look k) [] ((s.setStatus idx 100).setThread k .ended)

theorem takes_move (h : (machine client n).Takes tr) :
    Move client n tr.src tr.input tr.out tr.dst := by
  obtain ⟨s, act, out, s'⟩ := tr
  simp only [Machine.Takes, machine, step] at h
  cases act with
  | create ok =>
    obtain ⟨hmain, h⟩ := Option.ite_none_right_eq_some.mp h
    obtain ⟨rfl, rfl⟩ := Traced.mk.inj (Option.some.inj h)
    exact .create _ _ hmain
  | poll =>
    obtain ⟨hmain, h⟩ := Option.ite_none_right_eq_some.mp h
    obtain ⟨rfl, rfl⟩ := Traced.mk.inj (Option.some.inj h)
    dsimp only
    split_ifs with hst
    · exact .spin _ hmain hst
    · exact .poll _ hmain hst
  | check =>
    obtain ⟨hmain, h⟩ := Option.ite_none_right_eq_some.mp h
    obtain ⟨rfl, rfl⟩ := Traced.mk.inj (Option.some.inj h)
    exact .check _ hmain
  | stop =>
    obtain ⟨hmain, h⟩ := Option.ite_none_right_eq_some.mp h
    obtain ⟨rfl, rfl⟩ := Traced.mk.inj (Option.some.inj h)
    exact .stop _ hmain.2
  | join =>
    obtain ⟨hmain, h⟩ := Option.ite_none_right_eq_some.mp h
    obtain ⟨rfl, rfl⟩ := Traced.mk.inj (Option.some.inj h)
    exact .join _ hmain.1 hmain.2
  | read k =>
    obtain ⟨hk, h⟩ := Option.ite_none_right_eq_some.mp h
    obtain ⟨rfl, rfl⟩ := Traced.mk.inj (Option.some.inj h)
    exact .read _ _ hk
  | opened k wstatus =>
    simp only at h
    split at h
    · rename_i idx hk
      obtain ⟨hout, h⟩ := Option.ite_none_right_eq_some.mp h
      obtain ⟨rfl, rfl⟩ := Traced.mk.inj (Option.some.inj h)
      exact .opened _ _ _ _ hk hout
    · cases h
  | look k =>
    simp only [lookAt] at h
    split at h
    · rename_i idx hk
      obtain ⟨rfl, rfl⟩ := Traced.mk.inj (Option.some.inj h)
      dsimp only
      split_ifs with hcmd
      · exact .begin _ _ _ hk hcmd
      · exact .sleep _ _ _ hk hcmd
    · rename_i idx hk
      split_ifs at h with hcmd
      · obtain ⟨rfl, rfl⟩ := Traced.mk.inj (Option.some.inj h)
        exact .turn _ _ _ hk hcmd
      · obtain ⟨rfl, rfl⟩ := Traced.mk.inj (Option.some.inj h)
        exact .leave _ _ _ hk hcmd
    · cases h

/-- What a thread and the `wstatus` of its worker can be together. -/
inductive Mark
  | unmade
  | fresh
  | ready
  | busy
  | over
  | failed
  deriving DecidableEq

def Marked (s : Launch) (k : ℕ) : Mark → Prop
  | .unmade => s.thread k = .unmade
  | .fresh => (s.thread k = .entered ∨ s.thread k = .opening k) ∧ s.wstatus k = 0
  | .ready => s.thread k = .waiting k ∧ s.wstatus k = 1
  | .busy => s.thread k = .looping k ∧ s.wstatus k = 1
  | .over => s.thread k = .ended ∧ s.wstatus k = 100
  | .failed => s.thread k = .ended ∧ (s.wstatus k = 2 ∨ s.wstatus k = 3)

/-- The marks of the thread `k` while the starter is at `main` with its loop at `i`. -/
def allowed (n i k : ℕ) : Starter → List Mark
  | .creating => if k < i then [.ready] else [.unmade]
  | .awaiting =>
    if k < i then [.ready] else if k = i then [.fresh, .ready, .failed] else [.unmade]
  | .checking => if k < i then [.ready] else if k = i then [.ready, .failed] else [.unmade]
  | .reporting => if k < n then [.ready, .busy] else [.unmade]
  | .joining => if k < i then [.over] else if k < n then [.ready, .busy, .over] else [.unmade]
  | .returned rc =>
    if k < n then if rc = 0 then [.over] else [.unmade, .ready, .failed] else [.unmade]

def cmdOf : Starter → ℕ
  | .reporting => 1
  | .joining => 2
  | .returned rc => if rc = 0 then 2 else 0
  | _ => 0

/-- The loop of the starter is at a worker, and not past the last. -/
def InLoop : Starter → Prop
  | .reporting => False
  | .returned _ => False
  | _ => True

structure Inv (n : ℕ) (s : Launch) : Prop where
  cmd : s.cmd = cmdOf s.main
  bound : InLoop s.main → s.i < n
  marks (k : ℕ) : ∃ m ∈ allowed n s.i k s.main, s.Marked k m

theorem Marked.congr (h : s.Marked k m) (ht : s'.thread k = s.thread k)
    (hw : s'.wstatus k = s.wstatus k) : s'.Marked k m := by
  cases m <;> simpa only [Marked, ht, hw] using h

theorem fresh_allowed (h : .fresh ∈ allowed n i k main) : main = .awaiting ∧ k = i := by
  cases main <;> simp only [allowed] at h <;> split_ifs at h <;> simp_all

theorem busy_allowed (h : .ready ∈ allowed n i k main) (hcmd : cmdOf main = 1) :
    .busy ∈ allowed n i k main := by
  cases main <;> simp only [allowed, cmdOf] at h hcmd ⊢ <;> split_ifs at * <;> simp_all

theorem over_allowed (h : .busy ∈ allowed n i k main) (hcmd : cmdOf main ≠ 1) :
    .over ∈ allowed n i k main := by
  cases main <;> simp only [allowed, cmdOf] at h hcmd ⊢ <;> split_ifs at * <;> simp_all

theorem unmade_allowed : .unmade ∈ allowed n i k (.returned (-1)) := by
  by_cases hk : k < n <;> simp [allowed, hk]

theorem inv_next (hcmd : s.cmd = 0) (hle : s.i ≤ n) (hready : ∀ k < s.i, s.Marked k .ready)
    (hunmade : ∀ k, s.i ≤ k → s.Marked k .unmade) : Inv n (next n s) := by
  rw [next]
  split_ifs with hi
  · refine ⟨hcmd, fun _ => hi, fun k => ?_⟩
    by_cases hk : k < s.i
    · exact ⟨.ready, by simp [allowed, hk], hready k hk⟩
    · exact ⟨.unmade, by simp [allowed, hk], hunmade k (by omega)⟩
  · refine ⟨rfl, fun h => h.elim, fun k => ?_⟩
    by_cases hk : k < n
    · exact ⟨.ready, by simp [allowed, hk], hready k (by omega)⟩
    · exact ⟨.unmade, by simp [allowed, hk], hunmade k (by omega)⟩

theorem inv_nextJoin (hcmd : s.cmd = 2) (hle : s.i ≤ n) (hover : ∀ k < s.i, s.Marked k .over)
    (hlive : ∀ k, s.i ≤ k → k < n → ∃ m ∈ [.ready, .busy, .over], s.Marked k m)
    (hunmade : ∀ k, n ≤ k → s.Marked k .unmade) : Inv n (nextJoin n s) := by
  rw [nextJoin]
  split_ifs with hi
  · refine ⟨hcmd, fun _ => hi, fun k => ?_⟩
    by_cases hk : k < s.i
    · exact ⟨.over, by simp [allowed, hk], hover k hk⟩
    · by_cases hkn : k < n
      · obtain ⟨m, hm, hmark⟩ := hlive k (by omega) hkn
        exact ⟨m, by simpa [allowed, hk, hkn] using hm, hmark⟩
      · exact ⟨.unmade, by simp [allowed, hk, hkn], hunmade k (by omega)⟩
  · refine ⟨hcmd, fun h => h.elim, fun k => ?_⟩
    by_cases hk : k < n
    · exact ⟨.over, by simp [allowed, hk], hover k (by omega)⟩
    · exact ⟨.unmade, by simp [allowed, hk], hunmade k (by omega)⟩

theorem inv_start (n : ℕ) : Inv n (start n) :=
  inv_next rfl n.zero_le (fun k hk => absurd hk k.not_lt_zero) fun _ _ => rfl

/-- A step of the thread `k` which leaves it a mark it may have. -/
theorem Inv.thread (h : Inv n s) (hmain : s'.main = s.main) (hi : s'.i = s.i)
    (hcmd : s'.cmd = s.cmd)
    (hother : ∀ j, j ≠ k → s'.thread j = s.thread j ∧ s'.wstatus j = s.wstatus j)
    (hm : m ∈ allowed n s.i k s.main) (hmark : s'.Marked k m) : Inv n s' := by
  refine ⟨by rw [hcmd, hmain, h.cmd], fun hl => by rw [hi]; exact h.bound (hmain ▸ hl), ?_⟩
  intro j
  rw [hi, hmain]
  by_cases hj : j = k
  · exact ⟨m, hj ▸ hm, hj ▸ hmark⟩
  · obtain ⟨m', hm', hmark'⟩ := h.marks j
    obtain ⟨ht, hw⟩ := hother j hj
    exact ⟨m', hm', hmark'.congr ht hw⟩

theorem Inv.fresh_of (h : Inv n s)
    (hk : s.thread k = .entered ∨ ∃ idx, s.thread k = .opening idx) :
    s.main = .awaiting ∧ k = s.i ∧ s.Marked k .fresh := by
  obtain ⟨m, hm, hmark⟩ := h.marks k
  cases m with
  | fresh =>
    obtain ⟨hmain, hi⟩ := fresh_allowed hm
    exact ⟨hmain, hi, hmark⟩
  | _ => rcases hk with hk | ⟨idx, hk⟩ <;> simp [Marked, hk] at hmark

theorem Inv.ready_of (h : Inv n s) (hk : s.thread k = .waiting idx) :
    idx = k ∧ .ready ∈ allowed n s.i k s.main ∧ s.Marked k .ready := by
  obtain ⟨m, hm, hmark⟩ := h.marks k
  cases m with
  | ready =>
    have hidx : Rung.waiting idx = .waiting k := hk.symm.trans hmark.1
    exact ⟨Rung.waiting.inj hidx, hm, hmark⟩
  | _ => simp [Marked, hk] at hmark

theorem Inv.busy_of (h : Inv n s) (hk : s.thread k = .looping idx) :
    idx = k ∧ .busy ∈ allowed n s.i k s.main ∧ s.Marked k .busy := by
  obtain ⟨m, hm, hmark⟩ := h.marks k
  cases m with
  | busy =>
    have hidx : Rung.looping idx = .looping k := hk.symm.trans hmark.1
    exact ⟨Rung.looping.inj hidx, hm, hmark⟩
  | _ => simp [Marked, hk] at hmark

theorem Inv.creating (h : Inv n s) (hmain : s.main = .creating) :
    s.i < n ∧ (∀ k < s.i, s.Marked k .ready) ∧ ∀ k, s.i ≤ k → s.Marked k .unmade := by
  refine ⟨h.bound (by simp [hmain, InLoop]), fun k hk => ?_, fun k hk => ?_⟩
  · obtain ⟨m, hm, hmark⟩ := h.marks k
    obtain rfl : m = .ready := by simpa [allowed, hmain, hk] using hm
    exact hmark
  · obtain ⟨m, hm, hmark⟩ := h.marks k
    obtain rfl : m = .unmade := by simpa [allowed, hmain, hk.not_gt] using hm
    exact hmark

theorem Inv.checking (h : Inv n s) (hmain : s.main = .checking) :
    s.i < n ∧ (∀ k < s.i, s.Marked k .ready) ∧ (s.Marked s.i .ready ∨ s.Marked s.i .failed) ∧
      ∀ k, s.i < k → s.Marked k .unmade := by
  refine ⟨h.bound (by simp [hmain, InLoop]), fun k hk => ?_, ?_, fun k hk => ?_⟩
  · obtain ⟨m, hm, hmark⟩ := h.marks k
    obtain rfl : m = .ready := by simpa [allowed, hmain, hk] using hm
    exact hmark
  · obtain ⟨m, hm, hmark⟩ := h.marks s.i
    have hcases : m = .ready ∨ m = .failed := by simpa [allowed, hmain] using hm
    rcases hcases with rfl | rfl
    · exact .inl hmark
    · exact .inr hmark
  · obtain ⟨m, hm, hmark⟩ := h.marks k
    obtain rfl : m = .unmade := by simpa [allowed, hmain, hk.not_gt, hk.ne'] using hm
    exact hmark

/-- A worker is made, or the starter gives up. -/
theorem inv_create (h : Inv n s) (hmain : s.main = .creating) (ok : Bool) :
    Inv n (if ok then { (s.setStatus s.i 0).setThread s.i .entered with main := .awaiting }
      else { s.setStatus s.i 0 with main := .returned (-1) }) := by
  obtain ⟨hi, hready, hunmade⟩ := h.creating hmain
  have hcmd : s.cmd = 0 := by rw [h.cmd, hmain]; rfl
  cases ok with
  | true =>
    refine ⟨hcmd, fun _ => hi, fun k => ?_⟩
    rcases lt_trichotomy k s.i with hk | rfl | hk
    · refine ⟨.ready, by simp [allowed, setThread, setStatus, hk], (hready k hk).congr ?_ ?_⟩
      · simp [setThread, setStatus, hk.ne]
      · simp [setThread, setStatus, hk.ne]
    · exact ⟨.fresh, by simp [allowed, setThread, setStatus],
        by simp [Marked, setThread, setStatus]⟩
    · refine ⟨.unmade, ?_, (hunmade k hk.le).congr ?_ ?_⟩
      · simp [allowed, setThread, setStatus, hk.not_gt, hk.ne']
      · simp [setThread, setStatus, hk.ne']
      · simp [setThread, setStatus, hk.ne']
  | false =>
    refine ⟨hcmd, fun hl => hl.elim, fun k => ?_⟩
    rcases lt_or_ge k s.i with hk | hk
    · refine ⟨.ready, by simp [allowed, hk.trans hi], (hready k hk).congr rfl ?_⟩
      simp [setStatus, hk.ne]
    · exact ⟨.unmade, unmade_allowed, hunmade k hk⟩

theorem inv_poll (h : Inv n s) (hmain : s.main = .awaiting) (hst : s.wstatus s.i ≠ 0) :
    Inv n { s with main := .checking } := by
  refine ⟨by rw [h.cmd, hmain]; rfl, fun _ => h.bound (by simp [hmain, InLoop]), fun k => ?_⟩
  obtain ⟨m, hm, hmark⟩ := h.marks k
  rw [hmain] at hm
  refine ⟨m, ?_, hmark⟩
  simp only [allowed] at hm ⊢
  split_ifs at hm ⊢ with hk hki
  · exact hm
  · subst hki
    rcases List.mem_cons.mp hm with rfl | hm
    · exact absurd hmark.2 hst
    · exact hm
  · exact hm

theorem inv_check (h : Inv n s) (hmain : s.main = .checking) :
    Inv n (if s.wstatus s.i = 1 then next n { s with i := s.i + 1 }
      else { s with main := .returned (-1) }) := by
  obtain ⟨hi, hready, hself, hunmade⟩ := h.checking hmain
  have hcmd : s.cmd = 0 := by rw [h.cmd, hmain]; rfl
  split_ifs with hst
  · refine inv_next hcmd hi (fun k hk => ?_) fun k hk => hunmade k hk
    rcases Nat.lt_succ_iff_lt_or_eq.mp hk with hk | rfl
    · exact hready k hk
    · rcases hself with hself | hself
      · exact hself
      · rcases hself.2 with h2 | h3
        · rw [hst] at h2
          exact absurd h2 (by decide)
        · rw [hst] at h3
          exact absurd h3 (by decide)
  · refine ⟨hcmd, fun hl => hl.elim, fun k => ?_⟩
    rcases lt_trichotomy k s.i with hk | rfl | hk
    · exact ⟨.ready, by simp [allowed, hk.trans hi], hready k hk⟩
    · rcases hself with hself | hself
      · exact absurd hself.2 hst
      · exact ⟨.failed, by simp [allowed, hi], hself⟩
    · exact ⟨.unmade, unmade_allowed, hunmade k hk⟩

theorem inv_stop (h : Inv n s) (hmain : s.main = .reporting) :
    Inv n (nextJoin n { s with cmd := 2, i := 0 }) := by
  refine inv_nextJoin rfl n.zero_le (fun k hk => absurd hk k.not_lt_zero) (fun k _ hk => ?_)
    fun k hk => ?_
  · obtain ⟨m, hm, hmark⟩ := h.marks k
    have hcases : m = .ready ∨ m = .busy := by simpa [allowed, hmain, hk] using hm
    rcases hcases with rfl | rfl
    · exact ⟨.ready, by simp, hmark⟩
    · exact ⟨.busy, by simp, hmark⟩
  · obtain ⟨m, hm, hmark⟩ := h.marks k
    obtain rfl : m = .unmade := by simpa [allowed, hmain, hk.not_gt] using hm
    exact hmark

theorem inv_join (h : Inv n s) (hmain : s.main = .joining) (hend : s.thread s.i = .ended) :
    Inv n (nextJoin n { s with i := s.i + 1 }) := by
  have hi : s.i < n := h.bound (by simp [hmain, InLoop])
  refine inv_nextJoin (by rw [h.cmd, hmain]; rfl) hi (fun k hk => ?_) (fun k hik hkn => ?_)
    fun k hk => ?_
  · obtain ⟨m, hm, hmark⟩ := h.marks k
    rw [hmain] at hm
    rcases Nat.lt_succ_iff_lt_or_eq.mp hk with hk | rfl
    · obtain rfl : m = .over := by simpa [allowed, hk] using hm
      exact hmark
    · have hcases : m = .ready ∨ m = .busy ∨ m = .over := by simpa [allowed, hi] using hm
      rcases hcases with rfl | rfl | rfl
      · exact absurd (hend.symm.trans hmark.1) (by simp)
      · exact absurd (hend.symm.trans hmark.1) (by simp)
      · exact hmark
  · obtain ⟨m, hm, hmark⟩ := h.marks k
    have hlt : ¬ k < s.i := by
      have hik' : s.i + 1 ≤ k := hik
      omega
    exact ⟨m, by simpa [allowed, hmain, hlt, hkn] using hm, hmark⟩
  · obtain ⟨m, hm, hmark⟩ := h.marks k
    have hlt : ¬ k < s.i := by omega
    obtain rfl : m = .unmade := by simpa [allowed, hmain, hlt, hk.not_gt] using hm
    exact hmark

theorem setThread_other (rung : Rung) {j : ℕ} (hj : j ≠ k) :
    (s.setThread k rung).thread j = s.thread j := Function.update_of_ne hj ..

theorem setStatus_other (wstatus : ℕ) {j : ℕ} (hj : j ≠ k) :
    (s.setStatus k wstatus).wstatus j = s.wstatus j := Function.update_of_ne hj ..

theorem inv_read (h : Inv n s) (hk : s.thread k = .entered) :
    Inv n (s.setThread k (.opening s.i)) := by
  obtain ⟨hmain, rfl, hfresh⟩ := h.fresh_of (.inl hk)
  refine h.thread (k := s.i) (m := .fresh) rfl rfl rfl (fun j hj => ⟨setThread_other _ hj, rfl⟩)
    (by simp [allowed, hmain]) ?_
  exact ⟨.inr (by simp [setThread]), hfresh.2⟩

theorem inv_opened (h : Inv n s) (hk : s.thread k = .opening idx) {wstatus : ℕ}
    (hout : Outcome client wstatus) :
    Inv n ((s.setStatus idx wstatus).setThread k
      (if wstatus = 1 then .waiting idx else .ended)) := by
  obtain ⟨hmain, rfl, hfresh⟩ := h.fresh_of (.inr ⟨idx, hk⟩)
  obtain rfl : idx = s.i := by
    rcases hfresh.1 with he | ho
    · exact absurd (hk.symm.trans he) (by simp)
    · exact Rung.opening.inj (hk.symm.trans ho)
  have hother : ∀ j, j ≠ s.i →
      ((s.setStatus s.i wstatus).setThread s.i
        (if wstatus = 1 then .waiting s.i else .ended)).thread j = s.thread j ∧
      ((s.setStatus s.i wstatus).setThread s.i
        (if wstatus = 1 then .waiting s.i else .ended)).wstatus j = s.wstatus j :=
    fun j hj => ⟨setThread_other _ hj, setStatus_other _ hj⟩
  by_cases hone : wstatus = 1
  · refine h.thread (k := s.i) (m := .ready) rfl rfl rfl hother (by simp [allowed, hmain]) ?_
    simp [Marked, setThread, setStatus, hone]
  · refine h.thread (k := s.i) (m := .failed) rfl rfl rfl hother (by simp [allowed, hmain]) ?_
    have hbad : wstatus = 2 ∨ wstatus = 3 := by
      rcases hout with hout | hout | ⟨-, hout⟩
      · exact absurd hout hone
      · exact .inl hout
      · exact .inr hout
    simpa [Marked, setThread, setStatus, hone] using hbad

theorem inv_begin (h : Inv n s) (hk : s.thread k = .waiting idx) (hcmd : s.cmd = 1) :
    Inv n (s.setThread k (.looping idx)) := by
  obtain ⟨rfl, hready, hmark⟩ := h.ready_of hk
  refine h.thread (k := idx) (m := .busy) rfl rfl rfl (fun j hj => ⟨setThread_other _ hj, rfl⟩)
    (busy_allowed hready (h.cmd ▸ hcmd)) ?_
  exact ⟨by simp [setThread], hmark.2⟩

theorem inv_leave (h : Inv n s) (hk : s.thread k = .looping idx) (hcmd : s.cmd ≠ 1) :
    Inv n ((s.setStatus idx 100).setThread k .ended) := by
  obtain ⟨rfl, hbusy, hmark⟩ := h.busy_of hk
  refine h.thread (k := idx) (m := .over) rfl rfl rfl
    (fun j hj => ⟨setThread_other _ hj, setStatus_other _ hj⟩)
    (over_allowed hbusy (h.cmd ▸ hcmd)) ?_
  simp [Marked, setThread, setStatus]

theorem inv_step (ht : (machine client n).Takes tr) (h : Inv n tr.src) : Inv n tr.dst := by
  have hm := takes_move ht
  obtain ⟨s, act, out, s'⟩ := tr
  dsimp only at hm h ⊢
  cases hm with
  | create ok hmain => exact inv_create h hmain ok
  | poll hmain hst => exact inv_poll h hmain hst
  | check hmain => exact inv_check h hmain
  | stop hmain => exact inv_stop h hmain
  | join hmain hend => exact inv_join h hmain hend
  | read k hk => exact inv_read h hk
  | opened k idx wstatus hk hout => exact inv_opened h hk hout
  | begin k idx hk hcmd => exact inv_begin h hk hcmd
  | leave k idx hk hcmd => exact inv_leave h hk hcmd
  | spin | sleep | turn => exact h

theorem inv_run (hr : (machine client n).Run (start n) trs s) : Inv n s :=
  hr.invariant (C := fun _ => True) (fun _ _ => trivial) (inv_start n) fun _ ht _ => inv_step ht

/-- A thread that has been made is one of the `n`. -/
theorem Inv.lt (h : Inv n s) (hk : s.thread k ≠ .unmade) : k < n := by
  obtain ⟨m, hm, hmark⟩ := h.marks k
  by_contra hn
  have hbound := h.bound
  have hnone : m = .unmade := by
    cases hmain : s.main with
    | creating | awaiting | checking | joining =>
      rw [hmain] at hbound
      have hi := hbound trivial
      have hlt : ¬ k < s.i := by omega
      have hne : ¬ k = s.i := by omega
      simpa [allowed, hmain, hlt, hne, hn] using hm
    | _ => simpa [allowed, hmain, hn] using hm
  subst hnone
  exact hk hmark

theorem cmdOf_eq_one (h : cmdOf main = 1) : main = .reporting := by
  cases main with
  | reporting => rfl
  | returned rc =>
    by_cases hrc : rc = 0 <;> simp [cmdOf, hrc] at h
  | _ => simp [cmdOf] at h

theorem cmdOf_eq_two (h : cmdOf main = 2) : main = .joining ∨ main = .returned 0 := by
  cases main with
  | joining => exact .inl rfl
  | returned rc =>
    by_cases hrc : rc = 0
    · exact .inr (hrc ▸ rfl)
    · simp [cmdOf, hrc] at h
  | _ => simp [cmdOf] at h

/-- A turn of a worker is its own thread's, and then the sockets of all are open. -/
theorem turn_step (ht : (machine client n).Takes tr) (h : Inv n tr.src) (hidx : idx ∈ tr.out) :
    tr.input = .look idx ∧ tr.src.cmd = 1 ∧ ∀ j < n, tr.src.wstatus j = 1 := by
  have hm := takes_move ht
  obtain ⟨s, act, out, s'⟩ := tr
  dsimp only at hm h hidx ⊢
  cases hm with
  | turn k idx' hk hcmd =>
    obtain ⟨rfl, -, -⟩ := h.busy_of hk
    obtain rfl := List.mem_singleton.mp hidx
    refine ⟨rfl, hcmd, fun j hj => ?_⟩
    have hmain := cmdOf_eq_one (h.cmd ▸ hcmd)
    obtain ⟨m, hm, hmark⟩ := h.marks j
    have hcases : m = .ready ∨ m = .busy := by simpa [allowed, hmain, hj] using hm
    rcases hcases with rfl | rfl
    · exact hmark.2
    · exact hmark.2
  | _ => exact absurd hidx List.not_mem_nil

theorem next_cmd (h : (next n s).cmd = 0) : s.cmd = 0 := by
  rw [next] at h
  split_ifs at h
  exact h

theorem nextJoin_cmd : (nextJoin n s).cmd = s.cmd := by
  rw [nextJoin]
  split_ifs <;> rfl

/-- `cmd` never goes back to 0. -/
theorem cmd_step (ht : (machine client n).Takes tr) (hcmd : tr.dst.cmd = 0) : tr.src.cmd = 0 := by
  have hm := takes_move ht
  obtain ⟨s, act, out, s'⟩ := tr
  dsimp only at hm hcmd ⊢
  cases hm with
  | create ok => cases ok <;> exact hcmd
  | check =>
    split_ifs at hcmd
    · have hnext := next_cmd hcmd
      exact hnext
    · exact hcmd
  | stop =>
    rw [nextJoin_cmd] at hcmd
    cases hcmd
  | join => rwa [nextJoin_cmd] at hcmd
  | _ => exact hcmd

/-- Up to the point where all are started no worker has taken a turn. -/
theorem quiet_run (hr : (machine client n).Run (start n) trs s) (hcmd : s.cmd = 0) :
    ∀ tr ∈ trs, tr.out = [] := by
  refine hr.along (I := fun trs s => s.cmd = 0 → ∀ tr ∈ trs, tr.out = []) (C := fun _ _ => True)
    (fun _ _ _ _ => trivial) (by simp) (fun pre tr hpre ht _ ih hcmd tr' htr' => ?_) hcmd
  have hbefore := cmd_step ht hcmd
  rcases List.mem_append.mp htr' with hold | hnew
  · exact ih hbefore tr' hold
  · obtain rfl := List.mem_singleton.mp hnew
    refine List.eq_nil_iff_forall_not_mem.mpr fun idx hidx => ?_
    obtain ⟨-, hone, -⟩ := turn_step ht (inv_run hpre) hidx
    rw [hbefore] at hone
    cases hone

/-- Every thread works for a worker of its own, none before the sockets of all are open, and none
at all where `start_client` or `start_server` gives up. Where `start_client` returns 0 they have
all ended. -/
theorem workers_start_together (hr : (machine client n).Run (start n) trs s) :
    (∀ k idx, s.thread k = .waiting idx ∨ s.thread k = .looping idx → idx = k ∧ k < n) ∧
      (∀ tr ∈ trs, ∀ idx ∈ tr.out, tr.input = .look idx ∧ ∀ j < n, tr.src.wstatus j = 1) ∧
      (∀ rc, s.main = .returned rc → rc ≠ 0 → ∀ tr ∈ trs, tr.out = []) ∧
      (s.main = .returned 0 → ∀ k < n, s.thread k = .ended ∧ s.wstatus k = 100) := by
  have hinv := inv_run hr
  refine ⟨fun k idx hk => ?_, fun tr htr idx hidx => ?_, fun rc hmain hrc => ?_,
    fun hmain k hk => ?_⟩
  · rcases hk with hk | hk
    · exact ⟨(hinv.ready_of hk).1, hinv.lt (by simp [hk])⟩
    · exact ⟨(hinv.busy_of hk).1, hinv.lt (by simp [hk])⟩
  · obtain ⟨pre, post, he⟩ := List.append_of_mem htr
    obtain ⟨hpre, ht⟩ := hr.split he
    obtain ⟨hinput, -, hopen⟩ := turn_step ht (inv_run hpre) hidx
    exact ⟨hinput, hopen⟩
  · exact quiet_run hr (by rw [hinv.cmd, hmain, cmdOf, if_neg hrc])
  · obtain ⟨m, hm, hmark⟩ := hinv.marks k
    obtain rfl : m = .over := by simpa [allowed, hmain, hk] using hm
    exact hmark

/-- A client of two workers, the first of which leaves before the second has looked at `cmd`. -/
def oneAsleep : List Act :=
  [.create true, .read 0, .opened 0 1, .poll, .check, .create true, .poll, .read 1, .opened 1 1,
    .look 0, .poll, .check, .look 0, .look 0, .stop, .look 0, .join]

theorem oneAsleep_accepted : ((machine true 2).exec (start 2) oneAsleep).isSome := by
  decide +kernel

theorem workers_start_together_oneAsleep :
    ∃ trs s, (machine true 2).exec (start 2) oneAsleep = some (trs, s) ∧
      (∃ tr ∈ trs, tr.out = [0]) ∧
      ∀ tr ∈ trs, ∀ idx ∈ tr.out, tr.input = .look idx ∧ ∀ j < 2, tr.src.wstatus j = 1 := by
  have hturn : (Option.get _ oneAsleep_accepted).1.any fun tr => tr.out = [0] := by
    decide +kernel
  obtain ⟨tr, htr, hout⟩ := List.any_eq_true.mp hturn
  have htogether := workers_start_together (Machine.exec_get_run oneAsleep_accepted)
  exact ⟨_, _, Machine.exec_get oneAsleep_accepted, ⟨tr, htr, of_decide_eq_true hout⟩,
    htogether.2.1⟩

/-- A thread that was asleep for the whole test sleeps on. -/
theorem asleep_step (ht : (machine client n).Takes tr) (h : Inv n tr.src) (hcmd : tr.src.cmd = 2)
    (hk : tr.src.thread k = .waiting idx) :
    tr.dst.cmd = 2 ∧ tr.dst.thread k = .waiting idx := by
  have hm := takes_move ht
  obtain ⟨s, act, out, s'⟩ := tr
  dsimp only at hm h hcmd hk ⊢
  have hmain := cmdOf_eq_two (h.cmd ▸ hcmd)
  cases hm with
  | create ok hcreating => rcases hmain with hmain | hmain <;> simp [hmain] at hcreating
  | poll hawaiting => rcases hmain with hmain | hmain <;> simp [hmain] at hawaiting
  | check hchecking => rcases hmain with hmain | hmain <;> simp [hmain] at hchecking
  | stop hreporting => rcases hmain with hmain | hmain <;> simp [hmain] at hreporting
  | join hjoining hend =>
    refine ⟨nextJoin_cmd.trans hcmd, ?_⟩
    rw [nextJoin]
    split_ifs <;> exact hk
  | read j hj =>
    have hne : k ≠ j := by
      rintro rfl
      simp [hk] at hj
    exact ⟨hcmd, (setThread_other _ hne).trans hk⟩
  | opened j idx' wstatus hj =>
    have hne : k ≠ j := by
      rintro rfl
      simp [hk] at hj
    exact ⟨hcmd, (setThread_other _ hne).trans hk⟩
  | begin j idx' hj hone => exact absurd (hcmd.symm.trans hone) (by decide)
  | leave j idx' hj =>
    have hne : k ≠ j := by
      rintro rfl
      simp [hk] at hj
    exact ⟨hcmd, (setThread_other _ hne).trans hk⟩
  | spin | sleep | turn => exact ⟨hcmd, hk⟩

theorem Inv.not_returned (h : Inv n s) (hk : s.thread k = .waiting idx) :
    s.main ≠ .returned 0 := by
  intro hmain
  obtain ⟨-, hready, -⟩ := h.ready_of hk
  have hlt := h.lt (k := k) (by simp [hk])
  simp [allowed, hmain, hlt] at hready

theorem takes_look (hk : s.thread k = .looping idx) (hcmd : s.cmd ≠ 1) :
    (machine client n).Takes ⟨s, .look k, [], (s.setStatus idx 100).setThread k .ended⟩ := by
  simp only [Machine.Takes, machine, step, lookAt, hk, if_neg hcmd]
  rfl

theorem takes_join (hmain : s.main = .joining) (hend : s.thread s.i = .ended) :
    (machine client n).Takes ⟨s, .join, [], nextJoin n { s with i := s.i + 1 }⟩ := by
  simp only [Machine.Takes, machine, step, if_pos (And.intro hmain hend)]
  rfl

/-- Every thread has seen that the test began. -/
def Awake (s : Launch) : Prop := ∀ k idx, s.thread k ≠ .waiting idx

/-- The thread to be joined next can leave its loop, if it is still there. -/
theorem leave_run (h : Inv n s) (hmain : s.main = .joining) (hawake : s.Awake) :
    ∃ ts t, (machine client n).Run s ts t ∧ Inv n t ∧ t.main = .joining ∧ t.i = s.i ∧
      t.thread t.i = .ended ∧ t.Awake := by
  have hi : s.i < n := h.bound (by simp [hmain, InLoop])
  have hcmd : s.cmd ≠ 1 := by simp [h.cmd, hmain, cmdOf]
  obtain ⟨m, hm, hmark⟩ := h.marks s.i
  have hcases : m = .ready ∨ m = .busy ∨ m = .over := by simpa [allowed, hmain, hi] using hm
  rcases hcases with rfl | rfl | rfl
  · exact absurd hmark.1 (hawake _ _)
  · have ht : (machine client n).Takes
        ⟨s, .look s.i, [], (s.setStatus s.i 100).setThread s.i .ended⟩ := takes_look hmark.1 hcmd
    refine ⟨_, _, .snoc .refl ht, inv_step ht h, hmain, rfl, by simp [setThread, setStatus], ?_⟩
    intro k idx
    by_cases hk : k = s.i
    · simp [setThread, setStatus, hk]
    · have hsame : ((s.setStatus s.i 100).setThread s.i .ended).thread k = s.thread k :=
        setThread_other _ hk
      rw [hsame]
      exact hawake k idx
  · exact ⟨[], s, .refl, h, hmain, rfl, hmark.1, hawake⟩

theorem nextJoin_thread : (nextJoin n s).thread = s.thread := by
  rw [nextJoin]
  split_ifs <;> rfl

theorem nextJoin_main : (nextJoin n s).main = if s.i < n then .joining else .returned 0 := by
  rw [nextJoin]
  split_ifs <;> rfl

theorem nextJoin_i : (nextJoin n s).i = s.i := by
  rw [nextJoin]
  split_ifs <;> rfl

theorem finish_run (d : ℕ) (h : Inv n s) (hmain : s.main = .joining) (hawake : s.Awake)
    (hd : n = s.i + d) : ∃ ts t, (machine client n).Run s ts t ∧ t.main = .returned 0 := by
  induction d generalizing s with
  | zero =>
    have hi : s.i < n := h.bound (by simp [hmain, InLoop])
    omega
  | succ d ih =>
    obtain ⟨ts, t, hrun, hinv, hjoining, hi, hend, hawake'⟩ := leave_run h hmain hawake
    have ht : (machine client n).Takes ⟨t, .join, [], nextJoin n { t with i := t.i + 1 }⟩ :=
      takes_join hjoining hend
    have hrun' := hrun.snoc ht
    by_cases hlast : t.i + 1 < n
    · have hnext : (nextJoin n { t with i := t.i + 1 }).main = .joining := by
        rw [nextJoin_main, if_pos hlast]
      have hsucc : (nextJoin n { t with i := t.i + 1 }).i = t.i + 1 := nextJoin_i
      obtain ⟨ts', u, hfin, hret⟩ := ih (inv_step ht hinv) hnext
        (by intro k idx; rw [nextJoin_thread]; exact hawake' k idx) (by rw [hsucc]; omega)
      exact ⟨_, u, hrun'.append hfin, hret⟩
    · refine ⟨_, _, hrun', ?_⟩
      exact nextJoin_main.trans (if_neg hlast)

/-- Once the test is over, `start_client` can return just where no thread slept through all of
it. -/
theorem returns_iff (hr : (machine client n).Run (start n) trs s) (hmain : s.main = .joining) :
    (∃ ts t, (machine client n).Run s ts t ∧ t.main = .returned 0) ↔
      ∀ k idx, s.thread k ≠ .waiting idx := by
  have hinv := inv_run hr
  constructor
  · rintro ⟨ts, t, hrun, hret⟩ k idx hk
    have hstuck : Inv n t ∧ t.cmd = 2 ∧ t.thread k = .waiting idx := by
      refine hrun.invariant (I := fun t => Inv n t ∧ t.cmd = 2 ∧ t.thread k = .waiting idx)
        (C := fun _ => True) (fun _ _ => trivial) ⟨hinv, by rw [hinv.cmd, hmain]; rfl, hk⟩ ?_
      rintro tr ht - ⟨hsrc, hcmd, hwaiting⟩
      exact ⟨inv_step ht hsrc, asleep_step ht hsrc hcmd hwaiting⟩
    exact hstuck.1.not_returned hstuck.2.2 hret
  · intro hawake
    have hi : s.i < n := hinv.bound (by simp [hmain, InLoop])
    exact finish_run (n - s.i) hinv hmain hawake (by omega)

theorem returns_iff_oneAsleep :
    ∃ trs s, (machine true 2).exec (start 2) oneAsleep = some (trs, s) ∧ s.main = .joining ∧
      ¬ ∃ ts t, (machine true 2).Run s ts t ∧ t.main = .returned 0 := by
  have hmain : (Option.get _ oneAsleep_accepted).2.main = .joining := by decide +kernel
  have hasleep : (Option.get _ oneAsleep_accepted).2.thread 1 = .waiting 1 := by decide +kernel
  have hiff := returns_iff (Machine.exec_get_run oneAsleep_accepted) hmain
  exact ⟨_, _, Machine.exec_get oneAsleep_accepted, hmain, fun h => hiff.mp h 1 1 hasleep⟩

end Launch

end TcpEyenet.Ttest
