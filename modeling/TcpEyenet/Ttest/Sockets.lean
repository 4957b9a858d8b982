import Mathlib

/-! The sockets of ttest: a call that opens several, or none. -/
namespace TcpEyenet.Ttest

/-- What is read of a `sockaddr_in`. -/
structure SockaddrIn where
  sAddr : UInt32
  sinPort : UInt16
  deriving DecidableEq

inductive Call
  | socket
  | close (fd : ℤ)
  deriving DecidableEq

/-- The descriptors of the process, what they are bound to, the calls that open and close them,
and the array of the caller. -/
structure Files where
  opened : Finset ℤ
  bound : ℤ → Option SockaddrIn
  calls : List Call
  datafdArr : ℕ → ℤ

/-- The answers of `socket` and `bind`, whatever they depend on. A new descriptor is not one that
is open. -/
structure Os where
  socket : Files → ℤ
  bind : Files → ℤ → SockaddrIn → ℤ
  fresh : ∀ w, 0 ≤ socket w → socket w ∉ w.opened

namespace Files

def setFd (w : Files) (i : ℕ) (fd : ℤ) : Files :=
  { w with datafdArr := Function.update w.datafdArr i fd }

def close (w : Files) (fd : ℤ) : Files :=
  { w with opened := w.opened.erase fd, calls := w.calls ++ [.close fd] }

/-- `socket`, with the answer `fd`. -/
def socket (w : Files) (fd : ℤ) : Files :=
  { w with
    opened := if fd < 0 then w.opened else insert fd w.opened
    bound := if fd < 0 then w.bound else Function.update w.bound fd none
    calls := w.calls ++ [.socket] }

/-- `bind`, with the answer `rc`. -/
def bind (w : Files) (fd : ℤ) (laddr : SockaddrIn) (rc : ℤ) : Files :=
  { w with bound := if rc < 0 then w.bound else Function.update w.bound fd (some laddr) }

/-- The loop at `failed`. -/
def failed : ℕ → Files → Files
  | 0, w => w
  | i + 1, w => failed i ((w.close (w.datafdArr i)).setFd i (-1))

end Files

variable (os : Os) (laddrArr : ℕ → SockaddrIn)

/-- A turn of the loop of `open_data_sockets`, up to its descriptor, or to `failed`. The options
and the buffers of a socket are set with no regard to the outcome. -/
def openOne (laddr : SockaddrIn) (w : Files) : Files × Option ℤ :=
  let fd := os.socket w
  let w := w.socket fd
  if fd < 0 then (w, none)
  else if laddr.sAddr ≠ 0 then
    let rc := os.bind w fd laddr
    let w := w.bind fd laddr rc
    if 0 > rc then (w.close fd, none) else (w, some fd)
  else (w, some fd)

/-- The turns from `i` on, of which there are `n`. -/
def openFrom (i : ℕ) : ℕ → Files → Files × ℤ
  | 0, w => (w, i)
  | n + 1, w =>
    match openOne os (laddrArr i) w with
    | (w, some fd) => openFrom (i + 1) n (w.setFd i fd)
    | (w, none) => (w.failed i, -1)

def openDataSockets (numSks : ℕ) (w : Files) : Files × ℤ := openFrom os laddrArr 0 numSks w

namespace Files

variable {w w₀ : Files} {i : ℕ} {fd : ℤ}

/-- The descriptors in the first `i` places of the array. -/
def stored (w : Files) (i : ℕ) : List ℤ := (List.range i).map w.datafdArr

theorem stored_setFd (w : Files) (i : ℕ) (fd : ℤ) : (w.setFd i fd).stored i = w.stored i := by
  refine List.map_congr_left fun j hj => ?_
  exact Function.update_of_ne (List.mem_range.mp hj).ne _ _

theorem stored_succ (w : Files) (i : ℕ) : w.stored (i + 1) = w.stored i ++ [w.datafdArr i] := by
  simp [stored, List.range_succ]

/-- The cleanup closes what is stored, from the last one to the first, and forgets it. -/
theorem failed_eq (i : ℕ) (w : Files) :
    w.failed i =
      { opened := w.opened \ (w.stored i).toFinset
        bound := w.bound
        calls := w.calls ++ (w.stored i).reverse.map .close
        datafdArr := fun j => if j < i then -1 else w.datafdArr j } := by
  induction i generalizing w with
  | zero => simp [failed, stored]
  | succ i ih =>
    have hstored : ((w.close (w.datafdArr i)).setFd i (-1)).stored i = w.stored i :=
      stored_setFd _ _ _
    rw [failed, ih, hstored, stored_succ]
    simp only [setFd, close, Files.mk.injEq, true_and]
    refine ⟨?_, ?_, ?_⟩
    · ext fd
      simp only [Finset.mem_sdiff, Finset.mem_erase, List.mem_toFinset, List.mem_append,
        List.mem_singleton]
      tauto
    · simp
    · funext j
      rcases lt_trichotomy j i with hj | rfl | hj
      · simp [hj, Nat.lt_succ_of_lt hj]
      · simp
      · rw [if_neg (by omega), if_neg (by omega), Function.update_of_ne hj.ne']

theorem bound_socket {fd' : ℤ} (h : fd' ≠ fd) : (w.socket fd).bound fd' = w.bound fd' := by
  simp only [socket]
  split_ifs
  · rfl
  · exact Function.update_of_ne h _ _

theorem bound_bind {laddr : SockaddrIn} {rc fd' : ℤ} (h : fd' ≠ fd) :
    (w.bind fd laddr rc).bound fd' = w.bound fd' := by
  simp only [bind]
  split_ifs
  · rfl
  · exact Function.update_of_ne h _ _

end Files

variable {os laddrArr} {w w₀ w' : Files} {i n k : ℕ} {fd : ℤ} {laddr : SockaddrIn}

/-- What a socket for an address is bound to. -/
def boundTo (laddr : SockaddrIn) : Option SockaddrIn :=
  if laddr.sAddr ≠ 0 then some laddr else none

/-- A turn that leaves one more descriptor open. -/
structure Opens (laddr : SockaddrIn) (w : Files) (fd : ℤ) (w' : Files) : Prop where
  nonneg : 0 ≤ fd
  new : fd ∉ w.opened
  opened : w'.opened = insert fd w.opened
  bound : w'.bound fd = boundTo laddr
  kept : ∀ fd' ≠ fd, w'.bound fd' = w.bound fd'
  calls : w'.calls = w.calls ++ [.socket]
  datafdArr : w'.datafdArr = w.datafdArr

/-- A turn that leaves no more open than there was. -/
structure Fails (w w' : Files) : Prop where
  opened : w'.opened = w.opened
  kept : ∀ fd ∈ w.opened, w'.bound fd = w.bound fd
  calls : ∃ closed : List ℤ, w'.calls = w.calls ++ .socket :: closed.map .close ∧ closed.Nodup ∧
    ∀ fd ∈ closed, fd ∉ w.opened
  datafdArr : w'.datafdArr = w.datafdArr

theorem openOne_spec (os : Os) (laddr : SockaddrIn) (w : Files) :
    match openOne os laddr w with
    | (w', some fd) => Opens laddr w fd w'
    | (w', none) => Fails w w' := by
  simp only [openOne]
  by_cases hfd : os.socket w < 0
  · rw [if_pos hfd]
    exact ⟨if_pos hfd, fun fd _ => by simp [Files.socket, hfd], ⟨[], rfl, List.nodup_nil, by simp⟩,
      rfl⟩
  have hnew : os.socket w ∉ w.opened := os.fresh w (not_lt.mp hfd)
  rw [if_neg hfd]
  by_cases haddr : laddr.sAddr = 0
  · rw [if_neg (not_not.mpr haddr)]
    exact
      { nonneg := not_lt.mp hfd
        new := hnew
        opened := if_neg hfd
        bound := by simp [Files.socket, hfd, boundTo, haddr]
        kept := fun fd' hne => Files.bound_socket hne
        calls := rfl
        datafdArr := rfl }
  rw [if_pos haddr]
  by_cases hrc : 0 > os.bind (w.socket (os.socket w)) (os.socket w) laddr
  · rw [if_pos hrc]
    refine ⟨?_, ?_, ⟨[os.socket w], ?_, List.nodup_singleton _, by simpa using hnew⟩, rfl⟩
    · simp only [Files.close, Files.bind, Files.socket, if_neg hfd]
      exact Finset.erase_insert hnew
    · intro fd hopen
      have hne : fd ≠ os.socket w := fun he => hnew (he ▸ hopen)
      exact (Files.bound_bind hne).trans (Files.bound_socket hne)
    · simp [Files.close, Files.bind, Files.socket]
  · rw [if_neg hrc]
    exact
      { nonneg := not_lt.mp hfd
        new := hnew
        opened := if_neg hfd
        bound := by simp [Files.bind, hrc, boundTo, haddr]
        kept := fun fd' hne => (Files.bound_bind hne).trans (Files.bound_socket hne)
        calls := rfl
        datafdArr := rfl }

/-- The first `n` places hold new descriptors, each bound to its address where it has one. -/
structure AllOpen (laddrArr : ℕ → SockaddrIn) (n : ℕ) (w w' : Files) : Prop where
  opened : w'.opened = w.opened ∪ (w'.stored n).toFinset
  nodup : (w'.stored n).Nodup
  new : ∀ fd ∈ w'.stored n, 0 ≤ fd ∧ fd ∉ w.opened
  bound : ∀ j < n, w'.bound (w'.datafdArr j) = boundTo (laddrArr j)
  kept : ∀ fd ∈ w.opened, w'.bound fd = w.bound fd
  later : ∀ j, n ≤ j → w'.datafdArr j = w.datafdArr j
  calls : w'.calls = w.calls ++ List.replicate n .socket

/-- The call failed in the turn after the first `k`: nothing is open that was not, the places
filled by then hold -1, and no descriptor was closed twice. -/
structure NoneOpen (k : ℕ) (w w' : Files) : Prop where
  opened : w'.opened = w.opened
  kept : ∀ fd ∈ w.opened, w'.bound fd = w.bound fd
  filled : ∀ j < k, w'.datafdArr j = -1
  later : ∀ j, k ≤ j → w'.datafdArr j = w.datafdArr j
  calls : ∃ closed : List ℤ,
    w'.calls = w.calls ++ List.replicate (k + 1) .socket ++ closed.map .close ∧ closed.Nodup

/-- A turn that succeeds. -/
theorem AllOpen.succ (h : AllOpen laddrArr i w₀ w) (hone : Opens (laddrArr i) w fd w') :
    AllOpen laddrArr (i + 1) w₀ (w'.setFd i fd) := by
  have hstored : (w'.setFd i fd).stored (i + 1) = w.stored i ++ [fd] := by
    rw [Files.stored_succ, Files.stored_setFd]
    simp [Files.stored, Files.setFd, hone.datafdArr]
  have hnew : fd ∉ w₀.opened ∧ fd ∉ w.stored i := by
    have hnot := hone.new
    rw [h.opened, Finset.mem_union, List.mem_toFinset] at hnot
    exact not_or.mp hnot
  have hkept : ∀ fd' ∈ w.opened, (w'.setFd i fd).bound fd' = w.bound fd' := fun fd' hopen =>
    hone.kept fd' fun he => hone.new (he ▸ hopen)
  constructor
  · rw [hstored]
    change w'.opened = _
    rw [hone.opened, h.opened]
    ext fd'
    simp only [Finset.mem_insert, Finset.mem_union, List.mem_toFinset, List.mem_append,
      List.mem_singleton]
    tauto
  · rw [hstored, List.nodup_append]
    refine ⟨h.nodup, List.nodup_singleton _, ?_⟩
    rintro fd' hfd' _ hmem rfl
    exact hnew.2 (List.mem_singleton.mp hmem ▸ hfd')
  · intro fd' hfd'
    rw [hstored, List.mem_append, List.mem_singleton] at hfd'
    rcases hfd' with hfd' | rfl
    · exact h.new fd' hfd'
    · exact ⟨hone.nonneg, hnew.1⟩
  · intro j hj
    rcases Nat.lt_succ_iff_lt_or_eq.mp hj with hlt | rfl
    · have hmem : w.datafdArr j ∈ w.stored i := List.mem_map_of_mem (List.mem_range.mpr hlt)
      have hsame : (w'.setFd i fd).datafdArr j = w.datafdArr j := by
        simp [Files.setFd, hone.datafdArr, hlt.ne]
      rw [hsame, hkept _ (by rw [h.opened]; simp [hmem]), h.bound j hlt]
    · simpa [Files.setFd] using hone.bound
  · intro fd' hopen
    rw [hkept fd' (by rw [h.opened]; simp [hopen]), h.kept fd' hopen]
  · intro j hj
    simp only [Files.setFd]
    rw [Function.update_of_ne (by omega), hone.datafdArr, h.later j (by omega)]
  · change w'.calls = _
    rw [hone.calls, h.calls, List.append_assoc, List.replicate_succ']

/-- A turn that fails, and the cleanup after it. -/
theorem AllOpen.failed (h : AllOpen laddrArr i w₀ w) (hone : Fails w w') :
    NoneOpen i w₀ (w'.failed i) := by
  have hstored : w'.stored i = w.stored i := by rw [Files.stored, hone.datafdArr, Files.stored]
  rw [Files.failed_eq, hstored]
  constructor
  · change w'.opened \ _ = _
    rw [hone.opened, h.opened, Finset.union_sdiff_right, Finset.sdiff_eq_self_iff_disjoint,
      Finset.disjoint_right]
    exact fun fd hfd => (h.new fd (List.mem_toFinset.mp hfd)).2
  · intro fd hopen
    exact (hone.kept fd (by rw [h.opened]; simp [hopen])).trans (h.kept fd hopen)
  · exact fun j hj => if_pos hj
  · intro j hj
    change (if j < i then -1 else w'.datafdArr j) = _
    rw [if_neg (not_lt.mpr hj), hone.datafdArr, h.later j hj]
  · obtain ⟨closed, hcalls, hnodup, hnew⟩ := hone.calls
    refine ⟨closed ++ (w.stored i).reverse, ?_, ?_⟩
    · change w'.calls ++ _ = _
      rw [hcalls, h.calls, List.replicate_succ', List.map_append]
      simp
    · rw [List.nodup_append]
      refine ⟨hnodup, List.nodup_reverse.mpr h.nodup, ?_⟩
      rintro fd hfd _ hmem rfl
      exact hnew fd hfd (by rw [h.opened]; simp [List.mem_reverse.mp hmem])

theorem allOpen_refl (laddrArr : ℕ → SockaddrIn) (w : Files) : AllOpen laddrArr 0 w w := by
  constructor <;> simp [Files.stored]

/-- The turns that are left, from where the first `i` places are filled. -/
theorem openFrom_spec (os : Os) (n : ℕ) (h : AllOpen laddrArr i w₀ w) :
    ((openFrom os laddrArr i n w).2 = (i + n : ℕ) ∧
        AllOpen laddrArr (i + n) w₀ (openFrom os laddrArr i n w).1) ∨
      (openFrom os laddrArr i n w).2 = -1 ∧
        ∃ k < i + n, NoneOpen k w₀ (openFrom os laddrArr i n w).1 := by
  induction n generalizing i w with
  | zero => exact .inl ⟨rfl, h⟩
  | succ n ih =>
    have hspec := openOne_spec os (laddrArr i) w
    rw [openFrom]
    rcases hone : openOne os (laddrArr i) w with ⟨w', _ | fd⟩
    · rw [hone] at hspec
      exact .inr ⟨rfl, i, by omega, h.failed hspec⟩
    · rw [hone] at hspec
      have hnext := ih (h.succ hspec)
      rwa [Nat.succ_add_eq_add_succ] at hnext

/-- All sockets are opened or none. -/
theorem all_or_nothing (os : Os) (laddrArr : ℕ → SockaddrIn) (numSks : ℕ) (w : Files) :
    ((openDataSockets os laddrArr numSks w).2 = numSks ∧
        AllOpen laddrArr numSks w (openDataSockets os laddrArr numSks w).1) ∨
      (openDataSockets os laddrArr numSks w).2 = -1 ∧
        ∃ k < numSks, NoneOpen k w (openDataSockets os laddrArr numSks w).1 := by
  have hspec := openFrom_spec os numSks (allOpen_refl laddrArr w)
  rwa [Nat.zero_add] at hspec

/-- The lowest descriptor that is not open, of 64. -/
def lowestFree (w : Files) : ℤ :=
  (((List.range 64).map Int.ofNat).find? fun fd => fd ∉ w.opened).getD (-1)

/-- `socket` gives the lowest descriptor, and `bind` refuses the reserved ports. -/
def lowestOs : Os where
  socket := lowestFree
  bind _ _ laddr := if laddr.sinPort < 1024 then -1 else 0
  fresh w h := by
    unfold lowestFree at h ⊢
    cases hfind : ((List.range 64).map Int.ofNat).find? fun fd => fd ∉ w.opened with
    | none =>
      rw [hfind] at h
      exact absurd h (by decide)
    | some fd => simpa using List.find?_some hfind

def stdFiles : Files :=
  { opened := {0, 1, 2}
    bound := fun _ => none
    calls := []
    datafdArr := fun _ => 7 }

/-- Three addresses on the loopback, the last of them with a port of its own. -/
def threeAddrs (port : UInt16) (i : ℕ) : SockaddrIn := ⟨16777343, if i = 2 then port else 5001⟩

example : (openDataSockets lowestOs (threeAddrs 80) 3 stdFiles).1.calls =
    [.socket, .socket, .socket, .close 5, .close 4, .close 3] := by
  decide +kernel

theorem all_or_nothing_threeAddrs :
    (∃ k < 3, NoneOpen k stdFiles (openDataSockets lowestOs (threeAddrs 80) 3 stdFiles).1) ∧
      AllOpen (threeAddrs 5002) 3 stdFiles
        (openDataSockets lowestOs (threeAddrs 5002) 3 stdFiles).1 :=
  ⟨((all_or_nothing lowestOs (threeAddrs 80) 3 stdFiles).resolve_left fun h =>
      absurd h.1 (by decide +kernel)).2,
    ((all_or_nothing lowestOs (threeAddrs 5002) 3 stdFiles).resolve_right fun h =>
      absurd h.1 (by decide +kernel)).2⟩

end TcpEyenet.Ttest
