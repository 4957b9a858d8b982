import TcpEyenet.Lib.Traced

/-! Iterators into an ordered map, and loops whose bodies erase entries of the map they go over. -/

/-- Where an iterator stands: at an entry, where one was that has been erased, or past the last. -/
inductive Cursor (κ : Type)
  | entry (k : κ)
  | erased (k : κ)
  | past
  deriving DecidableEq

/-- What the body of a loop does with an entry. It goes on after it has erased some entries. -/
inductive Pass (κ σ ε : Type)
  | leave (s : σ)
  | exit (x : ε)
  | on (s : σ) (erased : List κ)

/-- How a loop ends. It strays where it steps on from an erased entry, which has no meaning. -/
inductive Ending (σ ε : Type)
  | finished (s : σ)
  | exited (x : ε)
  | strayed
  | outOfFuel

namespace Ending

variable {σ τ ε : Type}

def map (f : σ → τ) : Ending σ ε → Ending τ ε
  | finished s => .finished (f s)
  | exited x => .exited x
  | strayed => .strayed
  | outOfFuel => .outOfFuel

def isFinished : Ending σ ε → Bool
  | finished _ => true
  | _ => false

@[simp] theorem isFinished_map (f : σ → τ) (x : Ending σ ε) :
    (x.map f).isFinished = x.isFinished := by
  cases x <;> rfl

end Ending

namespace Cursor

variable {κ ν σ ε : Type} [LinearOrder κ] {f : σ → Std.TreeMap κ ν}
  {body : κ → ν → σ → Pass κ σ ε} {k : κ} {v : ν} {s s' : σ} {ks : List κ} {n : ℕ} {c : Cursor κ}

/-- `begin()`. -/
def start (m : Std.TreeMap κ ν) : Cursor κ := m.keys.head?.elim past entry

/-- Erasing an entry invalidates the iterators at that entry, and no others. -/
def erase : Cursor κ → κ → Cursor κ
  | entry j, k => if j = k then erased j else entry j
  | c, _ => c

/-- `operator++`, from an entry that is still there. -/
def next (m : Std.TreeMap κ ν) : Cursor κ → Option (Cursor κ)
  | entry k => some ((m.keys.find? fun j => k < j).elim past entry)
  | _ => none

/-- A range-based `for`, which logs the keys of the entries it visits. -/
def rangeFor (f : σ → Std.TreeMap κ ν) (body : κ → ν → σ → Pass κ σ ε) :
    ℕ → Cursor κ → σ → Traced κ (Ending σ ε)
  | 0, _, _ => pure .outOfFuel
  | _ + 1, past, s => pure (.finished s)
  | _ + 1, erased _, _ => pure .strayed
  | n + 1, entry k, s =>
    match (f s)[k]? with
    | none => pure .strayed
    | some v => do
      Traced.report k
      match body k v s with
      | .leave s' => pure (.finished s')
      | .exit x => pure (.exited x)
      | .on s' ks =>
        match (ks.foldl erase (entry k)).next (f s') with
        | none => pure .strayed
        | some c => rangeFor f body n c s'

theorem foldl_erase_erased (ks : List κ) (k : κ) : ks.foldl erase (erased k) = erased k := by
  induction ks with
  | nil => rfl
  | cons j ks ih => exact ih

/-- Whatever else is erased, an iterator at an erased entry is invalid. -/
theorem foldl_erase_of_mem (h : k ∈ ks) : ks.foldl erase (entry k) = erased k := by
  induction ks with
  | nil => simp at h
  | cons j ks ih =>
    rw [List.foldl_cons, erase]
    split_ifs with hj
    · exact foldl_erase_erased ks k
    · exact ih ((List.mem_cons.mp h).resolve_left hj)

/-- A body that erases the entry it was given and goes on makes the loop stray. -/
theorem rangeFor_strays (hv : (f s)[k]? = some v) (hb : body k v s = .on s' ks) (hk : k ∈ ks) :
    rangeFor f body (n + 1) (entry k) s = ⟨.strayed, [k]⟩ := by
  have hnext : (ks.foldl erase (entry k)).next (f s') = none := by
    rw [foldl_erase_of_mem hk]
    rfl
  simp only [rangeFor, hv, hb, hnext]
  rfl

theorem rangeFor_exits {x : ε} (hv : (f s)[k]? = some v) (hb : body k v s = .exit x) :
    rangeFor f body (n + 1) (entry k) s = ⟨.exited x, [k]⟩ := by
  simp only [rangeFor, hv, hb]
  rfl

end Cursor
