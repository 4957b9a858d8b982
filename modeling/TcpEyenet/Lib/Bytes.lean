import Mathlib

/-! Little-endian fields and byte buffers. -/

namespace Bytes

/-- The low `n` bytes of a number, the least significant one first. -/
def leBytes : ℕ → ℕ → List UInt8
  | 0, _ => []
  | n + 1, v => UInt8.ofNat v :: leBytes n (v / 256)

def leNat : List UInt8 → ℕ
  | [] => 0
  | b :: bs => b.toNat + 256 * leNat bs

@[simp] theorem length_leBytes (n v : ℕ) : (leBytes n v).length = n := by
  induction n generalizing v with
  | zero => rfl
  | succ n ih => simp [leBytes, ih]

theorem leNat_leBytes (n v : ℕ) : leNat (leBytes n v) = v % 256 ^ n := by
  induction n generalizing v with
  | zero => simp [leBytes, leNat, Nat.mod_one]
  | succ n ih =>
    have hlow : (UInt8.ofNat v).toNat = v % 256 := by simp
    rw [leBytes, leNat, ih, hlow, pow_succ', Nat.mod_mul]

theorem leNat_leBytes_of_lt {n v : ℕ} (h : v < 256 ^ n) : leNat (leBytes n v) = v := by
  rw [leNat_leBytes, Nat.mod_eq_of_lt h]

/-- The number in the `n` bytes from offset `off` on. -/
def field (bs : List UInt8) (off n : ℕ) : ℕ := leNat ((bs.drop off).take n)

theorem field_take {bs : List UInt8} {off n m : ℕ} (h : off + n ≤ m) :
    field (bs.take m) off n = field bs off n := by
  rw [field, List.drop_take, List.take_take, min_eq_left (by omega), field]

end Bytes

/-- The bytes from the start of an array on. -/
def Buf := ℕ → UInt8

namespace Buf

variable {b : Buf} {off n o : ℕ} {bs : List UInt8}

def load (b : Buf) (off n : ℕ) : List UInt8 := (List.range n).map fun i => b (off + i)

def store (b : Buf) (off : ℕ) (bs : List UInt8) : Buf := fun i =>
  if i < off then b i else bs.getD (i - off) (b i)

@[simp] theorem length_load : (b.load off n).length = n := by simp [load]

theorem getElem_load {i : ℕ} (h : i < (b.load off n).length) :
    (b.load off n)[i] = b (off + i) := by
  simp [load]

theorem store_of_lt {i : ℕ} (h : i < off) : b.store off bs i = b i := if_pos h

theorem store_of_mem {i : ℕ} (h : i < bs.length) : b.store off bs (off + i) = bs[i] := by
  simp [store, h]

/-- A load from inside what was stored last reads it back. -/
theorem load_store (h : n ≤ bs.length) : (b.store off bs).load off n = bs.take n := by
  apply List.ext_getElem (by simp [h])
  intro i hi _
  have hlen : i < bs.length := by
    rw [length_load] at hi
    omega
  rw [getElem_load, store_of_mem hlen, List.getElem_take]

theorem load_store_of_le (h : o + n ≤ off) : (b.store off bs).load o n = b.load o n := by
  apply List.ext_getElem (by simp)
  intro i hi _
  rw [length_load] at hi
  rw [getElem_load, getElem_load, store_of_lt (by omega)]

theorem load_store_of_ge (h : off + bs.length ≤ o) : (b.store off bs).load o n = b.load o n := by
  apply List.ext_getElem (by simp)
  intro i hi _
  have hoff : ¬ o + i < off := by omega
  rw [getElem_load, getElem_load, store, if_neg hoff, List.getD_eq_default _ _ (by omega)]

/-- Two stores side by side are one. -/
theorem store_append (xs ys : List UInt8) :
    (b.store off xs).store (off + xs.length) ys = b.store off (xs ++ ys) := by
  funext i
  by_cases hlt : i < off + xs.length
  · rw [store_of_lt hlt]
    by_cases hoff : i < off
    · rw [store_of_lt hoff, store_of_lt hoff]
    · have hin : i - off < xs.length := by omega
      simp only [store, if_neg hoff]
      rw [List.getD_append _ _ _ _ hin]
  · have hoff : ¬ i < off := by omega
    have hsub : i - off - xs.length = i - (off + xs.length) := by omega
    simp only [store, if_neg hlt, if_neg hoff]
    rw [List.getD_append_right _ _ _ _ (by omega), hsub]
    congr 1
    rw [List.getD_eq_default _ _ (by omega)]

theorem load_append (m : ℕ) : b.load off (n + m) = b.load off n ++ b.load (off + n) m := by
  simp [load, List.range_add, Nat.add_assoc]

/-- A part of what is loaded can be loaded by itself. -/
theorem take_drop_load {m : ℕ} (h : o + n ≤ m) :
    ((b.load off m).drop o).take n = b.load (off + o) n := by
  apply List.ext_getElem
  · simp only [List.length_take, List.length_drop, length_load]
    omega
  · intro i hi _
    rw [List.getElem_take, List.getElem_drop, getElem_load, getElem_load, Nat.add_assoc]

end Buf
