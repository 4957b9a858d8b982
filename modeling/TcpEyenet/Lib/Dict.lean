import Mathlib

/-! Dictionaries, whose entries stand in the order in which their keys came. -/

structure Dict (κ ν : Type) where
  entries : List (κ × ν)
  nodup : (entries.map Prod.fst).Nodup

namespace Dict

variable {κ ν τ M : Type} {es : List (κ × ν)} {d : Dict κ ν} {k k' : κ} {v : ν}

def empty : Dict κ ν := ⟨[], List.nodup_nil⟩

def keys (d : Dict κ ν) : List κ := d.entries.map Prod.fst

def values (d : Dict κ ν) : List ν := d.entries.map Prod.snd

def size (d : Dict κ ν) : ℕ := d.entries.length

def map (f : ν → τ) (d : Dict κ ν) : Dict κ τ :=
  ⟨d.entries.map fun e => (e.1, f e.2), by simpa [Function.comp_def] using d.nodup⟩

theorem eq_empty (h : d.size = 0) : d = empty := by
  obtain ⟨es, hnodup⟩ := d
  obtain rfl : es = [] := List.length_eq_zero_iff.mp h
  rfl

/-- What the entries add up to. -/
def sum [AddCommMonoid M] (f : κ → ν → M) (d : Dict κ ν) : M :=
  (d.entries.map fun e => f e.1 e.2).sum

section Sum

variable [AddCommMonoid M]

@[simp] theorem sum_empty (f : κ → ν → M) : (empty : Dict κ ν).sum f = 0 := rfl

theorem sum_map (f : κ → τ → M) (g : ν → τ) (d : Dict κ ν) :
    (d.map g).sum f = d.sum fun k v => f k (g v) := by
  simp [sum, map, Function.comp_def]

theorem sum_congr {f g : κ → ν → M} (h : ∀ k ∈ d.keys, ∀ v, f k v = g k v) :
    d.sum f = d.sum g := by
  refine congrArg List.sum (List.map_congr_left fun e he => ?_)
  exact h e.1 (List.mem_map_of_mem he) e.2

end Sum

variable [DecidableEq κ]

/-- The entry of a key changes where it stands, and a new one comes last. -/
def upsert (k : κ) (v : ν) : List (κ × ν) → List (κ × ν)
  | [] => [(k, v)]
  | e :: es => if e.1 = k then (k, v) :: es else e :: upsert k v es

def lookup (k : κ) : List (κ × ν) → Option ν
  | [] => none
  | e :: es => if e.1 = k then some e.2 else lookup k es

theorem upsert_keys (k : κ) (v : ν) (es : List (κ × ν)) :
    (upsert k v es).map Prod.fst =
      if k ∈ es.map Prod.fst then es.map Prod.fst else es.map Prod.fst ++ [k] := by
  induction es with
  | nil => rfl
  | cons e es ih =>
    by_cases he : e.1 = k
    · simp [upsert, he]
    · have hne : k ≠ e.1 := Ne.symm he
      rw [upsert, if_neg he, List.map_cons, ih, List.map_cons]
      by_cases hk : k ∈ es.map Prod.fst
      · rw [if_pos hk, if_pos (List.mem_cons_of_mem _ hk)]
      · rw [if_neg hk, if_neg (by simp only [List.mem_cons, hne, hk, or_self, not_false_eq_true])]
        rfl

theorem upsert_nodup (k : κ) (v : ν) (h : (es.map Prod.fst).Nodup) :
    ((upsert k v es).map Prod.fst).Nodup := by
  rw [upsert_keys]
  split_ifs with hk
  · exact h
  · rw [List.nodup_append]
    refine ⟨h, List.nodup_singleton k, ?_⟩
    rintro k' hk' _ hmem rfl
    exact hk (List.mem_singleton.mp hmem ▸ hk')

def get? (d : Dict κ ν) (k : κ) : Option ν := lookup k d.entries

def set (d : Dict κ ν) (k : κ) (v : ν) : Dict κ ν :=
  ⟨upsert k v d.entries, upsert_nodup k v d.nodup⟩

theorem mem_keys_set : k' ∈ (d.set k v).keys ↔ k' = k ∨ k' ∈ d.keys := by
  simp only [keys, set, upsert_keys]
  split_ifs with hk
  · constructor
    · exact .inr
    · rintro (rfl | hk')
      · exact hk
      · exact hk'
  · rw [List.mem_append, List.mem_singleton, or_comm]

theorem get?_eq_none (h : k ∉ d.keys) : d.get? k = none := by
  obtain ⟨es, hnodup⟩ := d
  simp only [keys, get?] at h ⊢
  clear hnodup
  induction es with
  | nil => rfl
  | cons e es ih =>
    rw [List.map_cons, List.mem_cons, not_or] at h
    rw [lookup, if_neg (Ne.symm h.1), ih h.2]

theorem mem_keys_iff : k ∈ d.keys ↔ (d.get? k).isSome := by
  obtain ⟨es, hnodup⟩ := d
  simp only [keys, get?]
  clear hnodup
  induction es with
  | nil => simp [lookup]
  | cons e es ih =>
    rw [List.map_cons, List.mem_cons, lookup, ih]
    split_ifs with he
    · simp [he]
    · simp [Ne.symm he]

theorem get?_set (d : Dict κ ν) (k : κ) (v : ν) (k' : κ) :
    (d.set k v).get? k' = if k' = k then some v else d.get? k' := by
  obtain ⟨es, hnodup⟩ := d
  simp only [set, get?]
  clear hnodup
  induction es with
  | nil =>
    rw [upsert, lookup, lookup]
    exact if_congr eq_comm rfl rfl
  | cons e es ih =>
    rw [upsert]
    by_cases he : e.1 = k
    · rw [if_pos he, lookup, lookup, he]
      by_cases hk : k' = k
      · rw [if_pos hk, if_pos hk.symm]
      · rw [if_neg hk, if_neg (Ne.symm hk), if_neg (Ne.symm hk)]
    · rw [if_neg he, lookup, lookup, ih]
      by_cases hk : e.1 = k'
      · rw [if_pos hk, if_pos hk, if_neg (hk ▸ he)]
      · rw [if_neg hk, if_neg hk]

theorem get?_map (f : ν → τ) (d : Dict κ ν) (k : κ) : (d.map f).get? k = (d.get? k).map f := by
  obtain ⟨es, hnodup⟩ := d
  simp only [map, get?]
  clear hnodup
  induction es with
  | nil => rfl
  | cons e es ih =>
    rw [List.map_cons, lookup, lookup, ih]
    split_ifs <;> rfl

/-- The values are those found under the keys. -/
theorem values_eq (d : Dict κ ν) : d.values.map some = d.keys.map d.get? := by
  obtain ⟨es, hnodup⟩ := d
  simp only [values, keys, List.map_map]
  refine List.map_congr_left fun e he => ?_
  simp only [Function.comp_apply, get?]
  induction es with
  | nil => exact absurd he List.not_mem_nil
  | cons e' es ih =>
    obtain ⟨hnew, hnodup⟩ := List.nodup_cons.mp hnodup
    rw [lookup]
    rcases List.mem_cons.mp he with rfl | he
    · rw [if_pos rfl]
    · have hne : e'.1 ≠ e.1 := fun heq => hnew (heq ▸ List.mem_map_of_mem he)
      rw [if_neg hne]
      exact ih hnodup he

/-- A new value takes the place of the old one in the sum. -/
theorem sum_set [AddCommMonoid M] (f : κ → ν → M) (d : Dict κ ν) (k : κ) (v : ν) :
    (d.set k v).sum f + ((d.get? k).map (f k)).getD 0 = d.sum f + f k v := by
  obtain ⟨es, hnodup⟩ := d
  simp only [sum, set, get?]
  clear hnodup
  induction es with
  | nil => simp [upsert, lookup]
  | cons e es ih =>
    by_cases he : e.1 = k
    · subst he
      simp only [upsert, lookup, if_true, List.map_cons, List.sum_cons, Option.map_some,
        Option.getD_some]
      abel
    · simp only [upsert, lookup, if_neg he, List.map_cons, List.sum_cons]
      rw [add_assoc, ih, add_assoc]

theorem sum_set_of_notMem [AddCommMonoid M] (f : κ → ν → M) (h : k ∉ d.keys) (v : ν) :
    (d.set k v).sum f = d.sum f + f k v := by
  have hset := sum_set f d k v
  rwa [get?_eq_none h, Option.map_none, Option.getD_none, add_zero] at hset

end Dict
