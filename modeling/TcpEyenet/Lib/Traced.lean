import Mathlib

/-! A value together with the observations made on the way to it. -/

/-- The result of a computation and what it reported, in order. -/
@[ext] structure Traced (ω α : Type) where
  val : α
  log : List ω

namespace Traced

variable {ω α β : Type}

instance : Monad (Traced ω) where
  pure a := ⟨a, []⟩
  bind x f := ⟨(f x.val).val, x.log ++ (f x.val).log⟩

/-- Reports one observation. -/
def report (o : ω) : Traced ω Unit := ⟨(), [o]⟩

/-- What was computed, unless it failed. -/
def accept {ε : Type} (x : Traced ω (Except ε α)) : Option (Traced ω α) :=
  match x.val with
  | .ok a => some ⟨a, x.log⟩
  | .error _ => none

@[simp] theorem pure_val (a : α) : (pure a : Traced ω α).val = a := rfl

@[simp] theorem pure_log (a : α) : (pure a : Traced ω α).log = [] := rfl

@[simp] theorem bind_val (x : Traced ω α) (f : α → Traced ω β) :
    (x >>= f).val = (f x.val).val := rfl

@[simp] theorem bind_log (x : Traced ω α) (f : α → Traced ω β) :
    (x >>= f).log = x.log ++ (f x.val).log := rfl

@[simp] theorem report_log (o : ω) : (report o).log = [o] := rfl

@[simp] theorem ite_val (p : Prop) [Decidable p] (x y : Traced ω α) :
    (if p then x else y).val = if p then x.val else y.val := by
  split <;> rfl

@[simp] theorem ite_log (p : Prop) [Decidable p] (x y : Traced ω α) :
    (if p then x else y).log = if p then x.log else y.log := by
  split <;> rfl

theorem accept_eq_some {ε : Type} {x : Traced ω (Except ε α)} {r : Traced ω α} :
    x.accept = some r ↔ x.val = .ok r.val ∧ x.log = r.log := by
  obtain ⟨val, log⟩ := x
  obtain ⟨a, log'⟩ := r
  cases val <;> simp [accept]

/-- Everything reported satisfies `P` and the value satisfies `Q`. -/
def Sat (P : ω → Prop) (Q : α → Prop) (x : Traced ω α) : Prop :=
  (∀ o ∈ x.log, P o) ∧ Q x.val

theorem sat_pure {P : ω → Prop} {Q : α → Prop} {a : α} (h : Q a) :
    Sat P Q (pure a : Traced ω α) :=
  ⟨by simp, h⟩

theorem sat_bind {P : ω → Prop} {Q : α → Prop} {R : β → Prop} {x : Traced ω α}
    {f : α → Traced ω β} (hx : Sat P Q x) (hf : ∀ a, Q a → Sat P R (f a)) :
    Sat P R (x >>= f) := by
  obtain ⟨hl, hv⟩ := hf x.val hx.2
  refine ⟨?_, hv⟩
  intro o ho
  rcases List.mem_append.mp ho with ho | ho
  · exact hx.1 o ho
  · exact hl o ho

/-- What is known of the value besides can be carried along. -/
theorem Sat.and {P : ω → Prop} {Q R : α → Prop} {x : Traced ω α} (h : Sat P Q x)
    (hR : R x.val) : Sat P (fun a => Q a ∧ R a) x :=
  ⟨h.1, h.2, hR⟩

theorem Sat.mono {P : ω → Prop} {Q R : α → Prop} {x : Traced ω α} (h : Sat P Q x)
    (hQ : ∀ a, Q a → R a) : Sat P R x :=
  ⟨h.1, hQ _ h.2⟩

end Traced
