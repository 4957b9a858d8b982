import TcpEyenet.Lib.Machine

/-! Runs of one machine seen as runs of another, and machines that cannot be told apart. -/
namespace Machine

variable {σ τ ι κ ω ο β : Type} {M : Machine σ ι ω} {N : Machine τ κ ο} {s t : σ} {u : τ}
  {ts : List (Transition σ ι ω)}

theorem exec_get {is : List ι} (h : (M.exec s is).isSome) :
    M.exec s is = some (((M.exec s is).get h).1, ((M.exec s is).get h).2) :=
  (Option.some_get h).symm

/-- A part of the state goes through a run of its own: a step either moves the part by one of its
steps or leaves it alone. -/
theorem Run.project {f : σ → τ} {g : Transition σ ι ω → Option (Transition τ κ ο)}
    (h : Run M s ts t)
    (hmove : ∀ tr tr', M.Takes tr → g tr = some tr' →
      N.Takes tr' ∧ tr'.src = f tr.src ∧ tr'.dst = f tr.dst)
    (hstay : ∀ tr, M.Takes tr → g tr = none → f tr.dst = f tr.src) :
    Run N (f s) (ts.filterMap g) (f t) := by
  induction h with
  | refl => exact .refl
  | @snoc ts tr hr ht ih =>
    rw [List.filterMap_append]
    cases hg : g tr with
    | none =>
      rw [hstay tr ht hg]
      simpa [hg] using ih
    | some tr' =>
      obtain ⟨ht', hsrc, hdst⟩ := hmove tr tr' ht hg
      rw [← hsrc] at ih
      rw [← hdst]
      simpa [hg] using ih.snoc ht'

/-- Along a run another machine can be kept in a relation to it that looks at both histories. -/
theorem Run.follow {R : List (Transition σ ι ω) → σ → List (Transition τ κ ο) → τ → Prop}
    {C : List (Transition σ ι ω) → Transition σ ι ω → Prop} (h : Run M s ts t)
    (hC : ∀ pre tr post, ts = pre ++ tr :: post → C pre tr) (h₀ : R [] s [] u)
    (hstep : ∀ pre tr us v, M.Takes tr → C pre tr → R pre tr.src us v →
      ∃ us' v', Run N v us' v' ∧ R (pre ++ [tr]) tr.dst (us ++ us') v') :
    ∃ us v, Run N u us v ∧ R ts t us v := by
  induction h with
  | refl => exact ⟨[], u, .refl, h₀⟩
  | @snoc ts tr hr ht ih =>
    obtain ⟨us, v, hus, hR⟩ := ih fun pre tr' post he => hC pre tr' (post ++ [tr]) (by simp [he])
    obtain ⟨us', v', hus', hR'⟩ := hstep ts tr us v ht (hC ts tr [] rfl) hR
    exact ⟨us ++ us', v', hus.append hus', hR'⟩

/-- Two machines with the same inputs, and a relation that says of them and of the inputs to come
that the next one is refused by both or shows the same on both sides. -/
def Alike (M : Machine σ ι ω) (N : Machine τ ι ο) (view : ω → Option β) (view' : ο → Option β)
    (R : List ι → σ → τ → Prop) : Prop :=
  ∀ i is s t, R (i :: is) s t →
    Option.Rel (fun a b => R is a.val b.val ∧ a.log.filterMap view = b.log.filterMap view')
      (M.step s i) (N.step t i)

variable {N : Machine τ ι ο} {view : ω → Option β} {view' : ο → Option β}
  {R : List ι → σ → τ → Prop} {is : List ι}

theorem Alike.shown_eq (h : M.Alike N view view' R) (hR : R is s u) :
    M.shown view s is = N.shown view' u is := by
  induction is generalizing s u with
  | nil => rfl
  | cons i is ih =>
    have hi := h i is s u hR
    simp only [shown_cons]
    generalize M.step s i = x at hi ⊢
    generalize N.step u i = y at hi ⊢
    cases hi with
    | none => rfl
    | some hab => simp [ih hab.1, hab.2]

end Machine
