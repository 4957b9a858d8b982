import TcpEyenet.Lib.Traced

/-! Machines driven from outside, their runs, and pairs of runs kept in step. -/

/-- A step answers an input with a next state and what it reported, or refuses it. -/
structure Machine (σ ι ω : Type) where
  step : σ → ι → Option (Traced ω σ)

/-- One step taken, with everything there is to say about it. -/
structure Transition (σ ι ω : Type) where
  src : σ
  input : ι
  out : List ω
  dst : σ

namespace Machine

variable {σ ι ω β : Type} {M : Machine σ ι ω} {s t u : σ}
  {ts ts' pre post : List (Transition σ ι ω)} {tr : Transition σ ι ω}

def Takes (M : Machine σ ι ω) (tr : Transition σ ι ω) : Prop :=
  M.step tr.src tr.input = some ⟨tr.dst, tr.out⟩

inductive Run (M : Machine σ ι ω) (s : σ) : List (Transition σ ι ω) → σ → Prop
  | refl : Run M s [] s
  | snoc {ts : List (Transition σ ι ω)} {tr : Transition σ ι ω} :
      Run M s ts tr.src → M.Takes tr → Run M s (ts ++ [tr]) tr.dst

/-- The transitions and the state reached when the inputs are fed in turn. -/
def exec (M : Machine σ ι ω) (s : σ) : List ι → Option (List (Transition σ ι ω) × σ)
  | [] => some ([], s)
  | i :: is =>
    match M.step s i with
    | none => none
    | some r => (M.exec r.val is).map fun p => (⟨s, i, r.log, r.val⟩ :: p.1, p.2)

/-- What `f` reads before each input and at the end, which is `none` if an input is refused. -/
def observe (M : Machine σ ι ω) (f : σ → β) (s : σ) : List ι → List (Option β)
  | [] => [some (f s)]
  | i :: is =>
    some (f s) ::
      match M.step s i with
      | none => [none]
      | some r => M.observe f r.val is

theorem Run.append (h₁ : Run M s ts t) (h₂ : Run M t ts' u) : Run M s (ts ++ ts') u := by
  induction h₂ with
  | refl => simpa using h₁
  | snoc _ ht ih =>
    rw [← List.append_assoc]
    exact .snoc ih ht

theorem Run.cons (ht : M.Takes tr) (h : Run M tr.dst ts t) : Run M tr.src (tr :: ts) t :=
  Run.append (.snoc .refl ht) h

theorem exec_run {is : List ι} (h : M.exec s is = some (ts, t)) : Run M s ts t := by
  induction is generalizing s ts with
  | nil =>
    obtain ⟨rfl, rfl⟩ : [] = ts ∧ s = t := by simpa [exec] using h
    exact .refl
  | cons i is ih =>
    simp only [exec] at h
    split at h
    · simp at h
    · rename_i r hr
      obtain ⟨⟨ts', t'⟩, he, hp⟩ := Option.map_eq_some_iff.mp h
      obtain ⟨rfl, rfl⟩ := Prod.mk.inj hp
      have ht : M.Takes ⟨s, i, r.log, r.val⟩ := hr
      exact Run.cons ht (ih he)

theorem exec_get_run {is : List ι} (h : (M.exec s is).isSome) :
    Run M s ((M.exec s is).get h).1 ((M.exec s is).get h).2 :=
  exec_run (Option.some_get h).symm

theorem exec_cons {i : ι} {is : List ι} {r : Traced ω σ} (h : M.step s i = some r)
    (he : M.exec r.val is = some (ts, t)) :
    M.exec s (i :: is) = some (⟨s, i, r.log, r.val⟩ :: ts, t) := by
  simp [exec, h, he]

theorem exec_length {is : List ι} (h : M.exec s is = some (ts, t)) : ts.length = is.length := by
  induction is generalizing s ts with
  | nil => simp_all [exec]
  | cons i is ih =>
    simp only [exec] at h
    split at h
    · simp at h
    · obtain ⟨⟨ts', t'⟩, he, hp⟩ := Option.map_eq_some_iff.mp h
      obtain ⟨rfl, rfl⟩ := Prod.mk.inj hp
      simp [ih he]

/-- An input whose steps take a measure down is refused in the end. What all these steps extend
holds there. -/
theorem exhaust {i : ι} {I : List (Transition σ ι ω) → σ → Prop} {μ : σ → ℕ}
    (hstep : ∀ ts s r, I ts s → M.step s i = some r →
      I (ts ++ [⟨s, i, r.log, r.val⟩]) r.val ∧ μ r.val < μ s) (h₀ : I [] s) :
    ∃ n ≤ μ s, ∃ ts t, M.exec s (List.replicate n i) = some (ts, t) ∧ I ts t ∧
      M.step t i = none := by
  suffices hpre : ∀ m s pre, μ s = m → I pre s → ∃ n ≤ m, ∃ ts t,
      M.exec s (List.replicate n i) = some (ts, t) ∧ I (pre ++ ts) t ∧ M.step t i = none from
    hpre (μ s) s [] rfl h₀
  intro m
  induction m using Nat.strong_induction_on with
  | _ m ih =>
    intro s pre hm hpre
    cases hr : M.step s i with
    | none => exact ⟨0, m.zero_le, [], s, rfl, by simpa using hpre, hr⟩
    | some r =>
      obtain ⟨hnext, hlt⟩ := hstep pre s r hpre hr
      obtain ⟨n, hn, ts, t, he, hI, hend⟩ := ih (μ r.val) (hm ▸ hlt) r.val _ rfl hnext
      exact ⟨n + 1, by omega, _, t, exec_cons hr he, by simpa using hI, hend⟩

/-- A run passes through the source of each of its transitions. -/
theorem Run.split (h : Run M s ts t) (he : ts = pre ++ tr :: post) :
    Run M s pre tr.src ∧ M.Takes tr := by
  induction h generalizing post with
  | refl => simp at he
  | @snoc ts last hr ht ih =>
    rcases List.eq_nil_or_concat post with rfl | ⟨post, x, rfl⟩
    · obtain ⟨rfl, hlast⟩ := List.append_inj' he rfl
      obtain rfl : last = tr := by simpa using hlast
      exact ⟨hr, ht⟩
    · refine ih (?_ : ts = pre ++ tr :: post)
      have hcat : ts ++ [last] = (pre ++ tr :: post) ++ [x] := by simpa using he
      exact (List.append_inj' hcat rfl).1

theorem Run.takes (h : Run M s ts t) (hm : tr ∈ ts) : M.Takes tr := by
  obtain ⟨pre, post, he⟩ := List.append_of_mem hm
  exact (h.split he).2

/-- A fact about the history that every step of the run extends, under a condition on the step
and on what came before it, holds of the whole history. -/
theorem Run.along {I : List (Transition σ ι ω) → σ → Prop}
    {C : List (Transition σ ι ω) → Transition σ ι ω → Prop} (h : Run M s ts t)
    (hC : ∀ pre tr post, ts = pre ++ tr :: post → C pre tr) (h₀ : I [] s)
    (hstep : ∀ pre tr, Run M s pre tr.src → M.Takes tr → C pre tr → I pre tr.src →
      I (pre ++ [tr]) tr.dst) : I ts t := by
  induction h with
  | refl => exact h₀
  | @snoc ts tr hr ht ih =>
    have hpre : I ts tr.src := ih fun pre tr' post he => hC pre tr' (post ++ [tr]) (by simp [he])
    exact hstep ts tr hr ht (hC ts tr [] rfl) hpre

/-- The same for a fact that any step extends. -/
theorem Run.chronicle {I : List (Transition σ ι ω) → σ → Prop}
    {C : List (Transition σ ι ω) → Transition σ ι ω → Prop} (h : Run M s ts t)
    (hC : ∀ pre tr post, ts = pre ++ tr :: post → C pre tr) (h₀ : I [] s)
    (hstep : ∀ pre tr, M.Takes tr → C pre tr → I pre tr.src → I (pre ++ [tr]) tr.dst) : I ts t :=
  h.along hC h₀ fun pre tr _ => hstep pre tr

/-- The same where the condition is on the step alone. -/
theorem Run.history {I : List (Transition σ ι ω) → σ → Prop} {C : Transition σ ι ω → Prop}
    (h : Run M s ts t) (hC : ∀ tr ∈ ts, C tr) (h₀ : I [] s)
    (hstep : ∀ ts tr, M.Takes tr → C tr → I ts tr.src → I (ts ++ [tr]) tr.dst) : I ts t :=
  h.chronicle (C := fun _ => C) (fun pre tr post he => hC tr (by simp [he])) h₀ hstep

theorem Run.invariant {I : σ → Prop} {C : Transition σ ι ω → Prop} (h : Run M s ts t)
    (hC : ∀ tr ∈ ts, C tr) (h₀ : I s)
    (hstep : ∀ tr, M.Takes tr → C tr → I tr.src → I tr.dst) : I t :=
  h.history (I := fun _ => I) hC h₀ fun _ tr => hstep tr

/-- On the inputs in `P`, related states refuse the same ones, report the same through `view`
and stay related. -/
def Lockstep (M : Machine σ ι ω) (P : ι → Prop) (view : ω → Option β) (R : σ → σ → Prop) : Prop :=
  ∀ s t i, P i → R s t →
    Option.Rel (fun a b => R a.val b.val ∧ a.log.filterMap view = b.log.filterMap view)
      (M.step s i) (M.step t i)

/-- The part of a run's reports that `view` shows, unless an input is refused. -/
def shown (M : Machine σ ι ω) (view : ω → Option β) (s : σ) (is : List ι) : Option (List β) :=
  (M.exec s is).map fun p => p.1.flatMap fun tr => tr.out.filterMap view

theorem shown_cons (view : ω → Option β) (i : ι) (is : List ι) :
    M.shown view s (i :: is) = (M.step s i).bind fun r =>
      (M.shown view r.val is).map fun shown => r.log.filterMap view ++ shown := by
  simp only [shown, exec]
  cases M.step s i with
  | none => rfl
  | some r => simp [Function.comp_def]

/-- The state the inputs lead to, unless one is refused. -/
def final (M : Machine σ ι ω) (s : σ) : List ι → Option σ
  | [] => some s
  | i :: is => (M.step s i).bind fun r => M.final r.val is

theorem final_cons (i : ι) (is : List ι) :
    M.final s (i :: is) = (M.step s i).bind fun r => M.final r.val is := rfl

theorem final_append (is js : List ι) :
    M.final s (is ++ js) = (M.final s is).bind fun t => M.final t js := by
  induction is generalizing s with
  | nil => rfl
  | cons i is ih =>
    simp only [List.cons_append, final_cons, ih]
    cases M.step s i <;> rfl

theorem isSome_shown (view : ω → Option β) (is : List ι) :
    (M.shown view s is).isSome = (M.final s is).isSome := by
  induction is generalizing s with
  | nil => rfl
  | cons i is ih =>
    rw [shown_cons, final_cons]
    cases M.step s i with
    | none => rfl
    | some r => simpa using ih

variable {P : ι → Prop} {view : ω → Option β} {R : σ → σ → Prop} {is : List ι}

theorem Lockstep.shown_eq (h : M.Lockstep P view R) (his : ∀ i ∈ is, P i) (hR : R s t) :
    M.shown view s is = M.shown view t is := by
  induction is generalizing s t with
  | nil => rfl
  | cons i is ih =>
    have hi := h s t i (his i (by simp)) hR
    simp only [shown_cons]
    generalize M.step s i = x at hi ⊢
    generalize M.step t i = y at hi ⊢
    cases hi with
    | none => rfl
    | some hab => simp [ih (fun i hi => his i (by simp [hi])) hab.1, hab.2]

theorem Lockstep.observe_eq {γ : Type} {f : σ → γ} (h : M.Lockstep P view R)
    (hf : ∀ s t, R s t → f s = f t) (his : ∀ i ∈ is, P i) (hR : R s t) :
    M.observe f s is = M.observe f t is := by
  induction is generalizing s t with
  | nil => simp only [observe, hf s t hR]
  | cons i is ih =>
    have hi := h s t i (his i (by simp)) hR
    simp only [observe, hf s t hR]
    generalize M.step s i = x at hi ⊢
    generalize M.step t i = y at hi ⊢
    cases hi with
    | none => rfl
    | some hab => simp only [ih (fun i hi => his i (by simp [hi])) hab.1]

end Machine
