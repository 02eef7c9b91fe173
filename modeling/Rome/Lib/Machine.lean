import Mathlib

/-!
# Runs of a machine

A machine takes an event in a state, or cannot. A run is a list of events taken one after the
other; what each step that meets a condition keeps, every run whose steps meet it keeps.
-/

namespace Machine

variable {σ ε : Type*} (step : σ → ε → Option σ)

/-- The state a list of events leads to, if each can be taken where it is met. -/
def run : σ → List ε → Option σ
  | s, [] => some s
  | s, e :: es => (step s e).bind fun s' => run s' es

/-- Each event of the list meets `ok` in the state it is taken in. -/
def Meets (ok : σ → ε → Prop) : σ → List ε → Prop
  | _, [] => True
  | s, e :: es => ok s e ∧ ∀ s', step s e = some s' → Meets ok s' es

instance decidableMeets (ok : σ → ε → Prop) [∀ s e, Decidable (ok s e)] :
    (s : σ) → (es : List ε) → Decidable (Meets step ok s es)
  | _, [] => .isTrue trivial
  | s, e :: es =>
    match h : step s e with
    | none => decidable_of_iff (ok s e) ⟨fun h' => ⟨h', fun s' hs => by simp [h] at hs⟩, And.left⟩
    | some s₁ =>
      have := decidableMeets ok s₁ es
      decidable_of_iff (ok s e ∧ Meets step ok s₁ es)
        ⟨fun h' => ⟨h'.1, fun s' hs => by
          rw [h, Option.some.injEq] at hs
          exact hs ▸ h'.2⟩, fun h' => ⟨h'.1, h'.2 s₁ h⟩⟩

variable {step} {ok : σ → ε → Prop} {s s' : σ}

theorem run_cons_some {e : ε} {es : List ε} (h : run step s (e :: es) = some s') :
    ∃ s₁, step s e = some s₁ ∧ run step s₁ es = some s' := by
  simp only [run, Option.bind_eq_some_iff] at h
  exact h

theorem run_cons {s₁ : σ} {e : ε} (hs : step s e = some s₁) (es : List ε) :
    run step s (e :: es) = run step s₁ es :=
  congrArg (Option.bind · (run step · es)) hs

theorem run_nil_some (h : run step s [] = some s') : s = s' := Option.some.inj h

theorem run_singleton (e : ε) : run step s [e] = step s e :=
  Option.bind_fun_some (step s e)

theorem meets_cons {s₁ : σ} {e : ε} {es : List ε} (he : ok s e) (hs : step s e = some s₁)
    (hes : Meets step ok s₁ es) : Meets step ok s (e :: es) := by
  refine ⟨he, fun s' hs' => ?_⟩
  rw [hs, Option.some.injEq] at hs'
  exact hs' ▸ hes

theorem run_append (es es' : List ε) :
    run step s (es ++ es') = (run step s es).bind fun s₁ => run step s₁ es' := by
  induction es generalizing s with
  | nil => rfl
  | cons e es ih =>
    simp only [List.cons_append, run, Option.bind_assoc]
    congr 1
    funext s₁
    exact ih

/-- Steps that meet two conditions meet both at once. -/
theorem meets_and {ok' : σ → ε → Prop} {es : List ε} (h : Meets step ok s es)
    (h' : Meets step ok' s es) : Meets step (fun s e => ok s e ∧ ok' s e) s es := by
  induction es generalizing s with
  | nil => trivial
  | cons e es ih => exact ⟨⟨h.1, h'.1⟩, fun s₁ hs => ih (h.2 s₁ hs) (h'.2 s₁ hs)⟩

/-- What the initial state has and every step that meets `ok` keeps, every run that meets `ok`
ends with. -/
theorem run_inv {I : σ → Prop}
    (hstep : ∀ s e s', I s → ok s e → step s e = some s' → I s') {es : List ε}
    (hr : run step s es = some s') (hm : Meets step ok s es) (hs : I s) : I s' := by
  induction es generalizing s with
  | nil =>
    rwa [← run_nil_some hr]
  | cons e es ih =>
    obtain ⟨s₁, h1, h2⟩ := run_cons_some hr
    exact ih h2 (hm.2 s₁ h1) (hstep s e s₁ hs hm.1 h1)

theorem meets_of_forall (h : ∀ s e, ok s e) (es : List ε) : Meets step ok s es := by
  induction es generalizing s with
  | nil => trivial
  | cons e es ih => exact ⟨h s e, fun _ _ => ih⟩

/-- A run of good events meets `ok`, where a good event keeps what it needs for that. -/
theorem meets_of_inv {J : σ → Prop} {good : ε → Prop} (hok : ∀ s e, J s → good e → ok s e)
    (hstep : ∀ s e s', J s → good e → step s e = some s' → J s') {es : List ε}
    (hes : ∀ e ∈ es, good e) (hs : J s) : Meets step ok s es := by
  induction es generalizing s with
  | nil => trivial
  | cons e es ih =>
    have he := hes e List.mem_cons_self
    refine ⟨hok s e hs he, fun s' hs' => ih (fun e' h => hes e' (List.mem_cons_of_mem _ h)) ?_⟩
    exact hstep s e s' hs he hs'

/-- Where the steps that meet `ok` keep an invariant with which `ok` gives `ok'`, a run that meets
`ok` meets `ok'`. -/
theorem meets_imp {ok' : σ → ε → Prop} {J : σ → Prop} (hok : ∀ s e, J s → ok s e → ok' s e)
    (hstep : ∀ s e s', J s → ok s e → step s e = some s' → J s') {es : List ε}
    (hm : Meets step ok s es) (hs : J s) : Meets step ok' s es := by
  induction es generalizing s with
  | nil => trivial
  | cons e es ih =>
    exact ⟨hok s e hs hm.1, fun s' hs' => ih (hm.2 s' hs') (hstep s e s' hs hm.1 hs')⟩

/-- `run_inv` for a machine all of whose steps keep the invariant. -/
theorem run_inv' {I : σ → Prop} (hstep : ∀ s e s', I s → step s e = some s' → I s')
    {es : List ε} (hr : run step s es = some s') (hs : I s) : I s' :=
  @run_inv _ _ step (fun _ _ => True) _ _ I (fun s e s' hI _ h => hstep s e s' hI h) es hr
    (meets_of_forall (fun _ _ => trivial) es) hs

/-- What a step keeps exactly when it meets `ok`, a run has in each state it comes through exactly
when its steps meet `ok`. -/
theorem meets_iff {I J : σ → Prop} (hJ : ∀ s e s', J s → step s e = some s' → J s')
    (hI : ∀ s e s', J s → I s → step s e = some s' → (I s' ↔ ok s e)) {es : List ε}
    (hr : run step s es = some s') (hs : J s) (hi : I s) :
    (∀ es', es' <+: es → ∀ s₁, run step s es' = some s₁ → I s₁) ↔ Meets step ok s es := by
  induction es generalizing s with
  | nil =>
    refine iff_of_true (fun es' h s₁ h₁ => ?_) trivial
    rw [List.prefix_nil.1 h] at h₁
    exact run_nil_some h₁ ▸ hi
  | cons e es ih =>
    obtain ⟨s₂, h2, hr2⟩ := run_cons_some hr
    have hrun := run_cons h2
    constructor
    · intro h
      have h3 : I s₂ := h [e] ⟨es, rfl⟩ s₂ (hrun [])
      refine meets_cons ((hI s e s₂ hs hi h2).1 h3) h2 ((ih hr2 (hJ s e s₂ hs h2) h3).1 ?_)
      exact fun es' hp s₁ h₁ => h (e :: es') (List.cons_prefix_cons.2 ⟨rfl, hp⟩) s₁
        ((hrun es').trans h₁)
    · intro h es' hp s₁ h₁
      cases es' with
      | nil =>
        exact run_nil_some h₁ ▸ hi
      | cons e' es' =>
        obtain ⟨rfl, hp'⟩ := List.cons_prefix_cons.1 hp
        have h3 : I s₂ := (hI s _ s₂ hs hi h2).2 h.1
        exact (ih hr2 (hJ s _ s₂ hs h2) h3).2 (h.2 s₂ h2) es' hp' s₁ ((hrun es').symm.trans h₁)

/-- Where each step comes to `Q` or keeps the invariant, and counts `m` down if it is a `p`, a run
of more than `m` of them comes to `Q`. -/
theorem run_until {I Q : σ → Prop} {m : σ → ℕ} {p : ε → Bool}
    (hstep : ∀ s e s', I s → step s e = some s' →
      Q s' ∨ I s' ∧ m s' ≤ m s ∧ (p e = true → m s' < m s)) {es : List ε}
    (hr : run step s es = some s') (hs : I s) (hc : m s < es.countP p) :
    ∃ es₁ s₁, es₁ <+: es ∧ run step s es₁ = some s₁ ∧ Q s₁ := by
  induction es generalizing s with
  | nil => cases hc
  | cons e es ih =>
    obtain ⟨s₁, h1, h2⟩ := run_cons_some hr
    have hhead := run_cons h1
    rcases hstep s e s₁ hs h1 with hQ | ⟨hI, hle, hlt⟩
    · exact ⟨[e], s₁, ⟨es, rfl⟩, hhead [], hQ⟩
    · have hc' : m s₁ < es.countP p := by
        rw [List.countP_cons] at hc
        split_ifs at hc with hp
        · have := hlt hp
          omega
        · omega
      obtain ⟨es₁, s₂, h3, h4, h5⟩ := ih h2 hI hc'
      exact ⟨e :: es₁, s₂, List.cons_prefix_cons.2 ⟨rfl, h3⟩, (hhead es₁).trans h4, h5⟩

/-! ## What runs cost -/

variable (step) in
/-- What the steps of a run cost together. -/
def cost (c : σ → ε → ℕ) : σ → List ε → ℕ
  | _, [] => 0
  | s, e :: es =>
    match step s e with
    | none => 0
    | some s' => c s e + cost c s' es

theorem cost_cons {c : σ → ε → ℕ} {s₁ : σ} {e : ε} (hs : step s e = some s₁) (es : List ε) :
    cost step c s (e :: es) = c s e + cost step c s₁ es := by
  rw [cost, hs]

/-- A run costs as many steps as it has. -/
theorem cost_one {es : List ε} (hr : run step s es = some s') :
    cost step (fun _ _ => 1) s es = es.length := by
  induction es generalizing s with
  | nil => rfl
  | cons e es ih =>
    obtain ⟨s₁, h1, h2⟩ := run_cons_some hr
    rw [cost_cons h1, ih h2, List.length_cons, Nat.add_comm]

/-- What each step pays for out of `μ`, `a` being a value that is carried along, a run does. -/
theorem run_cost {α : Type*} {I : σ → α → Prop} {c : σ → ε → ℕ} {μ : σ → α → ℕ}
    (hstep : ∀ s a e s', I s a → ok s e → step s e = some s' →
      ∃ a', I s' a' ∧ c s e + μ s' a' ≤ μ s a) {es : List ε} {a : α}
    (hr : run step s es = some s') (hm : Meets step ok s es) (hs : I s a) :
    ∃ a', I s' a' ∧ cost step c s es + μ s' a' ≤ μ s a := by
  induction es generalizing s a with
  | nil =>
    obtain rfl := run_nil_some hr
    exact ⟨a, hs, (Nat.zero_add _).le⟩
  | cons e es ih =>
    obtain ⟨s₁, h1, h2⟩ := run_cons_some hr
    obtain ⟨a₁, h3, h4⟩ := hstep s a e s₁ hs hm.1 h1
    obtain ⟨a', h5, h6⟩ := ih h2 (hm.2 s₁ h1) h3
    refine ⟨a', h5, ?_⟩
    rw [cost_cons h1]
    omega

/-! ## What can be reached -/

variable (step) in
/-- Some run leads from `s` to `s'`. -/
def Reaches (s s' : σ) : Prop := ∃ es, run step s es = some s'

theorem Reaches.refl (s : σ) : Reaches step s s := ⟨[], rfl⟩

theorem Reaches.head {s₁ : σ} {e : ε} (hs : step s e = some s₁) (h : Reaches step s₁ s') :
    Reaches step s s' := by
  obtain ⟨es, hes⟩ := h
  exact ⟨e :: es, (run_cons hs es).trans hes⟩

theorem Reaches.trans {s₁ : σ} (h : Reaches step s s₁) (h' : Reaches step s₁ s') :
    Reaches step s s' := by
  obtain ⟨es, hes⟩ := h
  obtain ⟨es', hes'⟩ := h'
  refine ⟨es ++ es', ?_⟩
  rw [run_append, hes]
  exact hes'

end Machine
