import Rome.Lib.Machine

/-!
# Steps that are not defined

A language leaves some steps of a machine undefined: a store behind an array, a second release of a
block. The machine then has, besides its own events, the outcomes such a step may have. A run none
of whose states has an undefined step is a run of the machine's own events.
-/

namespace Machine

variable {σ ε δ : Type*} {step : σ → ε → Option σ} {undefined : σ → δ → Option σ}

/-- A machine with the outcomes of its undefined steps. -/
def orUndefined (step : σ → ε → Option σ) (undefined : σ → δ → Option σ) (s : σ) :
    ε ⊕ δ → Option σ :=
  Sum.elim (step s) (undefined s)

/-- A condition on the machine's own events. -/
def onDefined (ok : σ → ε → Prop) (s : σ) : ε ⊕ δ → Prop := Sum.elim (ok s) fun _ => True

instance (ok : σ → ε → Prop) [∀ s e, Decidable (ok s e)] (s : σ) :
    (a : ε ⊕ δ) → Decidable (onDefined ok s a)
  | .inl e => inferInstanceAs (Decidable (ok s e))
  | .inr _ => .isTrue trivial

variable {ok : σ → ε → Prop} {s s' : σ}

@[simp]
theorem orUndefined_inl (e : ε) : orUndefined step undefined s (.inl e) = step s e := rfl

@[simp]
theorem orUndefined_inr (d : δ) : orUndefined step undefined s (.inr d) = undefined s d := rfl

@[simp]
theorem onDefined_inl (e : ε) : onDefined (δ := δ) ok s (.inl e) ↔ ok s e := Iff.rfl

theorem run_inl (es : List ε) :
    run (orUndefined step undefined) s (es.map .inl) = run step s es := by
  induction es generalizing s with
  | nil => rfl
  | cons e es ih =>
    simp only [List.map_cons, run, orUndefined_inl]
    congr 1
    funext s₁
    exact ih

theorem meets_inl (es : List ε) :
    Meets (orUndefined step undefined) (onDefined ok) s (es.map .inl) ↔ Meets step ok s es := by
  induction es generalizing s with
  | nil => exact Iff.rfl
  | cons e es ih => exact and_congr Iff.rfl (forall_congr' fun s₁ => imp_congr Iff.rfl ih)

/-- Where the steps that meet `ok` keep an invariant in whose states nothing is undefined, a run
that meets it has the machine's own events only. -/
theorem run_defined {J : σ → Prop} (hJ : ∀ s e s', J s → ok s e → step s e = some s' → J s')
    (hdef : ∀ s d, J s → undefined s d = none) {as : List (ε ⊕ δ)}
    (hr : run (orUndefined step undefined) s as = some s')
    (hm : Meets (orUndefined step undefined) (onDefined ok) s as) (hs : J s) :
    ∃ es : List ε, as = es.map .inl ∧ run step s es = some s' ∧ Meets step ok s es := by
  induction as generalizing s with
  | nil => exact ⟨[], rfl, hr, trivial⟩
  | cons a as ih =>
    obtain ⟨s₁, h1, h2⟩ := run_cons_some hr
    cases a with
    | inl e =>
      obtain ⟨es, rfl, h3, h4⟩ := ih h2 (hm.2 s₁ h1) (hJ s e s₁ hs hm.1 h1)
      exact ⟨e :: es, rfl, (run_cons (show step s e = some s₁ from h1) es).trans h3,
        meets_cons hm.1 h1 h4⟩
    | inr d =>
      rw [orUndefined_inr, hdef s d hs] at h1
      cases h1

end Machine
