import Rome.Lib.Linearizable

/-!
# Callers of an atomic object

Callers invoke calls on an object, one at a time each, and number them in the order of their
invocations. Some time later the object takes the call, at one moment, and after that the caller
returns with the result. Whatever the interleaving, the history is linearizable.
-/

namespace Lin

variable {τ S O R : Type*} [DecidableEq τ]

/-- The history, the state, the number of calls so far, and the call each caller is in, with its
result once it is taken. -/
inductive Callers (f : S → O → S × R) (s₀ : S) :
    List (Event ℕ O R) → S → ℕ → (τ → Option (ℕ × O × Option R)) → Prop
  | init : Callers f s₀ [] s₀ 0 fun _ => none
  | invoke {h s n w t} (o : O) : Callers f s₀ h s n w → w t = none →
      Callers f s₀ (h ++ [.inv n o]) s (n + 1) (Function.update w t (some (n, o, none)))
  | take {h s n w t k o} : Callers f s₀ h s n w → w t = some (k, o, none) →
      Callers f s₀ h (f s o).1 n (Function.update w t (some (k, o, some (f s o).2)))
  | respond {h s n w t k o r} : Callers f s₀ h s n w → w t = some (k, o, some r) →
      Callers f s₀ (h ++ [.res k r]) s n (Function.update w t none)

namespace Callers

variable {f : S → O → S × R} {s₀ s : S} {h : List (Event ℕ O R)} {n : ℕ}
  {w : τ → Option (ℕ × O × Option R)}

/-- The calls of the callers are their own, and at `st` they are where the callers have them. -/
structure Numbered (n : ℕ) (w : τ → Option (ℕ × O × Option R)) (st : ℕ → Status O R) : Prop where
  inj : ∀ t t' x x', w t = some x → w t' = some x' → x.1 = x'.1 → t = t'
  lt : ∀ t x, w t = some x → x.1 < n
  fresh : ∀ k, n ≤ k → st k = .fresh
  pending : ∀ t k o, w t = some (k, o, none) → ∃ seen, st k = .pending o seen
  taken : ∀ t k o r, w t = some (k, o, some r) → st k = .taken o r

/-- The call of one caller moves on, or ends. -/
theorem Numbered.update {st : ℕ → Status O R} (H : Numbered n w st) {t : τ} {k : ℕ} {o : O}
    {r : Option R} (ht : w t = some (k, o, r)) {x : Option (O × Option R)} {y : Status O R}
    (hpending : ∀ o', x = some (o', none) → ∃ seen, y = .pending o' seen)
    (htaken : ∀ o' r', x = some (o', some r') → y = .taken o' r') :
    Numbered n (Function.update w t (x.map fun x => (k, x))) (Function.update st k y) := by
  have hk : k < n := H.lt t _ ht
  have hne : ∀ {t' x'}, t' ≠ t → w t' = some x' → x'.1 ≠ k := fun hne hx hxk =>
    hne (H.inj _ _ _ _ hx ht hxk)
  have hcase : ∀ {t' x'}, Function.update w t (x.map fun x => (k, x)) t' = some x' →
      t' = t ∧ x'.1 = k ∧ x = some x'.2 ∨ t' ≠ t ∧ w t' = some x' := by
    intro t' x' hx
    by_cases htt : t' = t
    · subst htt
      rw [Function.update_self, Option.map_eq_some_iff] at hx
      obtain ⟨z, hz, rfl⟩ := hx
      exact .inl ⟨rfl, rfl, hz⟩
    · rw [Function.update_of_ne htt] at hx
      exact .inr ⟨htt, hx⟩
  refine ⟨fun t₁ t₂ x₁ x₂ h1 h2 heq => ?_, fun t' x' hx => ?_, fun k' hk' => ?_,
    fun t' k' o' hx => ?_, fun t' k' o' r' hx => ?_⟩
  · rcases hcase h1 with ⟨rfl, h3, -⟩ | ⟨h3, h4⟩ <;> rcases hcase h2 with ⟨rfl, h5, -⟩ | ⟨h5, h6⟩
    · rfl
    · exact absurd (heq.symm.trans h3) (hne h5 h6)
    · exact absurd (heq.trans h5) (hne h3 h4)
    · exact H.inj _ _ _ _ h4 h6 heq
  · rcases hcase hx with ⟨-, h3, -⟩ | ⟨-, h4⟩
    · rwa [h3]
    · exact H.lt _ _ h4
  · rw [Function.update_of_ne (by omega)]
    exact H.fresh k' hk'
  · rcases hcase hx with ⟨-, h3, h4⟩ | ⟨h3, h4⟩
    · simp only [] at h3 h4
      subst h3
      rw [Function.update_self]
      exact hpending o' h4
    · rw [Function.update_of_ne (hne h3 h4)]
      exact H.pending _ _ _ h4
  · rcases hcase hx with ⟨-, h3, h4⟩ | ⟨h3, h4⟩
    · simp only [] at h3 h4
      subst h3
      rw [Function.update_self]
      exact htaken o' r' h4
    · rw [Function.update_of_ne (hne h3 h4)]
      exact H.taken _ _ _ _ h4

theorem Numbered.invoke {st : ℕ → Status O R} (H : Numbered n w st) {t : τ} (ht : w t = none)
    (o : O) : Numbered (n + 1) (Function.update w t (some (n, o, none)))
      (Function.update st n (.pending o none)) := by
  have hcase : ∀ {t' x'}, Function.update w t (some (n, o, none)) t' = some x' →
      t' = t ∧ x' = (n, o, none) ∨ w t' = some x' ∧ x'.1 < n := by
    intro t' x' hx
    by_cases htt : t' = t
    · subst htt
      rw [Function.update_self] at hx
      exact .inl ⟨rfl, (Option.some.inj hx).symm⟩
    · rw [Function.update_of_ne htt] at hx
      exact .inr ⟨hx, H.lt _ _ hx⟩
  refine ⟨fun t₁ t₂ x₁ x₂ h1 h2 heq => ?_, fun t' x' hx => ?_, fun k' hk' => ?_,
    fun t' k' o' hx => ?_, fun t' k' o' r' hx => ?_⟩
  · rcases hcase h1 with ⟨rfl, rfl⟩ | ⟨h3, h4⟩ <;> rcases hcase h2 with ⟨rfl, rfl⟩ | ⟨h5, h6⟩
    · rfl
    · simp only [] at heq
      omega
    · simp only [] at heq
      omega
    · exact H.inj _ _ _ _ h3 h5 heq
  · rcases hcase hx with ⟨-, rfl⟩ | ⟨-, h4⟩
    · exact Nat.lt_succ_self n
    · exact h4.trans (Nat.lt_succ_self n)
  · rw [Function.update_of_ne (by omega)]
    exact H.fresh k' (by omega)
  · rcases hcase hx with ⟨-, h3⟩ | ⟨h3, h4⟩
    · obtain ⟨rfl, rfl, -⟩ := Prod.mk.injEq .. ▸ h3
      exact ⟨none, Function.update_self ..⟩
    · rw [Function.update_of_ne (by simp only [] at h4; omega)]
      exact H.pending _ _ _ h3
  · rcases hcase hx with ⟨-, h3⟩ | ⟨h3, h4⟩
    · simp at h3
    · rw [Function.update_of_ne (by simp only [] at h4; omega)]
      exact H.taken _ _ _ _ h3

/-- The object is one that takes each call at one moment. -/
theorem atomic (H : Callers f s₀ h s n w) : ∃ st, Atomic f s₀ h s st ∧ Numbered n w st := by
  induction H with
  | init => exact ⟨_, .init, by simp, by simp, fun _ _ => rfl, by simp, by simp⟩
  | invoke o _ ht ih =>
    obtain ⟨st, hA, hN⟩ := ih
    exact ⟨_, hA.invoke o (hN.fresh _ le_rfl), hN.invoke ht o⟩
  | take _ ht ih =>
    obtain ⟨st, hA, hN⟩ := ih
    obtain ⟨seen, hp⟩ := hN.pending _ _ _ ht
    exact ⟨_, hA.take hp, hN.update (x := some (_, some _)) ht (by simp) (by simp)⟩
  | respond _ ht ih =>
    obtain ⟨st, hA, hN⟩ := ih
    exact ⟨_, hA.respond (hN.taken _ _ _ _ ht), hN.update (x := none) ht (by simp) (by simp)⟩

theorem linearizable (H : Callers f s₀ h s n w) : Linearizable f s₀ h := by
  obtain ⟨st, hA, -⟩ := H.atomic
  exact hA.linearizable

end Callers

end Lin
