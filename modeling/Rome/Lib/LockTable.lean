import Mathlib

/-!
# Tables of locks

Each owner has a table of locks and threads that take and release them. A table is held when a lock
is with a thread exactly while that thread stands where it holds it.
-/

namespace LockTable

variable {ν ι τ P : Type*} [DecidableEq ν] [DecidableEq ι] [DecidableEq τ]
variable {holds : P → ι → Prop} {lock : ν × ι → Option τ} {pc : ν × τ → P}
variable {a : ν} {b : ι} {t : τ} {x : P}

/-- A lock is with the thread that stands where it holds it. -/
def Held (holds : P → ι → Prop) (lock : ν × ι → Option τ) (pc : ν × τ → P) : Prop :=
  ∀ a b t, lock (a, b) = some t ↔ holds (pc (a, t)) b

omit [DecidableEq ι] in
theorem Held.goto (h : Held holds lock pc) (hx : ∀ b, holds x b ↔ holds (pc (a, t)) b) :
    Held holds lock (Function.update pc (a, t) x) := by
  intro a' b' t'
  rw [h]
  by_cases hat : (a', t') = (a, t)
  · rw [hat, Function.update_self, hx]
  · rw [Function.update_of_ne hat]

theorem Held.take (h : Held holds lock pc) (hfree : lock (a, b) = none)
    (hold : ∀ b', ¬ holds (pc (a, t)) b') (hx : ∀ b', holds x b' ↔ b' = b) :
    Held holds (Function.update lock (a, b) (some t)) (Function.update pc (a, t) x) := by
  intro a' b' t'
  by_cases hat : (a', t') = (a, t)
  · injection hat with ha ht
    subst ha ht
    rw [Function.update_self, hx]
    by_cases hb : b' = b
    · simp [hb]
    · rw [Function.update_of_ne (by simp [hb]), h]
      exact ⟨fun h' => absurd h' (hold b'), fun h' => absurd h' hb⟩
  · rw [Function.update_of_ne hat]
    by_cases hab : (a', b') = (a, b)
    · injection hab with ha hb
      subst ha hb
      rw [Function.update_self, ← h, hfree, Option.some.injEq]
      exact ⟨fun h' => absurd (by rw [h']) hat, fun h' => by cases h'⟩
    · rw [Function.update_of_ne hab, h]

theorem Held.release (h : Held holds lock pc) (hold : ∀ b', holds (pc (a, t)) b' ↔ b' = b)
    (hx : ∀ b', ¬ holds x b') :
    Held holds (Function.update lock (a, b) none) (Function.update pc (a, t) x) := by
  intro a' b' t'
  by_cases hat : (a', t') = (a, t)
  · injection hat with ha ht
    subst ha ht
    rw [Function.update_self]
    refine ⟨fun h' => ?_, fun h' => absurd h' (hx b')⟩
    by_cases hb : b' = b
    · rw [hb, Function.update_self] at h'
      cases h'
    · rw [Function.update_of_ne (by simp [hb]), h, hold] at h'
      exact absurd h' hb
  · rw [Function.update_of_ne hat]
    by_cases hab : (a', b') = (a, b)
    · injection hab with ha hb
      subst ha hb
      rw [Function.update_self, ← h, (h a' b' t).mpr ((hold b').mpr rfl), Option.some.injEq]
      exact ⟨fun h' => (by cases h'), fun h' => absurd (by rw [h']) hat⟩
    · rw [Function.update_of_ne hab, h]

end LockTable
