import Mathlib

/-!
# Linearizable histories

A history lists the invocations and responses of calls as they happen. It is linearizable when
the calls that returned, and some of those that have not, can be put in one order in which each
gives the result the sequential object gives, and no call comes before one that had returned
before it was invoked.

`Atomic` is the object that takes each call at one moment between its invocation and its
response. A call may also answer with what it would have read at an earlier moment since its
invocation, if reading then changed nothing. Its histories are linearizable
(`Atomic.linearizable`), so a system that simulates it has linearizable histories.
-/

namespace Lin

variable {ι O R S : Type*}

/-- An invocation or a response of the call `i`. -/
inductive Event (ι O R : Type*)
  | inv (i : ι) (o : O)
  | res (i : ι) (r : R)
  deriving DecidableEq, Repr

/-- The object `f` answers each call of the list as the list says, going from `s` to `s'`. -/
def Legal (f : S → O → S × R) : S → List (ι × O × R) → S → Prop
  | s, [], s' => s = s'
  | s, x :: l, s' => (f s x.2.1).2 = x.2.2 ∧ Legal f (f s x.2.1).1 l s'

/-- The call `i` returned before the call `j` was invoked. -/
def Precedes (h : List (Event ι O R)) (i j : ι) : Prop :=
  ∃ h₁ h₂ r, h = h₁ ++ .res i r :: h₂ ∧ ∃ o, .inv j o ∈ h₂

/-- The history is one of the object `f` started in `s₀`, each call taken at one moment. -/
def Linearizable (f : S → O → S × R) (s₀ : S) (h : List (Event ι O R)) : Prop :=
  ∃ l : List (ι × O × R), (∃ s, Legal f s₀ l s) ∧ (l.map Prod.fst).Nodup
    ∧ (∀ x ∈ l, .inv x.1 x.2.1 ∈ h) ∧ (∀ i r, .res i r ∈ h → ∃ o, (i, o, r) ∈ l)
    ∧ l.Pairwise fun x y => ¬ Precedes h y.1 x.1

section Legal

variable {f : S → O → S × R}

theorem legal_append {s s' : S} {l l' : List (ι × O × R)} :
    Legal f s (l ++ l') s' ↔ ∃ s₁, Legal f s l s₁ ∧ Legal f s₁ l' s' := by
  induction l generalizing s with
  | nil => simp [Legal]
  | cons x l ih =>
    simp only [List.cons_append, Legal, ih]
    constructor
    · rintro ⟨h1, s₁, h2, h3⟩
      exact ⟨s₁, ⟨h1, h2⟩, h3⟩
    · rintro ⟨s₁, ⟨h1, h2⟩, h3⟩
      exact ⟨h1, s₁, h2, h3⟩

theorem legal_singleton {s s' : S} {x : ι × O × R} :
    Legal f s [x] s' ↔ f s x.2.1 = (s', x.2.2) := by
  simp only [Legal]
  rw [Prod.ext_iff]
  exact and_comm

theorem Legal.functional {s s₁ s₂ : S} {l : List (ι × O × R)} (h₁ : Legal f s l s₁)
    (h₂ : Legal f s l s₂) : s₁ = s₂ := by
  induction l generalizing s with
  | nil => exact h₁.symm.trans h₂
  | cons x l ih => exact ih h₁.2 h₂.2

/-- A call that changes nothing where it is put can be put there. -/
theorem Legal.insert {s s₁ s' : S} {l₁ l₂ : List (ι × O × R)} {x : ι × O × R}
    (h : Legal f s (l₁ ++ l₂) s') (h₁ : Legal f s l₁ s₁) (hx : f s₁ x.2.1 = (s₁, x.2.2)) :
    Legal f s (l₁ ++ x :: l₂) s' := by
  obtain ⟨s₂, h2, h3⟩ := legal_append.1 h
  obtain rfl := h2.functional h₁
  refine legal_append.2 ⟨s₂, h2, ?_⟩
  simp only [Legal, hx]
  exact ⟨trivial, h3⟩

end Legal

section Precedes

variable {h : List (Event ι O R)} {i j : ι}

theorem Precedes.res_mem (hp : Precedes h i j) : ∃ r, .res i r ∈ h := by
  obtain ⟨h₁, h₂, r, rfl, -⟩ := hp
  exact ⟨r, by simp⟩

theorem Precedes.inv_mem (hp : Precedes h i j) : ∃ o, .inv j o ∈ h := by
  obtain ⟨h₁, h₂, r, rfl, o, ho⟩ := hp
  exact ⟨o, by simp [ho]⟩

/-- An order in a longer history is one of the history, or its last event is the invocation. -/
theorem precedes_concat {e : Event ι O R} (hp : Precedes (h ++ [e]) i j) :
    Precedes h i j ∨ (∃ o, e = .inv j o) ∧ ∃ r, .res i r ∈ h := by
  obtain ⟨h₁, h₂, r, he, o, ho⟩ := hp
  rcases List.eq_nil_or_concat h₂ with rfl | ⟨h₂', x, rfl⟩
  · simp at ho
  rw [List.concat_eq_append, ← List.cons_append, ← List.append_assoc] at he
  obtain ⟨hh, hx⟩ := List.append_inj' he rfl
  simp only [List.cons.injEq, and_true] at hx
  subst hx
  simp only [List.concat_eq_append, List.mem_append, List.mem_singleton] at ho
  rcases ho with ho | ho
  · exact .inl ⟨h₁, h₂', r, hh, o, ho⟩
  · exact .inr ⟨⟨o, ho.symm⟩, r, by rw [hh]; simp⟩

theorem precedes_append_inv {k : ι} {o : O} (hp : Precedes (h ++ [.inv k o]) i j) :
    Precedes h i j ∨ j = k ∧ ∃ r, .res i r ∈ h := by
  rcases precedes_concat hp with hp | ⟨⟨o', he⟩, hr⟩
  · exact .inl hp
  · exact .inr ⟨(Event.inv.inj he).1.symm, hr⟩

theorem precedes_append_res {k : ι} {r : R} (hp : Precedes (h ++ [.res k r]) i j) :
    Precedes h i j := by
  rcases precedes_concat hp with hp | ⟨⟨o, he⟩, -⟩
  · exact hp
  · cases he

end Precedes

/-- Where a call is: not invoked, invoked and with the last result it could have read since, taken
with its result, or returned. -/
inductive Status (O R : Type*)
  | fresh
  | pending (o : O) (seen : Option R)
  | taken (o : O) (r : R)
  | returned

/-- The history, state and calls of an object that takes each call at one moment. -/
inductive Atomic [DecidableEq ι] (f : S → O → S × R) (s₀ : S) :
    List (Event ι O R) → S → (ι → Status O R) → Prop
  | init : Atomic f s₀ [] s₀ fun _ => .fresh
  | invoke {h s st i} (o : O) : Atomic f s₀ h s st → st i = .fresh →
      Atomic f s₀ (h ++ [.inv i o]) s (Function.update st i (.pending o none))
  | observe {h s st i o seen} (r : R) : Atomic f s₀ h s st → st i = .pending o seen →
      f s o = (s, r) → Atomic f s₀ h s (Function.update st i (.pending o (some r)))
  | take {h s st i o seen} : Atomic f s₀ h s st → st i = .pending o seen →
      Atomic f s₀ h (f s o).1 (Function.update st i (.taken o (f s o).2))
  | answer {h s st i o r} : Atomic f s₀ h s st → st i = .pending o (some r) →
      Atomic f s₀ h s (Function.update st i (.taken o r))
  | respond {h s st i o r} : Atomic f s₀ h s st → st i = .taken o r →
      Atomic f s₀ (h ++ [.res i r]) s (Function.update st i .returned)

namespace Atomic

variable {f : S → O → S × R} {s₀ : S}

/-- A linearization `l` of the calls taken so far, with a place for each call that could have been
read earlier. -/
structure Order (f : S → O → S × R) (s₀ : S) (h : List (Event ι O R)) (s : S)
    (st : ι → Status O R) (l : List (ι × O × R)) : Prop where
  legal : Legal f s₀ l s
  nodup : (l.map Prod.fst).Nodup
  inv_mem : ∀ x ∈ l, .inv x.1 x.2.1 ∈ h
  taken_mem : ∀ i o r, st i = .taken o r → (i, o, r) ∈ l
  res_mem : ∀ i r, .res i r ∈ h → st i = .returned ∧ ∃ o, (i, o, r) ∈ l
  pairwise : l.Pairwise fun x y => ¬ Precedes h y.1 x.1
  fresh : ∀ i, st i = .fresh → (∀ o, .inv i o ∉ h) ∧ i ∉ l.map Prod.fst
  pending : ∀ i o seen, st i = .pending o seen → .inv i o ∈ h ∧ i ∉ l.map Prod.fst
  place : ∀ i o r, st i = .pending o (some r) → ∃ l₁ l₂ s₁, l = l₁ ++ l₂ ∧ Legal f s₀ l₁ s₁
    ∧ f s₁ o = (s₁, r) ∧ ∀ y ∈ l₂, ¬ Precedes h y.1 i

namespace Order

variable {h : List (Event ι O R)} {s : S} {st : ι → Status O R} {l : List (ι × O × R)}

theorem not_precedes (H : Order f s₀ h s st l) {i j : ι} (hi : st i ≠ .returned) :
    ¬ Precedes h i j := by
  intro hp
  obtain ⟨r, hr⟩ := hp.res_mem
  exact hi (H.res_mem i r hr).1

variable [DecidableEq ι]

theorem invoke (H : Order f s₀ h s st l) {i : ι} (o : O) (hi : st i = .fresh) :
    Order f s₀ (h ++ [.inv i o]) s (Function.update st i (.pending o none)) l where
  legal := H.legal
  nodup := H.nodup
  inv_mem x hx := List.mem_append_left _ (H.inv_mem x hx)
  taken_mem j o' r hj := by
    by_cases hji : j = i
    · subst hji
      simp at hj
    · rw [Function.update_of_ne hji] at hj
      exact H.taken_mem j o' r hj
  res_mem j r hr := by
    simp only [List.mem_append, List.mem_singleton, reduceCtorEq, or_false] at hr
    obtain ⟨h1, h2⟩ := H.res_mem j r hr
    have hji : j ≠ i := by rintro rfl; rw [hi] at h1; cases h1
    exact ⟨by rw [Function.update_of_ne hji, h1], h2⟩
  pairwise := by
    refine H.pairwise.imp_of_mem fun {x y} hx _ hxy hp => ?_
    rcases precedes_append_inv hp with hp | ⟨rfl, -⟩
    · exact hxy hp
    · exact (H.fresh _ hi).2 (List.mem_map_of_mem hx)
  fresh j hj := by
    have hji : j ≠ i := by rintro rfl; simp at hj
    rw [Function.update_of_ne hji] at hj
    refine ⟨fun o' ho => ?_, (H.fresh j hj).2⟩
    simp only [List.mem_append, List.mem_singleton, Event.inv.injEq] at ho
    rcases ho with ho | ⟨rfl, -⟩
    · exact (H.fresh j hj).1 o' ho
    · exact hji rfl
  pending j o' seen hj := by
    by_cases hji : j = i
    · subst hji
      simp only [Function.update_self, Status.pending.injEq] at hj
      obtain ⟨rfl, -⟩ := hj
      exact ⟨by simp, (H.fresh j hi).2⟩
    · rw [Function.update_of_ne hji] at hj
      exact ⟨List.mem_append_left _ (H.pending j o' seen hj).1, (H.pending j o' seen hj).2⟩
  place j o' r hj := by
    have hji : j ≠ i := by rintro rfl; simp at hj
    rw [Function.update_of_ne hji] at hj
    obtain ⟨l₁, l₂, s₁, hl, h1, h2, h3⟩ := H.place j o' r hj
    refine ⟨l₁, l₂, s₁, hl, h1, h2, fun y hy hp => ?_⟩
    rcases precedes_append_inv hp with hp | ⟨rfl, -⟩
    · exact h3 y hy hp
    · exact hji rfl

theorem observe (H : Order f s₀ h s st l) {i : ι} {o : O} {seen : Option R} {r : R}
    (hi : st i = .pending o seen) (hf : f s o = (s, r)) :
    Order f s₀ h s (Function.update st i (.pending o (some r))) l where
  legal := H.legal
  nodup := H.nodup
  inv_mem := H.inv_mem
  taken_mem j o' r' hj := by
    have hji : j ≠ i := by rintro rfl; simp at hj
    rw [Function.update_of_ne hji] at hj
    exact H.taken_mem j o' r' hj
  res_mem j r' hr := by
    obtain ⟨h1, h2⟩ := H.res_mem j r' hr
    have hji : j ≠ i := by rintro rfl; rw [hi] at h1; cases h1
    exact ⟨by rw [Function.update_of_ne hji, h1], h2⟩
  pairwise := H.pairwise
  fresh j hj := by
    have hji : j ≠ i := by rintro rfl; simp at hj
    rw [Function.update_of_ne hji] at hj
    exact H.fresh j hj
  pending j o' seen' hj := by
    by_cases hji : j = i
    · subst hji
      simp only [Function.update_self, Status.pending.injEq] at hj
      obtain ⟨rfl, -⟩ := hj
      exact H.pending j o seen hi
    · rw [Function.update_of_ne hji] at hj
      exact H.pending j o' seen' hj
  place j o' r' hj := by
    by_cases hji : j = i
    · subst hji
      simp only [Function.update_self, Status.pending.injEq, Option.some.injEq] at hj
      obtain ⟨rfl, rfl⟩ := hj
      exact ⟨l, [], s, by simp, H.legal, hf, by simp⟩
    · rw [Function.update_of_ne hji] at hj
      exact H.place j o' r' hj

/-- A pending call can be put where it changes nothing, or last. -/
theorem insert (H : Order f s₀ h s st l) {i : ι} {o : O} {seen : Option R} {r : R} {s' : S}
    {l₁ l₂ : List (ι × O × R)} (hi : st i = .pending o seen) (hl : l = l₁ ++ l₂)
    (hlegal : Legal f s₀ (l₁ ++ (i, o, r) :: l₂) s')
    (hafter : ∀ y ∈ l₂, ¬ Precedes h y.1 i)
    (hplace : ∀ m₁ m₂ s₁, l = m₁ ++ m₂ → Legal f s₀ m₁ s₁ →
      ∃ n₁ n₂, l₁ ++ (i, o, r) :: l₂ = n₁ ++ n₂ ∧ Legal f s₀ n₁ s₁
        ∧ ∀ y ∈ n₂, y ∈ m₂ ∨ y = (i, o, r)) :
    Order f s₀ h s' (Function.update st i (.taken o r)) (l₁ ++ (i, o, r) :: l₂) where
  legal := hlegal
  nodup := by
    have hn := H.nodup
    have hm := (H.pending i o seen hi).2
    rw [hl] at hn hm
    simp only [List.map_append, List.map_cons] at hn hm ⊢
    rw [List.nodup_middle, List.nodup_cons]
    exact ⟨hm, hn⟩
  inv_mem x hx := by
    simp only [List.mem_append, List.mem_cons] at hx
    rcases hx with hx | rfl | hx
    · exact H.inv_mem x (by rw [hl]; simp [hx])
    · exact (H.pending i o seen hi).1
    · exact H.inv_mem x (by rw [hl]; simp [hx])
  taken_mem j o' r' hj := by
    by_cases hji : j = i
    · subst hji
      simp only [Function.update_self, Status.taken.injEq] at hj
      obtain ⟨rfl, rfl⟩ := hj
      simp
    · rw [Function.update_of_ne hji] at hj
      have := H.taken_mem j o' r' hj
      rw [hl] at this
      simp only [List.mem_append, List.mem_cons] at this ⊢
      tauto
  res_mem j r' hr := by
    obtain ⟨h1, o', h2⟩ := H.res_mem j r' hr
    have hji : j ≠ i := by rintro rfl; rw [hi] at h1; cases h1
    refine ⟨by rw [Function.update_of_ne hji, h1], o', ?_⟩
    rw [hl] at h2
    simp only [List.mem_append, List.mem_cons] at h2 ⊢
    tauto
  pairwise := by
    have hp := H.pairwise
    have hni : ∀ j, ¬ Precedes h i j := fun j => H.not_precedes (by rw [hi]; simp)
    rw [hl, List.pairwise_append] at hp
    rw [List.pairwise_append, List.pairwise_cons]
    refine ⟨hp.1, ⟨hafter, hp.2.1⟩, fun x hx y hy => ?_⟩
    rcases List.mem_cons.1 hy with rfl | hy
    · exact hni _
    · exact hp.2.2 x hx y hy
  fresh j hj := by
    have hji : j ≠ i := by rintro rfl; simp at hj
    rw [Function.update_of_ne hji] at hj
    refine ⟨(H.fresh j hj).1, ?_⟩
    have := (H.fresh j hj).2
    rw [hl] at this
    simp only [List.map_append, List.map_cons, List.mem_append, List.mem_cons] at this ⊢
    tauto
  pending j o' seen' hj := by
    have hji : j ≠ i := by rintro rfl; simp at hj
    rw [Function.update_of_ne hji] at hj
    refine ⟨(H.pending j o' seen' hj).1, ?_⟩
    have := (H.pending j o' seen' hj).2
    rw [hl] at this
    simp only [List.map_append, List.map_cons, List.mem_append, List.mem_cons] at this ⊢
    tauto
  place j o' r' hj := by
    have hji : j ≠ i := by rintro rfl; simp at hj
    rw [Function.update_of_ne hji] at hj
    obtain ⟨m₁, m₂, s₁, hm, h1, h2, h3⟩ := H.place j o' r' hj
    obtain ⟨n₁, n₂, hn, h4, h5⟩ := hplace m₁ m₂ s₁ hm h1
    refine ⟨n₁, n₂, s₁, hn, h4, h2, fun y hy => ?_⟩
    rcases h5 y hy with hy | rfl
    · exact h3 y hy
    · exact H.not_precedes (by rw [hi]; simp)

theorem take (H : Order f s₀ h s st l) {i : ι} {o : O} {seen : Option R}
    (hi : st i = .pending o seen) :
    Order f s₀ h (f s o).1 (Function.update st i (.taken o (f s o).2))
      (l ++ [(i, o, (f s o).2)]) := by
  refine H.insert hi (show l = l ++ [] by simp) ?_ (by simp) fun m₁ m₂ s₁ hm h1 => ?_
  · exact legal_append.2 ⟨s, H.legal, legal_singleton.2 rfl⟩
  · refine ⟨m₁, m₂ ++ [(i, o, (f s o).2)], by rw [hm, List.append_assoc], h1, fun y hy => ?_⟩
    simpa using hy

theorem answer (H : Order f s₀ h s st l) {i : ι} {o : O} {r : R}
    (hi : st i = .pending o (some r)) :
    ∃ l', Order f s₀ h s (Function.update st i (.taken o r)) l' := by
  obtain ⟨l₁, l₂, s₁, hl, h1, h2, h3⟩ := H.place i o r hi
  have hleg := H.legal
  rw [hl] at hleg
  refine ⟨l₁ ++ (i, o, r) :: l₂, H.insert hi hl (hleg.insert h1 h2) h3 fun m₁ m₂ s₂ hm h4 => ?_⟩
  rw [hl] at hm
  rcases List.append_eq_append_iff.1 hm with ⟨a, rfl, rfl⟩ | ⟨a, rfl, rfl⟩
  · have hleg' : Legal f s₀ (l₁ ++ (i, o, r) :: a) s₂ := h4.insert h1 h2
    exact ⟨l₁ ++ (i, o, r) :: a, m₂, by simp, hleg', fun y hy => .inl hy⟩
  · refine ⟨m₁, a ++ (i, o, r) :: l₂, by simp, h4, fun y hy => ?_⟩
    simp only [List.mem_append, List.mem_cons] at hy ⊢
    tauto

theorem respond (H : Order f s₀ h s st l) {i : ι} {o : O} {r : R} (hi : st i = .taken o r) :
    Order f s₀ (h ++ [.res i r]) s (Function.update st i .returned) l where
  legal := H.legal
  nodup := H.nodup
  inv_mem x hx := List.mem_append_left _ (H.inv_mem x hx)
  taken_mem j o' r' hj := by
    have hji : j ≠ i := by rintro rfl; simp at hj
    rw [Function.update_of_ne hji] at hj
    exact H.taken_mem j o' r' hj
  res_mem j r' hr := by
    simp only [List.mem_append, List.mem_singleton, Event.res.injEq] at hr
    rcases hr with hr | ⟨rfl, rfl⟩
    · obtain ⟨h1, h2⟩ := H.res_mem j r' hr
      have hji : j ≠ i := by rintro rfl; rw [hi] at h1; cases h1
      exact ⟨by rw [Function.update_of_ne hji, h1], h2⟩
    · exact ⟨by simp, o, H.taken_mem _ _ _ hi⟩
  pairwise := H.pairwise.imp fun hxy hp => hxy (precedes_append_res hp)
  fresh j hj := by
    have hji : j ≠ i := by rintro rfl; simp at hj
    rw [Function.update_of_ne hji] at hj
    exact ⟨by simpa using (H.fresh j hj).1, (H.fresh j hj).2⟩
  pending j o' seen hj := by
    have hji : j ≠ i := by rintro rfl; simp at hj
    rw [Function.update_of_ne hji] at hj
    exact ⟨List.mem_append_left _ (H.pending j o' seen hj).1, (H.pending j o' seen hj).2⟩
  place j o' r' hj := by
    have hji : j ≠ i := by rintro rfl; simp at hj
    rw [Function.update_of_ne hji] at hj
    obtain ⟨l₁, l₂, s₁, hl, h1, h2, h3⟩ := H.place j o' r' hj
    exact ⟨l₁, l₂, s₁, hl, h1, h2, fun y hy hp => h3 y hy (precedes_append_res hp)⟩

end Order

variable [DecidableEq ι] {h : List (Event ι O R)} {s : S} {st : ι → Status O R}

theorem order (H : Atomic f s₀ h s st) : ∃ l, Order f s₀ h s st l := by
  induction H with
  | init =>
    refine ⟨[], rfl, by simp, by simp, by simp, by simp, .nil, by simp, by simp, by simp⟩
  | invoke o _ hi ih =>
    obtain ⟨l, hl⟩ := ih
    exact ⟨l, hl.invoke o hi⟩
  | observe r _ hi hf ih =>
    obtain ⟨l, hl⟩ := ih
    exact ⟨l, hl.observe hi hf⟩
  | take _ hi ih =>
    obtain ⟨l, hl⟩ := ih
    exact ⟨_, hl.take hi⟩
  | answer _ hi ih =>
    obtain ⟨l, hl⟩ := ih
    exact hl.answer hi
  | respond _ hi ih =>
    obtain ⟨l, hl⟩ := ih
    exact ⟨l, hl.respond hi⟩

/-- The histories of an object that takes each call at one moment are linearizable. -/
theorem linearizable (H : Atomic f s₀ h s st) : Linearizable f s₀ h := by
  obtain ⟨l, hl⟩ := H.order
  exact ⟨l, ⟨s, hl.legal⟩, hl.nodup, hl.inv_mem, fun i r hr => (hl.res_mem i r hr).2,
    hl.pairwise⟩

/-- A call is invoked once. -/
theorem inv_unique (H : Atomic f s₀ h s st) {i : ι} {o o' : O} (ho : .inv i o ∈ h)
    (ho' : .inv i o' ∈ h) : o = o' := by
  induction H with
  | init => simp at ho
  | @invoke h s st j o₁ H hj ih =>
    obtain ⟨l, hl⟩ := H.order
    have hno := (hl.fresh j hj).1
    simp only [List.mem_append, List.mem_singleton, Event.inv.injEq] at ho ho'
    rcases ho with ho | ⟨rfl, rfl⟩
    · rcases ho' with ho' | ⟨rfl, rfl⟩
      · exact ih ho ho'
      · exact absurd ho (hno o)
    · rcases ho' with ho' | ⟨-, rfl⟩
      · exact absurd ho' (hno o')
      · rfl
  | observe r _ _ _ ih => exact ih ho ho'
  | take _ _ ih => exact ih ho ho'
  | answer _ _ ih => exact ih ho ho'
  | respond _ _ ih =>
    simp only [List.mem_append, List.mem_singleton, reduceCtorEq, or_false] at ho ho'
    exact ih ho ho'

end Atomic

/-! ## Calls one after the other -/

/-- The history of calls of which each returns before the next is invoked. -/
def seqHist : List (ι × O × R) → List (Event ι O R)
  | [] => []
  | x :: l => .inv x.1 x.2.1 :: .res x.1 x.2.2 :: seqHist l

theorem seqHist_append (l l' : List (ι × O × R)) : seqHist (l ++ l') = seqHist l ++ seqHist l' := by
  induction l with
  | nil => rfl
  | cons x l ih => simp [seqHist, ih]

theorem inv_mem_seqHist {l : List (ι × O × R)} {i : ι} {o : O} :
    .inv i o ∈ seqHist l ↔ ∃ r, (i, o, r) ∈ l := by
  induction l with
  | nil => simp [seqHist]
  | cons x l ih =>
    simp only [seqHist, List.mem_cons, Event.inv.injEq, reduceCtorEq, false_or, ih, Prod.ext_iff]
    constructor
    · rintro (⟨h1, h2⟩ | ⟨r, h⟩)
      · exact ⟨x.2.2, .inl ⟨h1, h2, rfl⟩⟩
      · exact ⟨r, .inr h⟩
    · rintro ⟨r, ⟨h1, h2, -⟩ | h⟩
      · exact .inl ⟨h1, h2⟩
      · exact .inr ⟨r, h⟩

theorem res_mem_seqHist {l : List (ι × O × R)} {i : ι} {r : R} :
    .res i r ∈ seqHist l ↔ ∃ o, (i, o, r) ∈ l := by
  induction l with
  | nil => simp [seqHist]
  | cons x l ih =>
    simp only [seqHist, List.mem_cons, Event.res.injEq, reduceCtorEq, false_or, ih, Prod.ext_iff]
    constructor
    · rintro (⟨h1, h2⟩ | ⟨o, h⟩)
      · exact ⟨x.2.1, .inl ⟨h1, rfl, h2⟩⟩
      · exact ⟨o, .inr h⟩
    · rintro ⟨o, ⟨h1, -, h2⟩ | h⟩
      · exact .inl ⟨h1, h2⟩
      · exact .inr ⟨o, h⟩

/-- Calls one after the other have one order. -/
theorem eq_of_perm_seqHist : ∀ {l l' : List (ι × O × R)}, l'.Perm l → l.Nodup →
    (l'.Pairwise fun x y => ¬ Precedes (seqHist l) y.1 x.1) → l' = l
  | [], l', hp, _, _ => hp.eq_nil
  | x :: l, l', hp, hn, hw => by
    obtain ⟨l₁, l₂, rfl⟩ := List.append_of_mem (hp.mem_iff.2 List.mem_cons_self)
    have hperm : (l₁ ++ l₂).Perm l := (List.perm_middle.symm.trans hp).cons_inv
    rw [List.nodup_cons] at hn
    obtain rfl : l₁ = [] := by
      refine List.eq_nil_iff_forall_not_mem.2 fun y hy => ?_
      obtain ⟨-, -, h1⟩ := List.pairwise_append.1 hw
      refine h1 y hy x List.mem_cons_self ⟨[.inv x.1 x.2.1], seqHist l, x.2.2, rfl, y.2.1, ?_⟩
      exact inv_mem_seqHist.2 ⟨y.2.2, hperm.mem_iff.1 (by simp [hy])⟩
    simp only [List.nil_append] at hw hperm ⊢
    rw [eq_of_perm_seqHist hperm hn.2]
    refine (List.pairwise_cons.1 hw).2.imp ?_
    rintro a b hab ⟨h₁, h₂, r, he, o, ho⟩
    exact hab ⟨.inv x.1 x.2.1 :: .res x.1 x.2.2 :: h₁, h₂, r, by rw [seqHist, he]; rfl, o, ho⟩

/-- Calls one after the other give the results the object gives. -/
theorem Linearizable.legal_of_seqHist {f : S → O → S × R} {s₀ : S} {l : List (ι × O × R)}
    (h : Linearizable f s₀ (seqHist l)) (hn : (l.map Prod.fst).Nodup) : ∃ s, Legal f s₀ l s := by
  obtain ⟨l', ⟨s, hs⟩, hn', hinv, hres, hw⟩ := h
  have hsub : ∀ x ∈ l, x ∈ l' := by
    intro x hx
    obtain ⟨o, ho⟩ := hres x.1 x.2.2 (res_mem_seqHist.2 ⟨x.2.1, hx⟩)
    obtain ⟨r, hr⟩ := inv_mem_seqHist.1 (hinv _ ho)
    have := List.inj_on_of_nodup_map hn hx hr rfl
    rw [this] at ho ⊢
    exact ho
  have hsub' : ∀ x ∈ l', x ∈ l := by
    intro x hx
    obtain ⟨r, hr⟩ := inv_mem_seqHist.1 (hinv x hx)
    have := List.inj_on_of_nodup_map hn' hx (hsub _ hr) rfl
    rw [this]
    exact hr
  have hperm : l'.Perm l :=
    (List.perm_ext_iff_of_nodup (.of_map _ hn') (.of_map _ hn)).2 fun x => ⟨hsub' x, hsub x⟩
  rw [← eq_of_perm_seqHist hperm (.of_map _ hn) hw]
  exact ⟨s, hs⟩

end Lin
