import Rome.Lib.Machine

/-!
# Ledgers

A ledger records what is taken and what is given back, each under a name and with its terms. A name
is taken once; what is given back is out, on the terms it was taken on. When nothing is out, what
was taken has been given back once.
-/

namespace Ledger

open Machine

variable {ι α : Type*}

inductive Item (ι α : Type*)
  | take (i : ι) (a : α)
  | give (i : ι) (a : α)
  deriving DecidableEq

/-- The names that were ever taken, and what is out. -/
structure Book (ι α : Type*) where
  used : List ι
  out : List (ι × α)

def Book.empty : Book ι α := ⟨[], []⟩

variable [DecidableEq ι] [DecidableEq α]

def step (b : Book ι α) : Item ι α → Option (Book ι α)
  | .take i a => if i ∈ b.used then none else some ⟨i :: b.used, (i, a) :: b.out⟩
  | .give i a => if (i, a) ∈ b.out then some { b with out := b.out.erase (i, a) } else none

/-- The items lead from the empty book to `b`. -/
def Records (es : List (Item ι α)) (b : Book ι α) : Prop := run step .empty es = some b

variable {es : List (Item ι α)} {b : Book ι α} {i : ι} {a : α}

theorem records_nil : Records ([] : List (Item ι α)) .empty := rfl

theorem Records.take (h : Records es b) (hi : i ∉ b.used) :
    Records (es ++ [.take i a]) ⟨i :: b.used, (i, a) :: b.out⟩ := by
  rw [Records, run_append, h]
  simp [run, step, hi]

theorem Records.give (h : Records es b) (hi : (i, a) ∈ b.out) :
    Records (es ++ [.give i a]) { b with out := b.out.erase (i, a) } := by
  rw [Records, run_append, h]
  simp [run, step, hi]

theorem records_concat {e : Item ι α} (h : Records (es ++ [e]) b) :
    ∃ b', Records es b' ∧ step b' e = some b := by
  rw [Records, run_append, Option.bind_eq_some_iff] at h
  obtain ⟨b', h1, h2⟩ := h
  obtain ⟨b'', h3, h4⟩ := run_cons_some h2
  exact ⟨b', h1, run_nil_some h4 ▸ h3⟩

/-- What was taken is what was given back and what is out. -/
theorem Records.count (h : Records es b) (i : ι) (a : α) :
    es.count (.take i a) = es.count (.give i a) + b.out.count (i, a) := by
  induction es using List.reverseRecOn generalizing b with
  | nil =>
    rw [Records, run, Option.some.injEq] at h
    subst h
    rfl
  | append_singleton es e ih =>
    obtain ⟨b', h1, h2⟩ := records_concat h
    have ih := ih h1
    rw [List.count_append, List.count_append]
    cases e with
    | take j c =>
      simp only [step] at h2
      split_ifs at h2
      obtain rfl := Option.some.inj h2
      by_cases hj : (j, c) = (i, a)
      · obtain ⟨rfl, rfl⟩ := Prod.mk.inj hj
        simp [ih, Nat.add_assoc]
      · have hj' : ¬ (j = i ∧ c = a) := fun hj' => hj (Prod.ext hj'.1 hj'.2)
        simp [ih, hj']
    | give j c =>
      simp only [step] at h2
      split_ifs at h2 with hmem
      obtain rfl := Option.some.inj h2
      by_cases hj : (j, c) = (i, a)
      · obtain ⟨rfl, rfl⟩ := Prod.mk.inj hj
        have hpos := List.count_pos_iff.2 hmem
        simp [ih, List.count_erase_self]
        omega
      · have hj' : ¬ (j = i ∧ c = a) := fun hj' => hj (Prod.ext hj'.1 hj'.2)
        simp [ih, hj', List.count_erase_of_ne (Ne.symm hj)]

/-- What was given back had been taken, on the same terms. -/
theorem Records.taken (h : Records es b) {i : ι} {a : α} (hi : Item.give i a ∈ es) :
    Item.take i a ∈ es := by
  have hcount := h.count i a
  have hpos := List.count_pos_iff.2 hi
  exact List.count_pos_iff.1 (by omega)

end Ledger
