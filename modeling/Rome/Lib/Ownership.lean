import Rome.Lib.Machine

/-!
# Objects that own what they hold

An object holds resources, each opened once, and has a flag that says whether its destructor closes
them. Copying an object leaves both with the resources, the copy with the flag; assigning to one
leaves its flag as it is. Each resource has one owner until it is closed, and is closed once,
exactly as long as no step copies from, assigns to or destroys an object whose flag does not agree
with what it holds.
-/

namespace Ownership

open Machine

/-- A type of objects: what an object holds, in the order its destructor closes it, and its flag.
A construction may fail in some ways, which may have opened the resource, and may have closed it
again. -/
class Handle (α : Type*) where
  held : α → List ℕ
  owner : α → Bool
  Failure : Type
  opens : Failure → Bool
  closes : Failure → Bool
  closes_opens : ∀ f, closes f = true → opens f = true
  /-- The default constructor. -/
  empty : α
  held_empty : held empty = []
  /-- A constructor that opens a resource. -/
  connected : ℕ → α
  held_connected : ∀ x, held (connected x) = [x]
  owner_connected : ∀ x, owner (connected x) = true
  release : α → α
  owner_release : ∀ a, owner (release a) = false
  held_release : ∀ a, held (release a) = held a
  /-- The copy constructor. -/
  copied : α → α
  held_copied : ∀ obj, held (copied obj) = held obj
  owner_copied : ∀ obj, owner (copied obj) = true
  /-- The assignment of the second object to the first. -/
  assigned : α → α → α
  held_assigned : ∀ a obj, held (assigned a obj) = held obj
  owner_assigned : ∀ a obj, owner (assigned a obj) = owner a
  /-- The resource with which the object accepts further ones, if it has one. -/
  listens : α → Option ℕ
  accepted : α → ℕ → α
  held_accepted : ∀ a x, (listens a).isSome = true → (held (accepted a x)).Perm (x :: held a)
  owner_accepted : ∀ a x, owner (accepted a x) = owner a

open Handle

attribute [simp] held_empty held_connected owner_connected owner_release held_release held_copied
  owner_copied held_assigned owner_assigned owner_accepted

/-- The objects that live, the number of resources opened so far, and the resources closed, in
order. A resource is named by its number. -/
structure World (α : Type*) where
  objects : ℕ → Option α
  opened : ℕ
  closed : List ℕ

def World.init {α : Type*} : World α := ⟨fun _ => none, 0, []⟩

inductive Event (φ : Type*)
  | construct (i : ℕ)
  | connect (i : ℕ) (failure : Option φ)
  | copy (i j : ℕ)
  | assign (i j : ℕ)
  | accept (i : ℕ)
  | destroy (i : ℕ)

section Machine

variable {α : Type*} [Handle α]

/-- The object `i` is made, changed or destroyed. A copy and an assignment release the object `j`
they are from. -/
def step (w : World α) : Event (Failure α) → Option (World α)
  | .construct i =>
    if (w.objects i).isNone then
      some { w with objects := Function.update w.objects i (some empty) }
    else none
  | .connect i none =>
    if (w.objects i).isNone then
      some ⟨Function.update w.objects i (some (connected w.opened)), w.opened + 1, w.closed⟩
    else none
  | .connect i (some f) =>
    if (w.objects i).isNone then
      some { w with
        opened := if opens f then w.opened + 1 else w.opened
        closed := w.closed ++ if closes f then [w.opened] else [] }
    else none
  | .copy i j =>
    if (w.objects i).isNone then
      (w.objects j).map fun obj =>
        { w with
          objects := Function.update (Function.update w.objects i (some (copied obj))) j
            (some (release obj)) }
    else none
  | .assign i j =>
    (w.objects i).bind fun a => (w.objects j).map fun obj =>
      let objects := Function.update w.objects i (some (assigned a obj))
      { w with objects := Function.update objects j ((objects j).map release) }
  | .accept i =>
    (w.objects i).bind fun a => (listens a).bind fun x =>
      if x ∈ w.closed then none
      else some ⟨Function.update w.objects i (some (accepted a w.opened)), w.opened + 1, w.closed⟩
  | .destroy i =>
    (w.objects i).map fun a =>
      { w with
        objects := Function.update w.objects i none
        closed := w.closed ++ if owner a then held a else [] }

def World.Open (w : World α) (x : ℕ) : Prop := x < w.opened ∧ x ∉ w.closed

/-- The object `i` is to close the resource. -/
def World.Owns (w : World α) (i x : ℕ) : Prop :=
  ∃ a, w.objects i = some a ∧ owner a = true ∧ x ∈ held a

/-- What is open has one owner, nothing is closed twice, and when there are no objects everything
has been closed. -/
structure Unique (w : World α) : Prop where
  owned : ∀ x, w.Open x → ∃! i, w.Owns i x
  once : w.closed.Nodup
  all : (∀ i, w.objects i = none) → ∀ x < w.opened, w.closed.count x = 1

/-- The steps that keep ownership unique. -/
def Keeps (w : World α) : Event (Failure α) → Prop
  | .construct _ => True
  | .connect _ none => True
  | .connect _ (some f) => opens f = true → closes f = true
  | .copy _ j => ∀ obj, w.objects j = some obj → owner obj = true ∨ ∀ x ∈ held obj, ¬ w.Open x
  | .assign i j => ∀ a obj, w.objects i = some a → w.objects j = some obj →
    if i = j ∨ (owner a = true ∧ owner obj = true) then owner a = true → ∀ x ∈ held a, ¬ w.Open x
    else if owner a = true then ∀ x, w.Open x → (x ∈ held a ↔ x ∈ held obj)
    else owner obj = true → ∀ x ∈ held obj, ¬ w.Open x
  | .accept i => ∀ a, w.objects i = some a → owner a = true
  | .destroy i => ∀ a, w.objects i = some a → owner a = true → ∀ x ∈ held a, x ∉ w.closed

/-! ## What every step keeps -/

/-- Only what has been opened is held or closed, and no object holds anything twice. -/
structure Fits (w : World α) : Prop where
  held : ∀ i a, w.objects i = some a → (held a).Nodup ∧ ∀ x ∈ held a, x < w.opened
  closed : ∀ x ∈ w.closed, x < w.opened

theorem fits_init : Fits (World.init : World α) :=
  ⟨fun _ _ h => absurd h (Option.some_ne_none _).symm, fun _ h => absurd h List.not_mem_nil⟩

variable {w w' : World α} {i j x : ℕ} {a : α}

/-- An object that is changed to one that fits. -/
theorem Fits.update {objects : ℕ → Option α} {n : ℕ} {o : Option α}
    (H : ∀ k b, objects k = some b → (Handle.held b).Nodup ∧ ∀ x ∈ Handle.held b, x < n)
    (ho : ∀ b, o = some b → (Handle.held b).Nodup ∧ ∀ x ∈ Handle.held b, x < n) (k : ℕ) (b : α)
    (h : Function.update objects i o k = some b) :
    (Handle.held b).Nodup ∧ ∀ x ∈ Handle.held b, x < n := by
  by_cases hk : k = i
  · rw [hk, Function.update_self] at h
    exact ho b h
  · rw [Function.update_of_ne hk] at h
    exact H k b h

theorem Fits.step (H : Fits w) {e : Event (Failure α)} (hs : step w e = some w') : Fits w' := by
  have hsucc : ∀ k b, w.objects k = some b →
      (Handle.held b).Nodup ∧ ∀ x ∈ Handle.held b, x < w.opened + 1 := by
    intro k b hb
    exact ⟨(H.held k b hb).1, fun x hx => ((H.held k b hb).2 x hx).trans (Nat.lt_succ_self _)⟩
  cases e with
  | construct i =>
    obtain ⟨-, hs⟩ := Option.ite_none_right_eq_some.1 hs
    obtain rfl := Option.some.inj hs
    refine ⟨Fits.update H.held fun b hb => ?_, H.closed⟩
    obtain rfl := Option.some.inj hb
    simp
  | connect i failure =>
    cases failure with
    | none =>
      obtain ⟨-, hs⟩ := Option.ite_none_right_eq_some.1 hs
      obtain rfl := Option.some.inj hs
      refine ⟨Fits.update hsucc fun b hb => ?_,
        fun x hx => (H.closed x hx).trans (Nat.lt_succ_self _)⟩
      obtain rfl := Option.some.inj hb
      simp
    | some f =>
      obtain ⟨-, hs⟩ := Option.ite_none_right_eq_some.1 hs
      obtain rfl := Option.some.inj hs
      have hle : w.opened ≤ if opens f = true then w.opened + 1 else w.opened := by
        split_ifs <;> omega
      refine ⟨fun k b hb => ⟨(H.held k b hb).1, fun x hx => ((H.held k b hb).2 x hx).trans_le hle⟩,
        fun x hx => ?_⟩
      rcases List.mem_append.1 hx with hx | hx
      · exact (H.closed x hx).trans_le hle
      · split_ifs at hx with hc
        · rw [List.mem_singleton.1 hx]
          simp [closes_opens f hc]
        · exact absurd hx List.not_mem_nil
  | copy i j =>
    obtain ⟨-, hs⟩ := Option.ite_none_right_eq_some.1 hs
    obtain ⟨obj, hobj, rfl⟩ := Option.map_eq_some_iff.1 hs
    have hheld := H.held j obj hobj
    refine ⟨Fits.update (Fits.update H.held fun b hb => ?_) fun b hb => ?_, H.closed⟩
    · obtain rfl := Option.some.inj hb
      rwa [held_copied]
    · obtain rfl := Option.some.inj hb
      rwa [held_release]
  | assign i j =>
    obtain ⟨a, ha, hs⟩ := Option.bind_eq_some_iff.1 hs
    obtain ⟨obj, hobj, rfl⟩ := Option.map_eq_some_iff.1 hs
    have hfirst := Fits.update H.held (i := i) (o := some (assigned a obj)) fun b hb => by
      obtain rfl := Option.some.inj hb
      rw [held_assigned]
      exact H.held j obj hobj
    refine ⟨Fits.update hfirst fun b hb => ?_, H.closed⟩
    obtain ⟨c, hc, rfl⟩ := Option.map_eq_some_iff.1 hb
    rw [held_release]
    exact hfirst j c hc
  | accept i =>
    obtain ⟨a, ha, hs⟩ := Option.bind_eq_some_iff.1 hs
    obtain ⟨x, hx, hs⟩ := Option.bind_eq_some_iff.1 hs
    obtain ⟨-, hs⟩ := Option.ite_none_left_eq_some.1 hs
    obtain rfl := Option.some.inj hs
    have hperm := held_accepted a w.opened (Option.isSome_iff_exists.2 ⟨x, hx⟩)
    refine ⟨Fits.update hsucc fun b hb => ?_,
      fun x hx => (H.closed x hx).trans (Nat.lt_succ_self _)⟩
    obtain rfl := Option.some.inj hb
    obtain ⟨h1, h2⟩ := H.held i a ha
    rw [hperm.nodup_iff, List.nodup_cons]
    refine ⟨⟨fun h => absurd (h2 _ h) (lt_irrefl _), h1⟩, fun x hx => ?_⟩
    rcases List.mem_cons.1 (hperm.mem_iff.1 hx) with rfl | hx
    · exact Nat.lt_succ_self _
    · exact (h2 x hx).trans (Nat.lt_succ_self _)
  | destroy i =>
    obtain ⟨a, ha, rfl⟩ := Option.map_eq_some_iff.1 hs
    refine ⟨Fits.update H.held fun b hb => absurd hb (Option.some_ne_none _).symm, fun x hx => ?_⟩
    rcases List.mem_append.1 hx with hx | hx
    · exact H.closed x hx
    · split_ifs at hx
      · exact (H.held i a ha).2 x hx
      · exact absurd hx List.not_mem_nil

/-! ## What a step that keeps ownership unique does -/

theorem unique_init : Unique (World.init : World α) :=
  ⟨fun _ h => absurd h.1 (Nat.not_lt_zero _), List.nodup_nil,
    fun _ _ h => absurd h (Nat.not_lt_zero _)⟩

/-- When there are no objects, what is open has no owner. -/
theorem unique_iff :
    Unique w ↔ (∀ x, w.Open x → ∃! i, w.Owns i x) ∧ w.closed.Nodup := by
  refine ⟨fun h => ⟨h.owned, h.once⟩, fun ⟨h1, h2⟩ => ⟨h1, h2, fun hnone x hx => ?_⟩⟩
  refine List.count_eq_one_of_mem h2 (by_contra fun hc => ?_)
  obtain ⟨i, ⟨a, ha, -⟩, -⟩ := h1 x ⟨hx, hc⟩
  rw [hnone i] at ha
  exact absurd ha (Option.some_ne_none _).symm

/-- One more resource is open, which the object `i` holds, as an owner or not. -/
theorem unique_opened (H : Fits w) (hu : Unique w) {p : Prop}
    (ho : w'.opened = w.opened + 1) (hc : w'.closed = w.closed)
    (hown : ∀ k x, w'.Owns k x ↔ w.Owns k x ∨ p ∧ k = i ∧ x = w.opened) : Unique w' ↔ p := by
  have hnew : ¬ ∃ k, w.Owns k w.opened := by
    rintro ⟨k, a, ha, -, hx⟩
    exact lt_irrefl _ ((H.held k a ha).2 _ hx)
  rw [unique_iff, hc]
  constructor
  · rintro ⟨h, -⟩
    obtain ⟨k, hk, -⟩ := h w.opened
      ⟨ho ▸ Nat.lt_succ_self _, fun h => lt_irrefl _ (H.closed _ (hc ▸ h))⟩
    rcases (hown k _).1 hk with hk | hk
    · exact absurd ⟨k, hk⟩ hnew
    · exact hk.1
  · intro hp
    refine ⟨fun x hx => ?_, hu.once⟩
    rcases eq_or_ne x w.opened with rfl | hne
    · refine ⟨i, (hown i _).2 (.inr ⟨hp, rfl, rfl⟩), fun k hk => ?_⟩
      rcases (hown k _).1 hk with hk | hk
      · exact absurd ⟨k, hk⟩ hnew
      · exact hk.2.1
    · have hlt : x < w.opened := by
        have := hx.1
        omega
      obtain ⟨k, hk, huniq⟩ := hu.owned x ⟨hlt, hc ▸ hx.2⟩
      refine ⟨k, (hown k x).2 (.inl hk), fun k' hk' => ?_⟩
      rcases (hown k' x).1 hk' with hk' | hk'
      · exact huniq k' hk'
      · exact absurd hk'.2.2 hne

/-- The object `i` becomes the owner of other resources, and `j` the owner of none. -/
theorem unique_moved (hu : Unique w) {p : ℕ → Prop}
    (ho : w'.opened = w.opened) (hc : w'.closed = w.closed)
    (hown : ∀ k x, w'.Owns k x ↔ k = i ∧ p x ∨ (k ≠ i ∧ k ≠ j) ∧ w.Owns k x) :
    Unique w' ↔ ∀ x, w.Open x → (w.Owns i x ∨ w.Owns j x ↔ p x) := by
  have hopen : ∀ x, w'.Open x ↔ w.Open x := by
    intro x
    rw [World.Open, World.Open, ho, hc]
  rw [unique_iff, hc]
  constructor
  · rintro ⟨h, -⟩ x hx
    obtain ⟨k, hk, huniq⟩ := h x ((hopen x).2 hx)
    obtain ⟨k₀, hk₀, huniq₀⟩ := hu.owned x hx
    constructor
    · intro hij
      rcases (hown k x).1 hk with hk | ⟨hne, hk⟩
      · exact hk.2
      · -- `k` owns it before as well, so it is `i` or `j`
        rcases hij with hi | hj
        · exact absurd ((huniq₀ k hk).trans (huniq₀ i hi).symm) hne.1
        · exact absurd ((huniq₀ k hk).trans (huniq₀ j hj).symm) hne.2
    · intro hp
      by_contra hij
      push Not at hij
      have hne : k₀ ≠ i ∧ k₀ ≠ j := ⟨fun h => hij.1 (h ▸ hk₀), fun h => hij.2 (h ▸ hk₀)⟩
      have h1 := huniq k₀ ((hown k₀ x).2 (.inr ⟨hne, hk₀⟩))
      have h2 := huniq i ((hown i x).2 (.inl ⟨rfl, hp⟩))
      exact hne.1 (h1.trans h2.symm)
  · refine fun h => ⟨fun x hx => ?_, hu.once⟩
    rw [hopen] at hx
    obtain ⟨k₀, hk₀, huniq₀⟩ := hu.owned x hx
    by_cases hp : p x
    · refine ⟨i, (hown i x).2 (.inl ⟨rfl, hp⟩), fun k hk => ?_⟩
      rcases (hown k x).1 hk with hk | ⟨hne, hk⟩
      · exact hk.1
      · rcases (h x hx).2 hp with hi | hj
        · exact absurd ((huniq₀ k hk).trans (huniq₀ i hi).symm) hne.1
        · exact absurd ((huniq₀ k hk).trans (huniq₀ j hj).symm) hne.2
    · have hij := mt (h x hx).1 hp
      push Not at hij
      refine ⟨k₀, (hown k₀ x).2 (.inr ⟨⟨fun h => hij.1 (h ▸ hk₀), fun h => hij.2 (h ▸ hk₀)⟩, hk₀⟩),
        fun k hk => ?_⟩
      rcases (hown k x).1 hk with hk | ⟨-, hk⟩
      · exact absurd hk.2 hp
      · exact huniq₀ k hk

/-- The destructor of an owner closes what it holds. -/
theorem unique_closing (H : Fits w) (hu : Unique w) (ha : w.objects i = some a)
    (ho : w'.opened = w.opened) (hc : w'.closed = w.closed ++ if owner a then held a else [])
    (hown : ∀ k x, w'.Owns k x ↔ k ≠ i ∧ w.Owns k x) :
    Unique w' ↔ (owner a = true → ∀ x ∈ held a, x ∉ w.closed) := by
  rw [unique_iff, hc]
  cases how : owner a with
  | false =>
    simp only [Bool.false_eq_true, if_false, List.append_nil, false_implies, iff_true]
    refine ⟨fun x hx => ?_, hu.once⟩
    obtain ⟨k, hk, huniq⟩ := hu.owned x
      ⟨ho ▸ hx.1, fun h => hx.2 (by rw [hc, how]; exact List.mem_append_left _ h)⟩
    have hne : k ≠ i := by
      rintro rfl
      obtain ⟨b, hb, hob, -⟩ := hk
      obtain rfl := Option.some.inj (ha.symm.trans hb)
      exact Bool.false_ne_true (how.symm.trans hob)
    exact ⟨k, (hown k x).2 ⟨hne, hk⟩, fun k' hk' => huniq k' ((hown k' x).1 hk').2⟩
  | true =>
    simp only [if_true, true_implies, List.nodup_append]
    constructor
    · rintro ⟨-, -, -, h⟩ x hx hx'
      exact h x hx' x hx rfl
    · intro h
      refine ⟨fun x hx => ?_, hu.once, (H.held i a ha).1, fun x hx y hy hxy => h y hy (hxy ▸ hx)⟩
      have hx2 : x ∉ w.closed ++ held a := by
        have := hx.2
        rwa [hc, how, if_pos rfl] at this
      obtain ⟨k, hk, huniq⟩ := hu.owned x ⟨ho ▸ hx.1, fun h => hx2 (List.mem_append_left _ h)⟩
      have hne : k ≠ i := by
        rintro rfl
        obtain ⟨b, hb, -, hxb⟩ := hk
        obtain rfl := Option.some.inj (ha.symm.trans hb)
        exact hx2 (List.mem_append_right _ hxb)
      exact ⟨k, (hown k x).2 ⟨hne, hk⟩, fun k' hk' => huniq k' ((hown k' x).1 hk').2⟩

/-! ## The owners after a step -/

theorem owns_iff (ha : w.objects i = some a) : w.Owns i x ↔ owner a = true ∧ x ∈ held a := by
  constructor
  · rintro ⟨b, hb, h⟩
    obtain rfl := Option.some.inj (ha.symm.trans hb)
    exact h
  · exact fun h => ⟨a, ha, h⟩

theorem not_owns (h : w.objects i = none) : ¬ w.Owns i x := by
  rintro ⟨b, hb, -⟩
  exact absurd (h.symm.trans hb) (Option.some_ne_none _).symm

theorem owns_congr {k : ℕ} (h : w'.objects k = w.objects k) : w'.Owns k x ↔ w.Owns k x := by
  rw [World.Owns, World.Owns, h]

/-- After `j` was assigned to or copied to `i`. -/
theorem owns_moved {b c : α} {k : ℕ} (hi : i ≠ j → w'.objects i = some b)
    (hj : w'.objects j = some c) (hc : owner c = false)
    (hk : ∀ k, k ≠ i → k ≠ j → w'.objects k = w.objects k) :
    w'.Owns k x ↔ k = i ∧ (i ≠ j ∧ owner b = true ∧ x ∈ held b)
      ∨ (k ≠ i ∧ k ≠ j) ∧ w.Owns k x := by
  have hnot : ¬ w'.Owns j x := by
    rw [owns_iff hj, hc]
    exact fun h => Bool.false_ne_true h.1
  by_cases hkj : k = j
  · subst hkj
    refine iff_of_false hnot ?_
    rintro (⟨rfl, h, -⟩ | ⟨⟨-, h⟩, -⟩)
    · exact h rfl
    · exact h rfl
  · by_cases hki : k = i
    · subst hki
      rw [owns_iff (hi hkj)]
      exact ⟨fun h => .inl ⟨rfl, hkj, h⟩,
        fun h => h.elim (fun h => h.2.2) fun h => absurd rfl h.1.1⟩
    · rw [owns_congr (hk k hki hkj)]
      exact ⟨fun h => .inr ⟨⟨hki, hkj⟩, h⟩, fun h => h.elim (fun h => absurd h.1 hki) fun h => h.2⟩

theorem unique_congr (ho : w'.opened = w.opened) (hc : w'.closed = w.closed)
    (hown : ∀ k x, w'.Owns k x ↔ w.Owns k x) : Unique w' ↔ Unique w := by
  simp only [unique_iff, World.Open, ho, hc, hown]

/-- A resource that was opened and closed at once. -/
theorem unique_closed (H : Fits w) (hu : Unique w) (ho : w'.opened = w.opened + 1)
    (hc : w'.closed = w.closed ++ [w.opened]) (hown : ∀ k x, w'.Owns k x ↔ w.Owns k x) :
    Unique w' := by
  rw [unique_iff, hc]
  constructor
  · intro x hx
    simp only [World.Open, ho, hc, List.mem_append, List.mem_singleton, not_or] at hx
    simp only [hown]
    exact hu.owned x ⟨by omega, hx.2.1⟩
  · rw [List.nodup_append]
    refine ⟨hu.once, List.nodup_singleton _, fun x hx y hy hxy => ?_⟩
    rw [List.mem_singleton.1 hy] at hxy
    exact lt_irrefl _ (H.closed _ (hxy ▸ hx))

theorem unique_construct (hu : Unique w)
    (hs : step w (.construct i) = some w') : Unique w' ↔ Keeps w (.construct i) := by
  obtain ⟨hi, hs⟩ := Option.ite_none_right_eq_some.1 hs
  have hw := Option.some.inj hs
  have hobjs : w'.objects = Function.update w.objects i (some empty) :=
    (congrArg World.objects hw).symm
  rw [Option.isNone_iff_eq_none] at hi
  have hown : ∀ k x, w'.Owns k x ↔ w.Owns k x := by
    intro k x
    rcases eq_or_ne k i with rfl | hk
    · rw [owns_iff (a := empty) (by rw [hobjs, Function.update_self]), held_empty]
      exact iff_of_false (fun h => absurd h.2 List.not_mem_nil) (not_owns hi)
    · exact owns_congr (by rw [hobjs, Function.update_of_ne hk])
  have hopened : w'.opened = w.opened := (congrArg World.opened hw).symm
  have hclosed : w'.closed = w.closed := (congrArg World.closed hw).symm
  exact iff_of_true ((unique_congr hopened hclosed hown).2 hu) trivial

theorem unique_connect (H : Fits w) (hu : Unique w) {failure : Option (Failure α)}
    (hs : step w (.connect i failure) = some w') : Unique w' ↔ Keeps w (.connect i failure) := by
  cases failure with
  | none =>
    obtain ⟨hi, hs⟩ := Option.ite_none_right_eq_some.1 hs
    have hw := Option.some.inj hs
    have hobjs : w'.objects = Function.update w.objects i (some (connected w.opened)) :=
      (congrArg World.objects hw).symm
    rw [Option.isNone_iff_eq_none] at hi
    refine unique_opened (i := i) H hu (congrArg World.opened hw).symm
      (congrArg World.closed hw).symm fun k x => ?_
    rcases eq_or_ne k i with rfl | hk
    · rw [owns_iff (by rw [hobjs, Function.update_self]), held_connected, owner_connected,
        List.mem_singleton]
      exact ⟨fun h => .inr ⟨trivial, rfl, h.2⟩,
        fun h => ⟨rfl, h.elim (fun h => absurd h (not_owns hi)) fun h => h.2.2⟩⟩
    · have hsame : w'.Owns k x ↔ w.Owns k x :=
        owns_congr (by rw [hobjs, Function.update_of_ne hk])
      rw [hsame]
      exact ⟨.inl, fun h => h.elim id fun h => absurd h.2.1 hk⟩
  | some f =>
    obtain ⟨-, hs⟩ := Option.ite_none_right_eq_some.1 hs
    have hw := Option.some.inj hs
    have hown : ∀ k x, w'.Owns k x ↔ w.Owns k x :=
      fun k x => owns_congr (congrFun (congrArg World.objects hw).symm k)
    have hopened : w'.opened = if opens f then w.opened + 1 else w.opened :=
      (congrArg World.opened hw).symm
    have hclosed : w'.closed = w.closed ++ if closes f then [w.opened] else [] :=
      (congrArg World.closed hw).symm
    cases ho : opens f with
    | false =>
      have hc : closes f = false := by
        by_contra hc
        exact Bool.false_ne_true (ho.symm.trans (closes_opens f (Bool.not_eq_false _ ▸ hc)))
      rw [ho, if_neg Bool.false_ne_true] at hopened
      rw [hc, if_neg Bool.false_ne_true, List.append_nil] at hclosed
      exact iff_of_true ((unique_congr hopened hclosed hown).2 hu)
        fun h => absurd (ho.symm.trans h) Bool.false_ne_true
    | true =>
      rw [ho, if_pos rfl] at hopened
      cases hc : closes f with
      | false =>
        rw [hc, if_neg Bool.false_ne_true, List.append_nil] at hclosed
        rw [unique_opened (i := i) (p := False) H hu hopened hclosed fun k x => by
          rw [hown, false_and, or_false]]
        exact iff_of_false id fun h => Bool.false_ne_true (hc.symm.trans (h ho))
      | true =>
        rw [hc, if_pos rfl] at hclosed
        exact iff_of_true (unique_closed H hu hopened hclosed hown) fun _ => hc

theorem unique_copy (hu : Unique w)
    (hs : step w (.copy i j) = some w') : Unique w' ↔ Keeps w (.copy i j) := by
  obtain ⟨hi, hs⟩ := Option.ite_none_right_eq_some.1 hs
  obtain ⟨obj, hobj, hw⟩ := Option.map_eq_some_iff.1 hs
  rw [Option.isNone_iff_eq_none] at hi
  have hij : i ≠ j := by
    rintro rfl
    exact absurd (hi.symm.trans hobj) (Option.some_ne_none _).symm
  have hobjs : w'.objects = Function.update (Function.update w.objects i (some (copied obj))) j
      (some (release obj)) := (congrArg World.objects hw).symm
  have hown : ∀ k x, w'.Owns k x ↔ k = i ∧ (i ≠ j ∧ owner (copied obj) = true
      ∧ x ∈ held (copied obj)) ∨ (k ≠ i ∧ k ≠ j) ∧ w.Owns k x :=
    fun k x => owns_moved (fun _ => by rw [hobjs, Function.update_of_ne hij, Function.update_self])
      (by rw [hobjs, Function.update_self]) (owner_release obj)
      fun k h1 h2 => by rw [hobjs, Function.update_of_ne h2, Function.update_of_ne h1]
  rw [unique_moved hu (congrArg World.opened hw).symm (congrArg World.closed hw).symm hown]
  simp only [held_copied, owner_copied, owns_iff hobj, not_owns hi, false_or, true_and, ne_eq, hij,
    not_false_eq_true, and_iff_right_iff_imp]
  constructor
  · intro h obj' hobj'
    obtain rfl := Option.some.inj (hobj.symm.trans hobj')
    by_cases how : owner obj = true
    · exact .inl how
    · exact .inr fun x hx ho => how (h x ho hx)
  · intro h x ho hx
    exact (h obj hobj).resolve_right fun hn => hn x hx ho

theorem unique_assign (hu : Unique w)
    (hs : step w (.assign i j) = some w') : Unique w' ↔ Keeps w (.assign i j) := by
  obtain ⟨a, ha, hs⟩ := Option.bind_eq_some_iff.1 hs
  obtain ⟨obj, hobj, hw⟩ := Option.map_eq_some_iff.1 hs
  have hobjs : w'.objects = Function.update (Function.update w.objects i (some (assigned a obj))) j
      ((Function.update w.objects i (some (assigned a obj)) j).map release) :=
    (congrArg World.objects hw).symm
  obtain ⟨c, hc, hj⟩ : ∃ c, owner c = false ∧ w'.objects j = some c := by
    rcases eq_or_ne j i with rfl | hji
    · exact ⟨_, owner_release _, by rw [hobjs, Function.update_self, Function.update_self]; rfl⟩
    · refine ⟨release obj, owner_release _, ?_⟩
      rw [hobjs, Function.update_self, Function.update_of_ne hji, hobj]
      rfl
  have hown : ∀ k x, w'.Owns k x ↔ k = i ∧ (i ≠ j ∧ owner (assigned a obj) = true
      ∧ x ∈ held (assigned a obj)) ∨ (k ≠ i ∧ k ≠ j) ∧ w.Owns k x :=
    fun k x => owns_moved (fun hij => by
        rw [hobjs, Function.update_of_ne hij, Function.update_self]) hj hc
      fun k h1 h2 => by rw [hobjs, Function.update_of_ne h2, Function.update_of_ne h1]
  rw [unique_moved hu (congrArg World.opened hw).symm (congrArg World.closed hw).symm hown]
  simp only [held_assigned, owner_assigned, owns_iff ha, owns_iff hobj]
  have hkeeps : Keeps w (.assign i j) ↔
      if i = j ∨ (owner a = true ∧ owner obj = true) then
        owner a = true → ∀ x ∈ held a, ¬ w.Open x
      else if owner a = true then ∀ x, w.Open x → (x ∈ held a ↔ x ∈ held obj)
      else owner obj = true → ∀ x ∈ held obj, ¬ w.Open x := by
    refine ⟨fun h => h a obj ha hobj, fun h b obj' hb hobj' => ?_⟩
    obtain rfl := Option.some.inj (ha.symm.trans hb)
    obtain rfl := Option.some.inj (hobj.symm.trans hobj')
    exact h
  rw [hkeeps]
  rcases eq_or_ne i j with rfl | hij
  · obtain rfl := Option.some.inj (ha.symm.trans hobj)
    simp only [true_or, if_true, or_self, ne_eq, not_true_eq_false, false_and, iff_false]
    exact ⟨fun h ho x hx hopen => h x hopen ⟨ho, hx⟩, fun h x hopen hx => h hx.1 x hx.2 hopen⟩
  · -- an open resource that `j` owns is not held by `i` if that is an owner too
    have hone : owner a = true → owner obj = true → ∀ x, w.Open x → x ∈ held a →
        x ∉ held obj := by
      intro h1 h2 x hopen hxa hxo
      obtain ⟨k, -, huniq⟩ := hu.owned x hopen
      exact hij ((huniq i ⟨a, ha, h1, hxa⟩).trans (huniq j ⟨obj, hobj, h2, hxo⟩).symm)
    cases h1 : owner a <;> cases h2 : owner obj <;>
      simp only [hij, false_or, Bool.false_eq_true, false_and, and_false, if_false, or_false,
        false_implies, and_self, if_true, true_and, and_true, ne_eq, not_false_eq_true,
        true_implies, iff_false, iff_self, implies_true]
    · exact ⟨fun h x hx hopen => h x hopen hx, fun h x hopen hx => h x hx hopen⟩
    · refine ⟨fun h x hx hopen => ?_, fun h x hopen => ?_⟩
      · exact hone h1 h2 x hopen hx ((h x hopen).1 (.inl hx))
      · exact or_iff_right fun hx => h x hx hopen

theorem unique_accept (H : Fits w) (hu : Unique w)
    (hs : step w (.accept i) = some w') : Unique w' ↔ Keeps w (.accept i) := by
  obtain ⟨a, ha, hs⟩ := Option.bind_eq_some_iff.1 hs
  obtain ⟨x, hx, hs⟩ := Option.bind_eq_some_iff.1 hs
  have hperm := held_accepted a w.opened (Option.isSome_iff_exists.2 ⟨x, hx⟩)
  obtain ⟨-, hs⟩ := Option.ite_none_left_eq_some.1 hs
  have hw := Option.some.inj hs
  have hobjs : w'.objects = Function.update w.objects i (some (accepted a w.opened)) :=
    (congrArg World.objects hw).symm
  rw [unique_opened (i := i) (p := owner a = true) H hu (congrArg World.opened hw).symm
    (congrArg World.closed hw).symm fun k x => ?_]
  · refine ⟨fun h b hb => ?_, fun h => h a ha⟩
    obtain rfl := Option.some.inj (ha.symm.trans hb)
    exact h
  · rcases eq_or_ne k i with rfl | hk
    · rw [owns_iff (by rw [hobjs, Function.update_self]), owns_iff ha, owner_accepted,
        hperm.mem_iff, List.mem_cons]
      tauto
    · have hsame : w'.Owns k x ↔ w.Owns k x :=
        owns_congr (by rw [hobjs, Function.update_of_ne hk])
      rw [hsame]
      exact ⟨.inl, fun h => h.elim id fun h => absurd h.2.1 hk⟩

theorem unique_destroy (H : Fits w) (hu : Unique w)
    (hs : step w (.destroy i) = some w') : Unique w' ↔ Keeps w (.destroy i) := by
  obtain ⟨a, ha, hw⟩ := Option.map_eq_some_iff.1 hs
  have hobjs : w'.objects = Function.update w.objects i none := (congrArg World.objects hw).symm
  rw [unique_closing H hu ha (congrArg World.opened hw).symm (congrArg World.closed hw).symm
    fun k x => ?_]
  · refine ⟨fun h b hb => ?_, fun h => h a ha⟩
    obtain rfl := Option.some.inj (ha.symm.trans hb)
    exact h
  · rcases eq_or_ne k i with rfl | hk
    · exact iff_of_false (not_owns (by rw [hobjs, Function.update_self])) fun h => h.1 rfl
    · have hsame : w'.Owns k x ↔ w.Owns k x :=
        owns_congr (by rw [hobjs, Function.update_of_ne hk])
      rw [hsame]
      exact ⟨fun h => ⟨hk, h⟩, fun h => h.2⟩

/-- One step. -/
theorem unique_step (H : Fits w) (hu : Unique w) {e : Event (Failure α)}
    (hs : step w e = some w') : Unique w' ↔ Keeps w e := by
  cases e with
  | construct i => exact unique_construct hu hs
  | connect i failure => exact unique_connect H hu hs
  | copy i j => exact unique_copy hu hs
  | assign i j => exact unique_assign hu hs
  | accept i => exact unique_accept H hu hs
  | destroy i => exact unique_destroy H hu hs

/-- Ownership is unique after each step of a run just when each step of the run keeps it. -/
theorem unique_run {es : List (Event (Failure α))} (hr : run step World.init es = some w) :
    (∀ es', es' <+: es → ∀ w₁ : World α, run step World.init es' = some w₁ → Unique w₁)
      ↔ Meets step Keeps (World.init : World α) es :=
  meets_iff (fun _ _ _ H hs => H.step hs) (fun _ _ _ H hu hs => unique_step H hu hs) hr fits_init
    unique_init

end Machine

end Ownership
