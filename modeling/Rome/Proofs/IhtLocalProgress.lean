import Rome.Proofs.IhtLocalInv

/-!
# Locks of the local table are released

A thread in a call can always take its next step, if `malloc` finds the blocks for it, and one that
has locked a bucket stores the lock after four steps of its own at most, whatever the others do
meanwhile: no thread waits for a lock that is with a thread that is not run.
-/

namespace Rome.Carumap

open HashTrie Machine

variable {ι K V : Type*}

/-- The steps a thread takes with its bucket locked before it stores the lock. -/
def Phase.turns : Phase K V → ℕ
  | .locked _ _ => 3
  | .rehash _ _ => 2
  | .write _ _ _ _ _ => 1
  | .link _ _ _ _ _ => 1
  | _ => 0

/-- The event is a step of the thread. -/
def ThreadEvent.steps [DecidableEq ι] (t : ι) : ThreadEvent ι K V → Bool
  | .step t' _ _ => t' = t
  | .invoke _ _ => false

/-- The blocks that are allocated. -/
def Heap.used (h : Heap K V) : Set ℕ := {p | h.elist p ≠ none ∨ h.plist p ≠ none}

section Used

variable {P : Params K} {h h' : Heap K V}

theorem Heap.used_setElist (p : ℕ) (e : Option (List (K × V))) :
    (h.setElist p e).used ⊆ Insert.insert p h.used := by
  intro x hx
  by_cases hp : x = p
  · exact .inl hp
  · simp only [Heap.used, Heap.setElist, Function.update_of_ne hp, Set.mem_ofPred_eq] at hx
    exact .inr hx

theorem Heap.used_setPlist (p : ℕ) (bs : List Bucket) :
    (h.setPlist p bs).used ⊆ Insert.insert p h.used := by
  intro x hx
  by_cases hp : x = p
  · exact .inl hp
  · simp only [Heap.used, Heap.setPlist, Function.update_of_ne hp, Set.mem_ofPred_eq] at hx
    exact .inr hx

theorem Heap.finite_setElist (hf : h.used.Finite) (p : ℕ) (e : Option (List (K × V))) :
    (h.setElist p e).used.Finite :=
  (hf.insert p).subset (Heap.used_setElist p e)

theorem Heap.finite_setPlist (hf : h.used.Finite) (p : ℕ) (bs : List Bucket) :
    (h.setPlist p bs).used.Finite :=
  (hf.insert p).subset (Heap.used_setPlist p bs)

theorem rehashLoop_finite {level count : ℕ} {src : List (K × V)} {fresh : List ℕ}
    {bs bs' : List Bucket} (hr : rehashLoop P level count src fresh h bs = some (h', bs'))
    (hf : h.used.Finite) : h'.used.Finite := by
  obtain ⟨hl, hplist⟩ := rehashLoop_eq_some.1 hr
  obtain ⟨_, h1⟩ := spreadLoop_rule
    (I := fun _ _ L _ => (⟨L, h.plist⟩ : Heap K V).used.Finite)
    (fun _ _ _ _ _ _ H _ => Heap.finite_setElist H _ _)
    (fun _ _ _ _ _ H _ => Heap.finite_setElist H _ _) src fresh _ bs hl hf
  rwa [← hplist] at h1

theorem rehash_isSome {parent c d i : ℕ} {fresh : List ℕ} {src : List (K × V)}
    (hs : h.elist (h.bucket parent i).base = some src) (hlen : fresh.length = src.length + 1) :
    (rehash P h parent c d i fresh).isSome := by
  rcases fresh with _ | ⟨p, fresh⟩
  · cases hlen
  rw [List.length_cons, Nat.add_right_cancel_iff] at hlen
  have hloop : (rehashLoop P (d + 1) c src fresh h (makePList (c * 2))).isSome := by
    rw [rehashLoop_eq, Option.isSome_map]
    exact spreadLoop_isSome src fresh _ _ hlen.ge
  obtain ⟨x, hx⟩ := Option.isSome_iff_exists.1 hloop
  simp only [rehash, hs, hx]
  rfl

theorem rehash_finite {parent c d i p : ℕ} {fresh : List ℕ}
    (hr : rehash P h parent c d i fresh = some (h', p)) (hf : h.used.Finite) : h'.used.Finite := by
  unfold rehash at hr
  split at hr
  · split at hr
    · rename_i h₁ bs hl
      obtain ⟨rfl, -⟩ := Prod.mk.inj (Option.some.inj hr)
      exact Heap.finite_setElist (Heap.finite_setPlist (rehashLoop_finite hl hf) _ _) _ _
    · cases hr
  · cases hr

/-- `malloc` can return any number of blocks. -/
theorem Heap.exists_allocatable (hf : h.used.Finite) (n : ℕ) :
    ∃ fresh : List ℕ, fresh.length = n ∧ h.allocatable fresh = true := by
  obtain ⟨F, hF, hn⟩ := (hf.insert 0).infinite_compl.exists_subset_card_eq n
  refine ⟨F.toList, by rw [Finset.length_toList, hn], ?_⟩
  simp only [Heap.allocatable, Bool.and_eq_true, decide_eq_true_eq, List.all_eq_true,
    Option.isNone_iff_eq_none]
  refine ⟨F.nodup_toList, fun p hp => ?_⟩
  have hnot := hF (Finset.mem_coe.2 (Finset.mem_toList.1 hp))
  simp only [Set.mem_compl_iff, Set.mem_insert_iff, Heap.used, Set.mem_ofPred_eq, not_or,
    not_not] at hnot
  exact ⟨⟨hnot.1, hnot.2.1⟩, hnot.2.2⟩

end Used

variable [DecidableEq K]

section Step

variable {P : Params K} {s s' : Threads ι K V} {q h' : Heap K V} {t : ι} {fresh : List ℕ}
  {spurious : Bool} {ph' : Phase K V} {x : ℕ × ℕ}

theorem threadStep_finite {ph : Phase K V} {h : Heap K V}
    (hs : threadStep P h fresh spurious ph = some (h', ph')) (hf : h.used.Finite) :
    h'.used.Finite := by
  have hset : ∀ p b x, (h.setBucket p b x).used.Finite := fun p b x =>
    Heap.finite_setPlist hf _ _
  cases ph with
  | idle => cases hs
  | cas n f =>
    simp only [threadStep] at hs
    split_ifs at hs <;> obtain ⟨rfl, -⟩ := Prod.mk.inj (Option.some.inj hs)
    · exact hset _ _ _
    · exact hf
    · exact hf
  | locked n f =>
    simp only [threadStep, lockedStep] at hs
    split_ifs at hs
    · split at hs
      · split_ifs at hs
        obtain ⟨rfl, -⟩ := Prod.mk.inj (Option.some.inj hs)
        exact Heap.finite_setElist hf _ _
      · cases hs
      · obtain ⟨rfl, -⟩ := Prod.mk.inj (Option.some.inj hs)
        exact hf
    · split at hs
      · cases hs
      · split at hs <;> obtain ⟨rfl, -⟩ := Prod.mk.inj (Option.some.inj hs) <;> exact hf
  | rehash n f =>
    simp only [threadStep] at hs
    split_ifs at hs
    obtain ⟨⟨h₁, p⟩, hr, he⟩ := Option.map_eq_some_iff.1 hs
    obtain ⟨rfl, -⟩ := Prod.mk.inj he
    exact rehash_finite hr hf
  | write n f e l r =>
    obtain ⟨rfl, -⟩ := Prod.mk.inj (Option.some.inj hs)
    exact Heap.finite_setElist hf _ _
  | link n f base lock r =>
    obtain ⟨rfl, -⟩ := Prod.mk.inj (Option.some.inj hs)
    exact hset _ _ _
  | unlock n f lock r =>
    obtain ⟨rfl, -⟩ := Prod.mk.inj (Option.some.inj hs)
    exact hset _ _ _
  | _ =>
    obtain ⟨rfl, -⟩ := Prod.mk.inj (Option.some.inj hs)
    exact hf

/-- A thread in a call can take its next step. -/
theorem ThreadsInv.enabled (H : ThreadsInv P s q) (hf : s.heap.used.Finite)
    (ht : s.phase t ≠ .idle) :
    ∃ fresh, ∀ spurious, (Carumap.threadStep P s.heap fresh spurious (s.phase t)).isSome := by
  have hok := H.phase t
  cases hph : s.phase t with
  | idle => exact absurd hph ht
  | cas n f =>
    refine ⟨[], fun spurious => ?_⟩
    simp only [Carumap.threadStep]
    split_ifs <;> rfl
  | locked n f =>
    obtain ⟨hframe, hl⟩ := H.locked_bucket hph
    simp only [Carumap.threadStep, lockedStep]
    by_cases hbase : (s.heap.bucket f.curr (f.bucket P)).base = 0
    · obtain ⟨fresh, hlen, ha⟩ := Heap.exists_allocatable hf 1
      obtain ⟨e, rfl⟩ := List.length_eq_one_iff.1 hlen
      refine ⟨[e], fun _ => ?_⟩
      rw [if_pos hbase]
      cases f.call with
      | insert key val => simp [ha]
      | _ => rfl
    · refine ⟨[], fun _ => ?_⟩
      obtain ⟨l, h1, -⟩ := H.sound.leaf _ _ (hframe.has H.sound) (by rw [hl])
        (by rw [hl]; exact hbase)
      rw [hl, H.settled.elist] at h1
      rw [if_neg hbase, h1]
      simp only []
      split <;> rfl
  | rehash n f =>
    rw [hph] at hok
    obtain ⟨hframe, e, l₀, hl, he, h1, -⟩ := hok
    have hset := (H.settled.held t f.curr (f.bucket P) (by rw [hph]; rfl)).2
    rw [hph, hl] at hset
    have hbase : e = (s.heap.bucket f.curr (f.bucket P)).base := congrArg Bucket.base hset
    obtain ⟨fresh, hlen, ha⟩ := Heap.exists_allocatable hf (l₀.length + 1)
    refine ⟨fresh, fun _ => ?_⟩
    rw [H.settled.elist, hbase] at h1
    simp only [Carumap.threadStep, ha, if_true, Option.isSome_map]
    exact rehash_isSome h1 hlen
  | _ => exact ⟨[], fun _ => rfl⟩

/-- A thread that has locked a bucket comes nearer to storing the lock, or stores it. -/
theorem ThreadsInv.countdown (H : ThreadsInv P s q) (hx : (s.phase t).held P = some x)
    (hs : Carumap.threadStep P s.heap fresh spurious (s.phase t) = some (h', ph')) :
    (ph'.held P = none ∧ (h'.bucket x.1 x.2).lock ≠ .eLocked)
      ∨ ph'.held P = some x ∧ ph'.turns < (s.phase t).turns := by
  have hhas := H.settled.has.2 (H.has_of_held (p := x.1) (b := x.2) hx)
  have hok := H.phase t
  cases hph : s.phase t with
  | locked n f =>
    rw [hph] at hs hx
    simp only [Carumap.threadStep, lockedStep] at hs
    right
    split_ifs at hs
    · split at hs
      · split_ifs at hs
        obtain ⟨-, rfl⟩ := Prod.mk.inj (Option.some.inj hs)
        exact ⟨hx, by simp [Phase.turns]⟩
      · cases hs
      · obtain ⟨-, rfl⟩ := Prod.mk.inj (Option.some.inj hs)
        exact ⟨hx, by simp [Phase.turns]⟩
    · split at hs
      · cases hs
      · split at hs <;> obtain ⟨-, rfl⟩ := Prod.mk.inj (Option.some.inj hs) <;>
          exact ⟨hx, by simp [Phase.turns]⟩
  | write n f e l r =>
    rw [hph] at hs hx
    obtain ⟨-, rfl⟩ := Prod.mk.inj (Option.some.inj hs)
    exact .inr ⟨hx, by simp [Phase.turns]⟩
  | rehash n f =>
    rw [hph] at hs hx
    simp only [Carumap.threadStep] at hs
    split_ifs at hs
    obtain ⟨⟨h₁, p⟩, -, he⟩ := Option.map_eq_some_iff.1 hs
    obtain ⟨-, rfl⟩ := Prod.mk.inj he
    exact .inr ⟨hx, by simp [Phase.turns]⟩
  | link n f base lock r =>
    rw [hph] at hs hx
    obtain ⟨-, rfl⟩ := Prod.mk.inj (Option.some.inj hs)
    exact .inr ⟨hx, by simp [Phase.turns]⟩
  | unlock n f lock r =>
    rw [hph] at hs hx hok
    obtain ⟨rfl, rfl⟩ := Prod.mk.inj (Option.some.inj hs)
    obtain rfl := Option.some.inj hx
    refine .inl ⟨by cases r <;> rfl, ?_⟩
    rw [Heap.setLock, Heap.bucket_setBucket_self hhas]
    rcases hok.2.2 with ⟨rfl, -⟩ | ⟨rfl, -⟩ <;> simp
  | _ => simp [hph, Phase.held] at hx

end Step

section Run

variable [DecidableEq ι] {P : Params K} {s s' : Threads ι K V}

theorem threadsStep_finite {ev : ThreadEvent ι K V} (hs : threadsStep P s ev = some s')
    (hf : s.heap.used.Finite) : s'.heap.used.Finite := by
  cases ev with
  | invoke t c =>
    simp only [threadsStep] at hs
    split at hs
    · obtain rfl := Option.some.inj hs
      exact hf
    · cases hs
  | step t fresh spurious =>
    obtain ⟨⟨h', ph'⟩, hstep, rfl⟩ := Option.map_eq_some_iff.1 hs
    exact threadStep_finite hstep hf

/-- One step of any thread, while `t` has locked the bucket `x`. -/
theorem ThreadsInv.step_held {q : Heap K V} {t : ι} {x : ℕ × ℕ} (H : ThreadsInv P s q)
    (hx : (s.phase t).held P = some x) {ev : ThreadEvent ι K V}
    (hs : threadsStep P s ev = some s') :
    ((s'.phase t).held P = none ∧ (s'.heap.bucket x.1 x.2).lock ≠ .eLocked)
      ∨ (s'.phase t).held P = some x ∧ (s'.phase t).turns ≤ (s.phase t).turns
        ∧ (ev.steps t = true → (s'.phase t).turns < (s.phase t).turns) := by
  cases ev with
  | invoke t' c =>
    simp only [threadsStep] at hs
    split at hs
    · rename_i hph
      obtain rfl := Option.some.inj hs
      have hne : t ≠ t' := by
        rintro rfl
        simp [hph, Phase.held] at hx
      simp only [Function.update_of_ne hne]
      exact .inr ⟨hx, le_rfl, fun h => absurd h Bool.false_ne_true⟩
    · cases hs
  | step t' fresh spurious =>
    obtain ⟨⟨h', ph'⟩, hstep, rfl⟩ := Option.map_eq_some_iff.1 hs
    by_cases ht : t' = t
    · subst ht
      simp only [Function.update_self]
      rcases H.countdown hx hstep with h1 | ⟨h1, h2⟩
      · exact .inl h1
      · exact .inr ⟨h1, h2.le, fun _ => h2⟩
    · simp only [Function.update_of_ne (Ne.symm ht)]
      exact .inr ⟨hx, le_rfl, fun h => absurd (of_decide_eq_true h) ht⟩

/-- In every state the threads come to, each thread in a call can take its next step, and a thread
that has locked a bucket has stored the lock again before it has taken more than four of its own. -/
theorem carumap_locks_released (P : Params K) (es : List (ThreadEvent ι K V)) (s : Threads ι K V)
    (hr : run (threadsStep P) (threadsInit P) es = some s) :
    (∀ t, s.phase t ≠ .idle →
        ∃ fresh, ∀ spurious, ∃ s', threadsStep P s (.step t fresh spurious) = some s')
      ∧ ∀ t x, (s.phase t).held P = some x → ∀ es' s', run (threadsStep P) s es' = some s' →
        4 ≤ es'.countP (ThreadEvent.steps t) →
        ∃ es₁ s₁, es₁ <+: es' ∧ run (threadsStep P) s es₁ = some s₁
          ∧ (s₁.phase t).held P = none ∧ (s₁.heap.bucket x.1 x.2).lock ≠ .eLocked := by
  obtain ⟨⟨q, H⟩, hf⟩ : (∃ q, ThreadsInv P s q) ∧ s.heap.used.Finite := by
    refine run_inv' (I := fun s => (∃ q, ThreadsInv P s q) ∧ s.heap.used.Finite) ?_ hr
      ⟨⟨_, threadsInv_init P⟩, ?_⟩
    · rintro s ev s' ⟨⟨q, H⟩, hf⟩ hs
      exact ⟨H.step hs, threadsStep_finite hs hf⟩
    refine Set.Finite.subset (Set.finite_singleton P.root) fun p hp => ?_
    by_contra hne
    simp [Heap.used, threadsInit, init, Function.update_of_ne hne] at hp
  refine ⟨fun t ht => ?_, fun t x hx es' s' hr' hc => ?_⟩
  · obtain ⟨fresh, hen⟩ := H.enabled hf ht
    refine ⟨fresh, fun spurious => ?_⟩
    obtain ⟨⟨h', ph'⟩, hs⟩ := Option.isSome_iff_exists.1 (hen spurious)
    exact ⟨_, by rw [threadsStep, hs]; rfl⟩
  · have hturns : (s.phase t).turns ≤ 3 := by
      cases s.phase t <;> simp [Phase.turns]
    refine run_until (I := fun s => (∃ q, ThreadsInv P s q) ∧ (s.phase t).held P = some x)
      (Q := fun s => (s.phase t).held P = none ∧ (s.heap.bucket x.1 x.2).lock ≠ .eLocked)
      (m := fun s => (s.phase t).turns) (p := ThreadEvent.steps t) ?_ hr' ⟨⟨q, H⟩, hx⟩ (by omega)
    rintro s ev s' ⟨⟨q, H⟩, hx⟩ hs
    exact (H.step_held hx hs).imp_right fun h => ⟨⟨H.step hs, h.1⟩, h.2⟩

end Run

/-- The first thread has just locked the bucket; the second waits for it. -/
theorem carumap_locks_released_twoInserts : ∃ s es₁ s₁,
    run (threadsStep oneByOne) (threadsInit oneByOne) (twoInserts.take 5) = some s
    ∧ es₁ <+: (twoInserts.drop 5).take 6 ∧ run (threadsStep oneByOne) s es₁ = some s₁
    ∧ (s₁.heap.bucket 64 0).lock ≠ .eLocked := by
  have hrun : ((run (threadsStep oneByOne) (threadsInit oneByOne) (twoInserts.take 5)).bind fun s =>
      (run (threadsStep oneByOne) s ((twoInserts.drop 5).take 6)).map fun _ =>
        (s.phase false).held oneByOne) = some (some (64, 0)) := by decide +kernel
  obtain ⟨s, hs, h⟩ := Option.bind_eq_some_iff.1 hrun
  obtain ⟨s', hs', hx⟩ := Option.map_eq_some_iff.1 h
  obtain ⟨es₁, s₁, h1, h2, -, h3⟩ := (carumap_locks_released oneByOne (twoInserts.take 5) s hs).2
    false (64, 0) hx _ s' hs' (by decide)
  exact ⟨s, es₁, s₁, hs, h1, h2, h3⟩

end Rome.Carumap
