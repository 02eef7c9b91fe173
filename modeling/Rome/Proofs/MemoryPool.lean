import Rome.Proofs.MemoryPoolStep

/-!
# Completions reach the thread they are for

In a run of one-sided operations the counters say which requests are out, whoever polls their
completions. `SendMessage` breaks this where it shares a connection with a wait loop, and only
there.
-/

namespace Rome

section
variable {s s' : Pool} {loc : ℕ → Loc} {t : ℕ} {c : PoolCall}

/-! ## What the invariant says of the counters -/

lemma TokenInv.located (h : TokenInv s loc) {i : ℕ} (hi : loc i ≠ .nowhere) :
    s.Posting i ∨ s.Unpolled i ∨ s.Uncredited i := by
  obtain ⟨t, ht⟩ := h.owner i hi
  have hp := h.placed t
  cases hc : s.calls t with
  | idle | sendPost _ _ | sendWait _ _ =>
    rw [hc] at hp
    exact absurd (hp i ht) hi
  | aborted =>
    rw [hc] at hp
    exact hp.elim
  | start j q op =>
    rw [hc] at hp
    obtain ⟨hj, -, hl⟩ := hp
    rw [ht, Option.some.injEq] at hj
    exact absurd (hj ▸ hl) hi
  | post j q op =>
    rw [hc] at hp
    obtain ⟨hj, -, hl⟩ := hp
    rw [ht, Option.some.injEq] at hj
    subst hj
    refine .inl ⟨t, q, op, hc, fun hnone => hi ?_⟩
    rw [hl, hnone]
    rfl
  | wait j q op k phase =>
    rw [hc] at hp
    obtain ⟨hj, hw, -, -⟩ := hp
    rw [ht, Option.some.injEq] at hj
    subst hj
    rcases hw with ⟨-, -, w, hw, hid, -⟩ | ⟨-, hl | ⟨u, hl⟩, -⟩ | ⟨-, hl⟩
    · obtain ⟨hw, hs⟩ := mem_tokensOn.mp hw
      obtain ⟨hw, hsig⟩ := List.mem_filter.mp hw
      exact .inr (.inl ⟨q, w, hw, hsig, hs, hid⟩)
    · exact absurd hl hi
    · obtain ⟨j', q', op', k', w', hc', hid'⟩ := h.taken i u hl
      exact .inr (.inr ⟨u, j', q', op', k', w', hc', hid'⟩)
    · exact absurd hl hi

lemma TokenInv.of_located (h : TokenInv s loc) {i : ℕ}
    (hi : s.Posting i ∨ s.Unpolled i ∨ s.Uncredited i) : loc i ≠ .nowhere := by
  rcases hi with ⟨t, q, op, hc, hsome⟩ | ⟨q, w, hw, hsig, hs, rfl⟩ | ⟨t, j, q, op, k, w, hc, rfl⟩
  · have hp := h.placed t
    rw [hc] at hp
    obtain ⟨-, -, hl⟩ := hp
    rw [hl, if_pos (Option.isSome_iff_ne_none.mpr hsome)]
    simp
  · rw [h.queued q w (mem_tokensOn.mpr ⟨List.mem_filter.mpr ⟨hw, hsig⟩, hs⟩)]
    simp
  · have hp := h.placed t
    rw [hc] at hp
    obtain ⟨-, -, -, hcr⟩ := hp
    rw [hcr w rfl]
    simp

/-- A thread that sees its counter at 0 has had its completion polled. -/
lemma TokenInv.polled (h : TokenInv s loc) {i q : ℕ} {op : PoolOp} {k : ℕ} {phase : WaitPhase}
    (hc : s.calls t = .wait i q op k phase) (hsome : op.expects.isSome = true)
    (hz : s.reorderingCounters i = 0) : k ∈ s.polled := by
  have hp := h.placed t
  rw [hc] at hp
  obtain ⟨-, hw, -, -⟩ := hp
  rcases hw with ⟨-, hl, -⟩ | ⟨-, -, hk⟩ | ⟨hnone, -⟩
  · have := (h.counter_one (i := i) (by rw [hl]; simp)).2
    rw [hz] at this
    cases this
  · exact hk
  · rw [hnone] at hsome
    cases hsome

/-! ## Runs of one-sided operations -/

/-- The thread is in `SendMessage`. -/
def PoolCall.sending : PoolCall → Bool
  | sendPost _ _ | sendWait _ _ => true
  | _ => false

lemma sendsOn_of_sending {q : ℕ} (h : c.sending = false) : c.sendsOn q = false := by
  cases c with
  | sendWait q' k => cases h
  | _ => rfl

lemma callStep_sending {prev : UInt64} (h : ∀ u, (s.calls u).sending = false)
    (hs : callStep s t prev = some s') : ∀ u, (s'.calls u).sending = false := by
  have hgo : ∀ c : PoolCall, c.sending = false →
      ∀ u, (Function.update s.calls t c u).sending = false := by
    intro c hc u
    by_cases hu : u = t
    · rwa [hu, Function.update_self]
    · rw [Function.update_of_ne hu]
      exact h u
  have ht := h t
  unfold callStep at hs
  split at hs <;> rename_i hc
  · cases hs
  · cases hs
  · split at hs <;> rw [Option.some.injEq] at hs <;> subst hs <;> exact hgo _ rfl
  · rw [Option.some.injEq] at hs
    subst hs
    exact hgo _ rfl
  · split_ifs at hs <;> rw [Option.some.injEq] at hs <;> subst hs
    · exact hgo _ rfl
    · refine hgo _ ?_
      unfold PoolOp.next
      split
      · split_ifs <;> rfl
      · rfl
  · split at hs <;> rw [Option.some.injEq] at hs <;> subst hs <;> exact hgo _ rfl
  · split_ifs at hs
    rw [Option.some.injEq] at hs
    subst hs
    refine hgo _ ?_
    split_ifs <;> rfl
  · rw [hc] at ht
    cases ht
  · rw [hc] at ht
    cases ht

lemma meets_separate {es : List QueueEvent} (hes : ∀ e ∈ es, e.oneSided = true)
    (hs : ∀ u, (s.calls u).sending = false) : Machine.Meets poolStep Separate s es := by
  refine Machine.meets_of_inv (J := fun s => ∀ u, (s.calls u).sending = false) ?_ ?_ hes hs
  · intro s e h he
    cases e with
    | step t prev =>
      simp only [Separate]
      split
      · exact fun _ u => sendsOn_of_sending (h u)
      · rename_i q wrId hc
        have := h t
        rw [hc] at this
        cases this
      · trivial
    | _ => trivial
  · intro s e s' h he hs
    cases e with
    | register t =>
      simp only [poolStep, registerThread] at hs
      split_ifs at hs
      rw [Option.some.injEq] at hs
      subst hs
      exact h
    | call t q op =>
      simp only [poolStep] at hs
      split at hs
      · split_ifs at hs
        rw [Option.some.injEq] at hs
        subst hs
        intro u
        by_cases hu : u = t
        · subst hu
          simp [Pool.goto, PoolCall.sending]
        · simpa [Pool.goto, Function.update_of_ne hu] using h u
      · cases hs
    | send t q len => cases he
    | step t prev => exact callStep_sending h hs
    | complete q =>
      simp only [poolStep] at hs
      split at hs
      · cases hs
      · rw [Option.some.injEq] at hs
        subst hs
        exact h

end

/-- In a run of one-sided operations, the counter of a registered thread is 1 exactly while a
signaled request of it is being posted, not polled, or polled and not counted; no wait loop counts a
completion down from 0 or beyond the array; and no operation returns before its completion was
polled. -/
theorem reordering_counters (counters : ℕ → ℤ) (sendTotal : ℕ → ℕ) (es : List QueueEvent) (s : Pool)
    (hr : Machine.run poolStep (poolInit counters sendTotal) es = some s)
    (hes : ∀ e ∈ es, e.oneSided = true) :
    (∀ t i, s.threadIds t = some i → i < threadMax ∧
      (s.reorderingCounters i = 0 ∨ s.reorderingCounters i = 1) ∧
      (s.reorderingCounters i = 1 ↔ s.Posting i ∨ s.Unpolled i ∨ s.Uncredited i)) ∧
    (∀ t, s.calls t ≠ .aborted) ∧
    (∀ t i q op k w, s.calls t = .wait i q op k (.credit w) →
      w.wrId < threadMax ∧ 1 ≤ s.reorderingCounters w.wrId) ∧
    (∀ t i q op k phase prev s', s.calls t = .wait i q op k phase → op.expects ≠ none →
      poolStep s (.step t prev) = some s' → s'.calls t = .idle → k ∈ s.polled) := by
  have hm : Machine.Meets poolStep Separate (poolInit counters sendTotal) es :=
    meets_separate hes fun _ => rfl
  obtain ⟨⟨loc, h⟩, -⟩ := Machine.run_inv (fun _ _ _ h hok hs => poolStep_inv h hok hs) hr hm
    (poolInv_init counters sendTotal)
  refine ⟨?_, ?_, ?_, ?_⟩
  · intro t i hi
    have hlt := h.ids_lt t i hi
    have hle := h.gen_le
    have hcount := h.counter i hlt
    refine ⟨by omega, ?_, ?_⟩
    · split_ifs at hcount
      · exact .inl hcount
      · exact .inr hcount
    · constructor
      · intro hone
        refine h.located fun hn => ?_
        rw [if_pos hn, hone] at hcount
        cases hcount
      · exact fun hl => (h.counter_one (h.of_located hl)).2
  · intro t hc
    have hp := h.placed t
    rw [hc] at hp
    exact hp
  · intro t i q op k w hc
    obtain ⟨hlt, hone⟩ := h.counter_one (h.of_located (.inr (.inr ⟨t, i, q, op, k, w, hc, rfl⟩)))
    exact ⟨hlt, hone.ge⟩
  · intro t i q op k phase prev s' hc hsome hs hidle
    refine h.polled hc (Option.isSome_iff_ne_none.mpr hsome) ?_
    by_contra hz
    -- only the exit of the loop ends the operation
    cases phase with
    | test =>
      simp only [poolStep, callStep, hc, if_pos hz, Option.some.injEq] at hs
      subst hs
      simp [Pool.goto] at hidle
    | poll =>
      simp only [poolStep, callStep, hc] at hs
      split at hs <;> rw [Option.some.injEq] at hs <;> subst hs <;> simp [Pool.goto] at hidle
    | credit w =>
      simp only [poolStep, callStep, hc] at hs
      split_ifs at hs <;> rw [Option.some.injEq] at hs <;> subst hs <;> simp [Pool.goto] at hidle

/-- A `CompareAndSwap` up to where it has polled its completion. -/
def casRun : List QueueEvent :=
  [.register 7, .call 7 0 .compareAndSwap, .step 7 0, .step 7 0, .complete 0, .step 7 0, .step 7 0]

theorem reordering_counters_casRun :
    ∃ s, Machine.run poolStep (poolInit (fun _ => 0) fun _ => 0) casRun = some s ∧
      s.calls 7 = .wait 0 0 .compareAndSwap 0 (.credit ⟨0, true, false, 0⟩) ∧
      1 ≤ s.reorderingCounters 0 :=
  ⟨_, rfl, rfl, ((reordering_counters (fun _ => 0) (fun _ => 0) casRun _ rfl (by decide)).2.2.1
    7 0 0 .compareAndSwap 0 ⟨0, true, false, 0⟩ rfl).2⟩

/-- The counter is still 1 where the completion was polled and not counted. -/
theorem counter_after_poll :
    ∃ s, Machine.run poolStep (poolInit (fun _ => 0) fun _ => 0) casRun = some s ∧
      (∀ e ∈ casRun, e.oneSided = true) ∧ s.threadIds 7 = some 0 ∧ s.reorderingCounters 0 = 1 ∧
      ¬ (s.Posting 0 ∨ s.Unpolled 0) := by
  refine ⟨_, rfl, by decide, rfl, rfl, ?_⟩
  rintro (⟨t, q, op, hc, -⟩ | ⟨q, w, hw, -⟩)
  · by_cases ht : t = 7
    · subst ht
      cases hc
    · simp [poolInit, Pool.goto, Pool.setCounter, Pool.postSend, Pool.pollCq,
        Function.update_of_ne ht] at hc
  · by_cases hq : q = 0
    · subst hq
      cases hw
    · simp [poolInit, Pool.goto, Pool.setCounter, Pool.postSend, Pool.pollCq] at hw

/-! ## Two-sided and one-sided traffic -/

/-- In a run where the two kinds of traffic keep apart, a wait loop is given the completion of a
thread that waits for it, and `SendMessage` that of its own send. -/
theorem completions_kept (counters : ℕ → ℤ) (sendTotal : ℕ → ℕ) (es : List QueueEvent) (s : Pool)
    (hr : Machine.run poolStep (poolInit counters sendTotal) es = some s)
    (hm : Machine.Meets poolStep Separate (poolInit counters sendTotal) es) (q : ℕ) (w : Wr)
    (ws : List Wr) (hq : s.sendCq q = w :: ws) :
    (∀ t i op k, s.calls t = .wait i q op k .poll → w.wrId < threadMax ∧ w.send = false ∧
      ∃ t' op' phase, s.threadIds t' = some w.wrId ∧
        s.calls t' = .wait w.wrId q op' w.ticket phase ∧ op'.expects ≠ none) ∧
    (∀ t k, s.calls t = .sendWait q k → w.send = true ∧ w.ticket = k) := by
  obtain ⟨⟨loc, h⟩, hsend⟩ := Machine.run_inv (fun _ _ _ h hok hs => poolStep_inv h hok hs) hr hm
    (poolInv_init counters sendTotal)
  have hsig := hsend.cq_signaled q w (hq ▸ List.mem_cons_self)
  have hmem : w ∈ s.unpolledOn q := by
    rw [unpolledOn_head hq hsig]
    exact List.mem_cons_self
  constructor
  · intro t i op k hc
    have hw : w.send = false := hsend.send_false (hsend.sendsOn_false (h.waitsOn_of_poll hc)) hmem
    obtain ⟨t', op', phase, ht', hc', hsome⟩ := h.waiting (mem_tokensOn.mpr ⟨hmem, hw⟩)
    have hlt := h.ids_lt t' _ ht'
    have hle := h.gen_le
    exact ⟨by omega, hw, t', op', phase, ht', hc', Option.isSome_iff_ne_none.mp hsome⟩
  · intro t k hc
    obtain ⟨⟨w₀, hw₀, hs₀, hk₀⟩, -⟩ := hsend.alone t q k hc
    rw [hw₀, List.mem_singleton] at hmem
    rw [hmem]
    exact ⟨hs₀, hk₀⟩

/-- A `CompareAndSwap` on one connection and a `SendMessage` on another. -/
def apartRun : List QueueEvent :=
  [.register 7, .call 7 1 .compareAndSwap, .step 7 0, .step 7 0, .send 8 0 16, .step 8 0,
    .complete 0, .complete 1, .step 7 0]

theorem completions_kept_apartRun :
    ∃ s, Machine.run poolStep (poolInit (fun _ => 0) fun _ => 1) apartRun = some s ∧
      Machine.Meets poolStep Separate (poolInit (fun _ => 0) fun _ => 1) apartRun ∧
      s.calls 7 = .wait 0 1 .compareAndSwap 0 .poll ∧ s.sendCq 1 = [⟨0, true, false, 0⟩] ∧
      (∃ t' op' phase, s.threadIds t' = some 0 ∧ s.calls t' = .wait 0 1 op' 0 phase ∧
        op'.expects ≠ none) := by
  have hm : Machine.Meets poolStep Separate (poolInit (fun _ => 0) fun _ => 1) apartRun := by
    refine Machine.meets_cons trivial rfl (Machine.meets_cons trivial rfl
      (Machine.meets_cons trivial rfl (Machine.meets_cons ?_ rfl (Machine.meets_cons trivial rfl
      (Machine.meets_cons ?_ rfl (Machine.meets_cons trivial rfl (Machine.meets_cons trivial rfl
      (Machine.meets_cons trivial rfl trivial))))))))
    · intro _ t
      by_cases ht : t = 7
      · subst ht
        rfl
      · simp [poolInit, Pool.goto, Pool.setCounter, Function.update_of_ne ht, PoolCall.sendsOn]
    · intro t
      by_cases ht : t = 7
      · subst ht
        exact ⟨rfl, rfl⟩
      · by_cases ht' : t = 8
        · subst ht'
          exact ⟨rfl, rfl⟩
        · simp [poolInit, Pool.goto, Pool.setCounter, Pool.postSend, Function.update_of_ne ht,
            Function.update_of_ne ht', PoolCall.sendsOn, PoolCall.waitsOn]
  refine ⟨_, rfl, hm, rfl, rfl, ?_⟩
  exact ((completions_kept (fun _ => 0) (fun _ => 1) apartRun _ rfl hm 1 ⟨0, true, false, 0⟩ []
    rfl).1 7 0 .compareAndSwap 0 rfl).2.2

/-- `SendMessage` posts behind a `CompareAndSwap` on the same connection, and both complete. -/
def mixedRun : List QueueEvent :=
  [.register 7, .call 7 0 .compareAndSwap, .step 7 0, .step 7 0, .send 8 0 16, .step 8 0,
    .complete 0, .complete 0]

/-- `SendMessage` is given the completion of the `CompareAndSwap`, whose thread then counts the
completion of the send and finds its synchronization broken. -/
theorem completion_stolen :
    ∃ s w ws, Machine.run poolStep (poolInit (fun _ => 0) fun _ => 1) mixedRun = some s ∧
      s.sendCq 0 = w :: ws ∧ s.calls 8 = .sendWait 0 1 ∧ w.send = false ∧ w.ticket ≠ 1 ∧
      ∃ s₁ w₁ ws₁, Machine.run poolStep s [.step 8 0, .step 7 0] = some s₁ ∧
        s₁.calls 7 = .wait 0 0 .compareAndSwap 0 .poll ∧ s₁.sendCq 0 = w₁ :: ws₁ ∧
        w₁.send = true ∧ (∀ t, s₁.threadIds t ≠ some w₁.wrId) ∧
        ∃ s₂, Machine.run poolStep s₁ [.step 7 0, .step 7 0] = some s₂ ∧ s₂.calls 7 = .aborted := by
  refine ⟨_, _, _, rfl, rfl, rfl, rfl, by decide, _, _, _, rfl, rfl, rfl, rfl, ?_, _, rfl, rfl⟩
  intro t ht
  by_cases h7 : t = 7
  · subst h7
    cases ht
  · simp [poolInit, Pool.goto, Pool.setCounter, Pool.postSend, Pool.pollCq,
      Function.update_of_ne h7] at ht

end Rome
