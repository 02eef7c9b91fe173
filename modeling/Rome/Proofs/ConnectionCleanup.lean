import Rome.Proofs.ConnectionManager

/-!
# What a failed `Connect` leaves behind

`Connect` releases the lock before it reports that no endpoint could be made, that its request was
rejected or that it got an unexpected event. The other RDMA calls are checked by a macro that
returns at once, with the lock held, whenever they fail before the `Release`.
-/

namespace Rome

open Machine

/-- The RDMA calls of this step end the call with the lock held. -/
def Call.leaks : Call → Outcome → Bool
  | connectEndpoint _, .fails func _ => func ≠ "rdma_create_ep"
  | connectDupGet _, .fails _ _ => false
  | _, .fails _ _ => true
  | _, _ => false

/-- Where a call has the lock and has not changed the connections. -/
def Call.pending : Call → Bool
  | connectFind _ | connectFoundRelease _ | connectEndpoint _ | connectWait _ _ | connectRecheck _ _
  | connectDupRelease _ | connectEmplace _ _ | loopbackEmplace _ => true
  | connectErrorRelease e => e.t ≠ .ok
  | _ => false

/-- Where a call has released the lock and has not changed the connections. -/
def Call.released : Call → Bool
  | connectFoundGet _ | connectDupGet _ => true
  | _ => false

/-- Where a call will succeed. -/
def Call.succeeds : Call → Bool
  | connectGet _ _ | connectRelease _ _ | loopbackRelease | loopbackGet => true
  | returned r => r.status.t = .ok
  | _ => false

/-- The call has returned without success. -/
def Call.failed : Call → Bool
  | returned r => r.status.t ≠ .ok
  | _ => false

section Steps

variable {my t : ℕ} {s s' : CmState} {pc : Call} {o : Outcome}

/-- A step with the lock held keeps it, releases it, succeeds, or leaks it. -/
inductive CleanEffect (s : CmState) (t : ℕ) (leaks : Bool) (s' : CmState) : Prop
  | keep (hcall : (s'.calls t).pending) (hmu : s'.mu = s.mu)
      (hest : s'.established = s.established) (hleak : leaks = false)
  | release (hcall : (s'.calls t).released ∨ (s'.calls t).failed) (hmu : s'.mu = kUnlocked)
      (hest : s'.established = s.established) (hleak : leaks = false)
  | succeed (hcall : (s'.calls t).succeeds)
  | leak (hcall : (s'.calls t).failed) (hmu : s'.mu = s.mu)
      (hest : s'.established = s.established) (hleak : leaks = true)

theorem cleanEffect_goto {leaks : Bool} {pc' : Call} (h : some (s.goto t pc') = some s')
    (hcall : pc'.pending) (hleak : leaks = false) : CleanEffect s t leaks s' := by
  obtain rfl := Option.some.inj h
  exact .keep (by simpa [CmState.goto] using hcall) rfl rfl hleak

theorem cleanEffect_leak {leaks : Bool} {pc' : Call} (h : some (s.goto t pc') = some s')
    (hcall : pc'.failed) (hleak : leaks = true) : CleanEffect s t leaks s' := by
  obtain rfl := Option.some.inj h
  exact .leak (by simpa [CmState.goto] using hcall) rfl rfl hleak

theorem cleanEffect_release {leaks : Bool} {pc' : Call} (h : some (s.release t pc') = some s')
    (hcall : pc'.released ∨ pc'.failed) (hleak : leaks = false) : CleanEffect s t leaks s' := by
  obtain rfl := Option.some.inj h
  exact .release (by simpa [CmState.release, CmState.goto] using hcall) rfl rfl hleak

theorem connectStep_clean_effect (hcalls : s.calls t = pc) (hpc : pc.pending)
    (h : connectStep my s t pc o = some s') : CleanEffect s t (pc.leaks o) s' := by
  unfold connectStep at h
  split at h
  · cases hpc
  · split at h
    · exact cleanEffect_goto h rfl rfl
    · exact cleanEffect_goto h rfl rfl
  · exact cleanEffect_release h (.inl rfl) rfl
  · cases hpc
  · split_ifs at h
    · exact cleanEffect_goto h rfl rfl
    · exact cleanEffect_goto h rfl rfl
  · rename_i func error
    split_ifs at h with hfunc
    · exact cleanEffect_goto h (by simp [Call.pending]) (by simp [Call.leaks, hfunc])
    · exact cleanEffect_leak h (by simp [Call.failed]) (by simp [Call.leaks, hfunc])
  · exact cleanEffect_goto h rfl rfl
  · obtain rfl := Option.some.inj h
    exact .keep (by rw [hcalls]; exact hpc) rfl rfl rfl
  · obtain rfl := Option.some.inj h
    exact .keep (by simp [CmState.goto, Call.pending]) rfl rfl rfl
  · obtain rfl := Option.some.inj h
    exact .keep (by simp [CmState.goto, Call.pending]) rfl rfl rfl
  · exact cleanEffect_leak h rfl rfl
  · split at h
    · exact cleanEffect_goto h rfl rfl
    · exact cleanEffect_goto h rfl rfl
  · exact cleanEffect_release h (.inl rfl) rfl
  · cases hpc
  · cases hpc
  · obtain rfl := Option.some.inj h
    exact .succeed (by simp [CmState.goto, Call.succeeds])
  · exact cleanEffect_leak h rfl rfl
  · cases hpc
  · cases hpc
  · exact cleanEffect_release h (.inr hpc) rfl
  · obtain rfl := Option.some.inj h
    exact .succeed (by simp [CmState.goto, Call.succeeds])
  · exact cleanEffect_leak h rfl rfl
  · cases hpc
  · cases hpc
  · cases h

/-- Once it has changed the connections, or found the peer, a call succeeds. -/
theorem connectStep_succeeds (hpc : pc.succeeds) (h : connectStep my s t pc o = some s') :
    (s'.calls t).succeeds := by
  unfold connectStep at h
  split at h <;> first | cases hpc | skip
  · obtain ⟨c, -, rfl⟩ := Option.map_eq_some_iff.1 h
    simp [CmState.goto, Call.succeeds]
  · obtain rfl := Option.some.inj h
    simp [CmState.release, CmState.goto, Call.succeeds, Status.ok]
  · obtain rfl := Option.some.inj h
    simp [CmState.release, CmState.goto, Call.succeeds]
  · obtain rfl := Option.some.inj h
    simp [CmState.goto, Call.succeeds, Status.ok]
  · cases h

/-- After the `Release` a call leaves the lock and the connections alone. -/
theorem connectStep_released (hpc : pc.released) (h : connectStep my s t pc o = some s') :
    pc.leaks o = false ∧ ((s'.calls t).succeeds
      ∨ (s'.calls t).failed ∧ s'.mu = s.mu ∧ s'.established = s.established) := by
  unfold connectStep at h
  split at h <;> first | cases hpc | skip
  · obtain rfl := Option.some.inj h
    exact ⟨rfl, .inl (by simp [CmState.goto, Call.succeeds, Status.ok])⟩
  · obtain rfl := Option.some.inj h
    exact ⟨rfl, .inl (by simp [CmState.goto, Call.succeeds, Status.ok])⟩
  · obtain rfl := Option.some.inj h
    exact ⟨rfl, .inr ⟨by simp [CmState.goto, Call.failed, rdmaError, Status.shift], rfl, rfl⟩⟩
  · cases h

/-- A call that has returned takes no step. -/
theorem connectStep_failed (hpc : pc.failed) : connectStep my s t pc o = none := by
  cases pc <;> simp [Call.failed] at hpc
  rfl

end Steps

/-! ## Runs of one call -/

/-- The RDMA calls of the step do not end the call with the lock held. -/
def NoLeak (t : ℕ) (s : CmState) : ConnectEvent → Prop
  | .step o => (s.calls t).leaks o = false
  | .change _ => True

instance (t : ℕ) (s : CmState) : (e : ConnectEvent) → Decidable (NoLeak t s e)
  | .step o => inferInstanceAs (Decidable ((s.calls t).leaks o = false))
  | .change _ => .isTrue trivial

section Runs

variable {my t : ℕ} {s s' : CmState} {es : List ConnectEvent}

theorem run_succeeds (h : (s.calls t).succeeds) (hr : run (connectCallStep my t) s es = some s') :
    (s'.calls t).succeeds :=
  run_inv' (I := fun s => (s.calls t).succeeds = true) (fun s e s' H hs => by
    cases e with
    | step o => exact connectStep_succeeds H hs
    | change l =>
      obtain rfl := Option.some.inj hs
      exact H) hr h

theorem not_failed_of_succeeds {pc : Call} (h : pc.succeeds) : pc.failed = false := by
  cases pc <;> simp_all [Call.succeeds, Call.failed]

/-- When the call has failed, the lock stays as it is. -/
theorem run_failed (h : (s.calls t).failed) (hr : run (connectCallStep my t) s es = some s') :
    s'.mu = s.mu ∧ s'.established = changed s.established es
      ∧ Meets (connectCallStep my t) (NoLeak t) s es := by
  induction es generalizing s with
  | nil =>
    obtain rfl := Option.some.inj hr
    exact ⟨rfl, rfl, trivial⟩
  | cons e es ih =>
    obtain ⟨s₁, h1, h2⟩ := run_cons_some hr
    cases e with
    | step o =>
      rw [connectCallStep, connectStep_failed h] at h1
      cases h1
    | change l =>
      obtain rfl := Option.some.inj h1
      obtain ⟨h3, h4, h5⟩ := ih (s := { s with established := l }) h h2
      exact ⟨h3, h4, meets_cons trivial rfl h5⟩

theorem run_released (h : (s.calls t).released) (hr : run (connectCallStep my t) s es = some s')
    (hfail : (s'.calls t).failed) :
    s'.mu = s.mu ∧ s'.established = changed s.established es
      ∧ Meets (connectCallStep my t) (NoLeak t) s es := by
  induction es generalizing s with
  | nil =>
    obtain rfl := Option.some.inj hr
    exact ⟨rfl, rfl, trivial⟩
  | cons e es ih =>
    obtain ⟨s₁, h1, h2⟩ := run_cons_some hr
    cases e with
    | step o =>
      obtain ⟨hleak, hok | ⟨h3, h4, h5⟩⟩ := connectStep_released h h1
      · have := not_failed_of_succeeds (run_succeeds hok h2)
        rw [this] at hfail
        cases hfail
      · obtain ⟨h6, h7, h8⟩ := run_failed h3 h2
        exact ⟨h6.trans h4, by rw [h7, h5]; rfl, meets_cons hleak h1 h8⟩
    | change l =>
      obtain rfl := Option.some.inj h1
      obtain ⟨h3, h4, h5⟩ := ih (s := { s with established := l }) h h2
      exact ⟨h3, h4, meets_cons trivial rfl h5⟩

/-- A call that fails leaves the connections alone, and the lock is free when nothing leaked it. -/
theorem run_pending (h : (s.calls t).pending) (hmu : s.mu = my)
    (hr : run (connectCallStep my t) s es = some s') (hfail : (s'.calls t).failed) :
    s'.established = changed s.established es
      ∧ (s'.mu = kUnlocked ↔ Meets (connectCallStep my t) (NoLeak t) s es) := by
  induction es generalizing s with
  | nil =>
    obtain rfl := Option.some.inj hr
    cases hc : s.calls t <;> simp [hc, Call.pending, Call.failed] at h hfail
  | cons e es ih =>
    obtain ⟨s₁, h1, h2⟩ := run_cons_some hr
    cases e with
    | step o =>
      have hmeets : ∀ {b : Bool}, (s.calls t).leaks o = b →
          (Meets (connectCallStep my t) (NoLeak t) s (.step o :: es) ↔
            b = false ∧ Meets (connectCallStep my t) (NoLeak t) s₁ es) := by
        rintro b rfl
        exact ⟨fun hm => ⟨hm.1, hm.2 s₁ h1⟩, fun hm => meets_cons hm.1 h1 hm.2⟩
      cases connectStep_clean_effect rfl h h1 with
      | keep hcall hmu' hest hleak =>
        obtain ⟨h3, h4⟩ := ih hcall (hmu'.trans hmu) h2
        rw [hmeets hleak, h3, hest, h4]
        simp [changed]
      | release hcall hmu' hest hleak =>
        have hrest : s'.mu = s₁.mu ∧ s'.established = changed s₁.established es
            ∧ Meets (connectCallStep my t) (NoLeak t) s₁ es := by
          rcases hcall with hcall | hcall
          · exact run_released hcall h2 hfail
          · exact run_failed hcall h2
        obtain ⟨h3, h4, h5⟩ := hrest
        rw [hmeets hleak, h4, hest, h3, hmu']
        exact ⟨rfl, fun _ => ⟨rfl, h5⟩, fun _ => rfl⟩
      | succeed hcall =>
        rw [not_failed_of_succeeds (run_succeeds hcall h2)] at hfail
        cases hfail
      | leak hcall hmu' hest hleak =>
        obtain ⟨h3, h4, -⟩ := run_failed hcall h2
        rw [hmeets hleak, h4, hest, h3, hmu', hmu]
        have hne : ¬ (my : ℤ) = kUnlocked := by
          unfold kUnlocked
          omega
        exact ⟨rfl, fun hm => absurd hm hne, fun hm => by cases hm.1⟩
    | change l =>
      obtain rfl := Option.some.inj h1
      obtain ⟨h3, h4⟩ := ih (s := { s with established := l }) h hmu h2
      refine ⟨h3, h4.trans ⟨fun hm => meets_cons trivial rfl hm, fun hm => hm.2 _ rfl⟩⟩

end Runs

/-- A `Connect` call that acquires the lock and fails has released it, with the connections as they
were but for what other calls did, just when no RDMA call failed that is checked with the lock
held. -/
theorem connect_cleans_up (my t peer : ℕ) (s s₁ s' : CmState) (es : List ConnectEvent)
    (r : StatusVal ℕ) (hfree : s.mu = kUnlocked) (hcall : s.calls t = .connectAcquire peer)
    (hacq : connectCallStep my t s (.step .ok) = some s₁)
    (hr : run (connectCallStep my t) s₁ es = some s')
    (hret : s'.calls t = .returned r) (hbad : r.status.t ≠ .ok) :
    s'.mu = kUnlocked ∧ s'.established = changed s.established es
      ↔ Meets (connectCallStep my t) (NoLeak t) s₁ es := by
  simp only [connectCallStep, hcall, connectStep, CmState.acquire, hfree, if_true,
    Option.some.injEq] at hacq
  subst hacq
  obtain ⟨h1, h2⟩ := run_pending (by simp [CmState.goto, Call.pending]) rfl hr
    (by simp [hret, Call.failed, hbad])
  rw [h2, h1]
  exact and_iff_left rfl

/-- Node 1 is about to call `Connect` for node 2, and its thread has the first steps of the call. -/
def connecting : CmState := cmInit.goto 0 (.connectAcquire 2)

theorem connect_cleans_up_rejected : ∃ s₁ s', connectCallStep 1 0 connecting (.step .ok) = some s₁
    ∧ run (connectCallStep 1 0) s₁ [.step .ok, .step (.endpoint 7), .change [(3, 5)],
      .step (.event .rejected), .step .ok] = some s'
    ∧ s'.mu = kUnlocked ∧ s'.established = [(3, 5)] := by
  refine ⟨_, _, rfl, rfl, ?_⟩
  exact (connect_cleans_up 1 0 2 connecting _ _ [.step .ok, .step (.endpoint 7), .change [(3, 5)],
    .step (.event .rejected), .step .ok] ⟨⟨.unavailable, some "Connection request rejected"⟩, none⟩
    rfl rfl rfl rfl rfl (by decide)).2 (by decide)

/-- `rdma_getaddrinfo` fails: the call returns with the lock held, and the next one fails to acquire
it. -/
theorem connect_getaddrinfo_leaks : ∃ s₁ s', connectCallStep 1 0 connecting (.step .ok) = some s₁
    ∧ run (connectCallStep 1 0) s₁
      [.step .ok, .step (.fails "rdma_getaddrinfo" "Name unknown")] = some s'
    ∧ s'.calls 0 = .returned ⟨⟨.internalError, some "rdma_getaddrinfo(): Name unknown"⟩, none⟩
    ∧ s'.mu ≠ kUnlocked
    ∧ ∃ s'', connectCallStep 1 0 (s'.goto 0 (.connectAcquire 2)) (.step .ok) = some s''
      ∧ s''.calls 0 = .returned ⟨⟨.unavailable, some "Lock acquisition failed"⟩, none⟩ :=
  ⟨_, _, rfl, rfl, rfl, by decide, _, rfl, rfl⟩

end Rome
