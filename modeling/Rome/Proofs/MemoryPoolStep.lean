import Rome.Proofs.MemoryPoolInv

/-!
# The steps of a pool

Each step moves at most one request from one place to the next, so it keeps the invariant.
-/

namespace Rome

section
variable {s s' : Pool} {loc : ℕ → Loc} {t : ℕ} {c : PoolCall}

lemma registerThread_inv (h : PoolInv s) (hc : s.calls t = .idle)
    (hs : registerThread s t = some s') : PoolInv s' := by
  obtain ⟨⟨loc, h⟩, hsend⟩ := h
  unfold registerThread at hs
  split_ifs at hs with h1 h2
  rw [ne_eq, not_not] at h1
  rw [not_le] at h2
  rw [Option.some.injEq] at hs
  subst hs
  have hnone : loc s.idGen = .nowhere := by
    by_contra hne
    obtain ⟨u, hu⟩ := h.owner _ hne
    exact absurd (h.ids_lt u _ hu) (lt_irrefl _)
  refine ⟨⟨loc, h2, ?_, ?_, ?_, ?_, ?_, h.queued, h.nodup, h.taken⟩,
    ⟨hsend.cq_signaled, hsend.sends, hsend.alone⟩⟩
  · intro u i hi
    show i < s.idGen + 1
    by_cases hu : u = t
    · subst hu
      simp only [Function.update_self, Option.some.injEq] at hi
      omega
    · simp only [Function.update_of_ne hu] at hi
      have := h.ids_lt u i hi
      omega
  · intro u v i hu hv
    by_cases hut : u = t <;> by_cases hvt : v = t
    · rw [hut, hvt]
    · subst hut
      simp only [Function.update_self, Option.some.injEq, Function.update_of_ne hvt] at hu hv
      exact absurd (h.ids_lt v i hv) (by omega)
    · subst hvt
      simp only [Function.update_self, Option.some.injEq, Function.update_of_ne hut] at hu hv
      exact absurd (h.ids_lt u i hu) (by omega)
    · simp only [Function.update_of_ne hut, Function.update_of_ne hvt] at hu hv
      exact h.ids_inj u v i hu hv
  · intro i hi
    change i < s.idGen + 1 at hi
    show Function.update s.reorderingCounters s.idGen 0 i = _
    by_cases hg : i = s.idGen
    · subst hg
      rw [Function.update_self, if_pos hnone]
    · rw [Function.update_of_ne hg]
      exact h.counter i (by omega)
  · intro i hi
    obtain ⟨u, hu⟩ := h.owner i hi
    have hut : u ≠ t := by
      rintro rfl
      rw [h1] at hu
      cases hu
    refine ⟨u, ?_⟩
    simp only [Function.update_of_ne hut]
    exact hu
  · intro u
    by_cases hu : u = t
    · subst hu
      simp only [Pool.setCounter, hc]
      intro i hi
      simp only [Function.update_self, Option.some.injEq] at hi
      rw [← hi, hnone]
    · refine (h.placed u).frame ?_ (fun _ => id) (fun i _ => .inl rfl) (fun q w hw _ => hw)
        (fun i => id)
      simp only [Function.update_of_ne hu]

lemma complete_inv (h : PoolInv s) {q : ℕ} {w : Wr} {ws : List Wr} (hq : s.wire q = w :: ws) :
    PoolInv { s with
      wire := Function.update s.wire q ws
      sendCq :=
        if w.signaled then Function.update s.sendCq q (s.sendCq q ++ [w]) else s.sendCq } := by
  obtain ⟨⟨loc, h⟩, hsend⟩ := h
  set s₁ : Pool := { s with
      wire := Function.update s.wire q ws
      sendCq := if w.signaled then Function.update s.sendCq q (s.sendCq q ++ [w]) else s.sendCq }
    with hs₁
  have hun : ∀ q', s₁.unpolledOn q' = s.unpolledOn q' := by
    intro q'
    unfold Pool.unpolledOn
    by_cases hq' : q' = q
    · subst hq'
      by_cases hw : w.signaled = true
      · simp [hs₁, hw, hq]
      · simp [hs₁, hw, hq]
    · by_cases hw : w.signaled = true
      · simp [hs₁, hw, hq']
      · simp [hs₁, hw, hq']
  have htok : ∀ q', s₁.tokensOn q' = s.tokensOn q' := by
    intro q'
    unfold Pool.tokensOn
    rw [hun]
  refine ⟨⟨loc, h.gen_le, h.ids_lt, h.ids_inj, h.counter, h.owner, ?_, ?_, ?_, h.taken⟩, ?_, ?_, ?_⟩
  · intro u
    refine (h.placed u).frame rfl (fun _ => id) (fun i _ => .inl rfl) ?_ (fun i => id)
    intro q' w' hw' _
    rwa [htok]
  · intro q'
    rw [htok]
    exact h.queued q'
  · intro q'
    rw [htok]
    exact h.nodup q'
  · intro q' w' hw'
    by_cases hw : w.signaled = true
    · simp only [hs₁, if_pos hw] at hw'
      by_cases hq' : q' = q
      · subst hq'
        rw [Function.update_self, List.mem_append, List.mem_singleton] at hw'
        rcases hw' with hw' | rfl
        · exact hsend.cq_signaled _ _ hw'
        · exact hw
      · rw [Function.update_of_ne hq'] at hw'
        exact hsend.cq_signaled _ _ hw'
    · simp only [hs₁, if_neg hw] at hw'
      exact hsend.cq_signaled _ _ hw'
  · intro q'
    rw [hun]
    exact hsend.sends q'
  · intro u q' k hk
    rw [hun]
    exact hsend.alone u q' k hk

/-- A step of `t` that changes no more than where it stands, outside of `SendMessage`. -/
lemma PoolInv.goto (h : PoolInv s) (hcalls : s'.calls = Function.update s.calls t c)
    (hids : s'.threadIds = s.threadIds) (hgen : s'.idGen = s.idGen)
    (hcq : s'.sendCq = s.sendCq) (hun : ∀ q, s'.unpolledOn q = s.unpolledOn q)
    (hpolled : s'.polled = s.polled) (hcounters : s'.reorderingCounters = s.reorderingCounters)
    (hcredit : ∀ j q op k w, s.calls t ≠ .wait j q op k (.credit w))
    (hplaced : ∀ loc, TokenInv s loc → Placed s' loc t c)
    (hold : ∀ q k, s.calls t ≠ .sendWait q k) (hnew : ∀ q k, c ≠ .sendWait q k)
    (hwaits : ∀ q, c.waitsOn q = true → (s.calls t).waitsOn q = true) : PoolInv s' := by
  obtain ⟨⟨loc, h⟩, hsend⟩ := h
  refine ⟨⟨loc, h.goto hcalls hids hgen ?_ (hpolled ▸ fun _ => id) hcounters hcredit
    (hplaced loc h)⟩, hsend.goto hcalls hold hnew (hcq ▸ hsend.cq_signaled) (fun q => .inl (hun q))
    (fun q hq => .inl (hwaits q hq))⟩
  intro q
  unfold Pool.tokensOn
  rw [hun]

lemma call_inv (h : PoolInv s) {i q : ℕ} {op : PoolOp} (hc : s.calls t = .idle)
    (hi : s.threadIds t = some i) (hv : op.valid = true) : PoolInv (s.goto t (.start i q op)) := by
  refine h.goto rfl rfl rfl rfl (fun _ => rfl) rfl rfl (by simp [hc]) ?_ (by simp [hc]) (by simp)
    (by simp [PoolCall.waitsOn])
  intro loc hloc
  have hp := hloc.placed t
  rw [hc] at hp
  exact ⟨hi, hv, hp i hi⟩

lemma send_inv (h : PoolInv s) {q : ℕ} (hc : s.calls t = .idle) (sendTotal : ℕ → ℕ) (wrId : ℕ) :
    PoolInv ({ s with sendTotal := sendTotal }.goto t (.sendPost q wrId)) := by
  refine h.goto rfl rfl rfl rfl (fun _ => rfl) rfl rfl (by simp [hc]) ?_ (by simp [hc]) (by simp)
    (by simp [PoolCall.waitsOn])
  intro loc hloc
  have hp := hloc.placed t
  rw [hc] at hp
  exact hp

/-- A step that sets the counter of a token with the token. -/
lemma TokenInv.counter_update (h : TokenInv s loc) (j : ℕ) (x : Loc) (n : ℤ)
    (hn : n = if x = .nowhere then 0 else 1) (i : ℕ) (hi : i < s.idGen) :
    Function.update s.reorderingCounters j n i =
      if Function.update loc j x i = .nowhere then 0 else 1 := by
  by_cases hij : i = j
  · subst hij
    rw [Function.update_self, Function.update_self, hn]
  · rw [Function.update_of_ne hij, Function.update_of_ne hij]
    exact h.counter i hi

lemma start_inv (h : PoolInv s) {i q : ℕ} {op : PoolOp} (hc : s.calls t = .start i q op)
    {prev : UInt64} (hs : callStep s t prev = some s') : PoolInv s' := by
  simp only [callStep, hc] at hs
  cases he : op.expects with
  | none =>
    simp only [he, Option.some.injEq] at hs
    subst hs
    refine h.goto rfl rfl rfl rfl (fun _ => rfl) rfl rfl (by simp [hc]) ?_ (by simp [hc]) (by simp)
      (by simp [PoolCall.waitsOn])
    intro loc hloc
    have hp := hloc.placed t
    rw [hc] at hp
    obtain ⟨hi, hv, hl⟩ := hp
    refine ⟨hi, hv, ?_⟩
    rw [hl, he]
    rfl
  | some n =>
    obtain ⟨⟨loc, h⟩, hsend⟩ := h
    have hp := h.placed t
    rw [hc] at hp
    obtain ⟨hi, hv, hl⟩ := hp
    have hn : n = 1 := by
      have := PoolOp.expects_eq hv (by rw [he]; rfl)
      rw [he, Option.some.injEq] at this
      exact this
    simp only [he, hn, Option.some.injEq] at hs
    subst hs
    refine ⟨⟨Function.update loc i .posting, h.retarget (t := t) rfl rfl rfl (fun _ => rfl)
      (fun _ => id) (h.counter_update i .posting 1 rfl) ?_ ?_ ⟨hi, hv, ?_⟩⟩,
      hsend.goto rfl (by simp [hc]) (by simp) hsend.cq_signaled (fun _ => .inl rfl)
        (by simp [PoolCall.waitsOn])⟩
    · intro j
      by_cases hji : j = i
      · subst hji
        exact .inr (.inl ⟨hl, Function.update_self .., hi⟩)
      · exact .inl (Function.update_of_ne hji _ _)
    · intro j hj
      by_cases hji : j = i
      · subst hji
        simp at hj
      · rw [Function.update_of_ne hji] at hj
        obtain ⟨_, _, _, _, _, hc', -⟩ := h.taken j t hj
        rw [hc] at hc'
        cases hc'
    · simp [he]

lemma credit_inv (h : PoolInv s) {i q : ℕ} {op : PoolOp} {k : ℕ} {w : Wr}
    (hc : s.calls t = .wait i q op k (.credit w)) {prev : UInt64}
    (hs : callStep s t prev = some s') : PoolInv s' := by
  obtain ⟨⟨loc, h⟩, hsend⟩ := h
  have hp := h.placed t
  rw [hc] at hp
  obtain ⟨hi, hw, hph, hcr⟩ := hp
  have hl := hcr w rfl
  obtain ⟨hlt, hone⟩ := h.counter_one (i := w.wrId) (by rw [hl]; simp)
  simp only [callStep, hc, if_pos hlt, hone, le_refl, if_true, Option.some.injEq] at hs
  subst hs
  refine ⟨⟨Function.update loc w.wrId .nowhere, h.retarget (t := t) rfl rfl rfl (fun _ => rfl)
    (fun _ => id) (h.counter_update w.wrId .nowhere _ rfl) ?_ ?_ ⟨hi, ?_, fun _ => rfl, by simp⟩⟩,
    hsend.goto rfl (by simp [hc]) (by simp) hsend.cq_signaled (fun _ => .inl rfl)
      (fun q' hq' => .inl (by rw [hc]; exact hq'))⟩
  · intro j
    by_cases hji : j = w.wrId
    · subst hji
      exact .inr (.inr ⟨hl, Function.update_self ..⟩)
    · exact .inl (Function.update_of_ne hji _ _)
  · intro j hj
    by_cases hji : j = w.wrId
    · subst hji
      simp at hj
    · rw [Function.update_of_ne hji] at hj
      obtain ⟨_, _, _, _, w', hc', hw'⟩ := h.taken j t hj
      rw [hc] at hc'
      cases hc'
      exact hji hw'.symm
  · rcases hw with ⟨hsome, hlq, hw⟩ | ⟨hsome, hlq, hk⟩ | ⟨hnone, hlq⟩
    · refine .inl ⟨hsome, ?_, hw⟩
      rw [Function.update_of_ne ?_, hlq]
      rintro rfl
      rw [hl] at hlq
      cases hlq
    · refine .inr (.inl ⟨hsome, ?_, hk⟩)
      by_cases hji : i = w.wrId
      · subst hji
        simp
      · rwa [Function.update_of_ne hji]
    · refine .inr (.inr ⟨hnone, ?_⟩)
      by_cases hji : i = w.wrId
      · subst hji
        simp
      · rwa [Function.update_of_ne hji]

/-- The next poll, or the exit of the loop. -/
lemma test_inv (h : PoolInv s) {i q : ℕ} {op : PoolOp} {k : ℕ}
    (hc : s.calls t = .wait i q op k .test) {prev : UInt64}
    (hs : callStep s t prev = some s') : PoolInv s' := by
  have hplaced : ∀ loc, TokenInv s loc → Placed s loc t (.wait i q op k .test) := by
    intro loc hloc
    have hp := hloc.placed t
    rwa [hc] at hp
  simp only [callStep, hc] at hs
  split_ifs at hs with hz
  · rw [Option.some.injEq] at hs
    subst hs
    refine h.goto rfl rfl rfl rfl (fun _ => rfl) rfl rfl (by simp [hc]) ?_ (by simp [hc]) (by simp)
      (fun q' hq' => by rw [hc]; exact hq')
    intro loc hloc
    obtain ⟨hi, hw, -, -⟩ := hplaced loc hloc
    refine ⟨hi, hw, ?_, by simp⟩
    intro hnone
    -- an operation that does not set the counter finds it 0
    exfalso
    refine hz ?_
    rw [hloc.counter i (hloc.ids_lt t i hi), if_pos]
    rcases hw with ⟨hsome, -⟩ | ⟨hsome, -⟩ | ⟨-, hl⟩
    · rw [hnone] at hsome
      cases hsome
    · rw [hnone] at hsome
      cases hsome
    · exact hl
  · rw [Option.some.injEq] at hs
    subst hs
    have hnone : ∀ loc, TokenInv s loc → s.threadIds t = some i ∧ loc i = .nowhere := by
      intro loc hloc
      obtain ⟨hi, -⟩ := hplaced loc hloc
      refine ⟨hi, ?_⟩
      by_contra hne
      exact hz (by rw [(hloc.counter_one hne).2]; simp)
    have hnext : op.next i q prev = .idle ∨ ∃ c, op.next i q prev = .start i q (.atomicSwap c) := by
      unfold PoolOp.next
      split
      · split_ifs
        · exact .inl rfl
        · exact .inr ⟨_, rfl⟩
      · exact .inl rfl
    rcases hnext with hn | ⟨c, hn⟩
    · rw [hn]
      refine h.goto rfl rfl rfl rfl (fun _ => rfl) rfl rfl (by simp [hc]) ?_ (by simp [hc])
        (by simp) (by simp [PoolCall.waitsOn])
      intro loc hloc j hj
      obtain ⟨hi, hl⟩ := hnone loc hloc
      rw [show s.threadIds t = some j from hj, Option.some.injEq] at hi
      rw [hi, hl]
    · rw [hn]
      refine h.goto rfl rfl rfl rfl (fun _ => rfl) rfl rfl (by simp [hc]) ?_ (by simp [hc])
        (by simp) (by simp [PoolCall.waitsOn])
      intro loc hloc
      obtain ⟨hi, hl⟩ := hnone loc hloc
      exact ⟨hi, rfl, hl⟩

/-- Who has taken a token still has it when a thread that has none moves. -/
lemma TokenInv.taken_stays (h : TokenInv s loc) {c : PoolCall} {j u : ℕ}
    (hcalls : s'.calls = Function.update s.calls t c)
    (hc : ∀ i q op k w, s.calls t ≠ .wait i q op k (.credit w)) (hu : loc j = .taken u) :
    ∃ i q op k w, s'.calls u = .wait i q op k (.credit w) ∧ w.wrId = j := by
  obtain ⟨i, q, op, k, w, hcu, hid⟩ := h.taken j u hu
  refine ⟨i, q, op, k, w, ?_, hid⟩
  rw [hcalls, Function.update_of_ne, hcu]
  rintro rfl
  exact hc _ _ _ _ _ hcu

/-- The token of `t` enters the queue. -/
lemma TokenInv.push (h : TokenInv s loc) {i q : ℕ} {op : PoolOp} {k : ℕ} {w : Wr}
    (hids : s'.threadIds = s.threadIds) (hgen : s'.idGen = s.idGen)
    (hpolled : s'.polled = s.polled) (hcounters : s'.reorderingCounters = s.reorderingCounters)
    (hcalls : s'.calls = Function.update s.calls t (.wait i q op k .test))
    (htok : ∀ q', s'.tokensOn q' = if q' = q then s.tokensOn q ++ [w] else s.tokensOn q')
    (hc : s.calls t = .post i q op) (hsome : op.expects.isSome = true) (hid : w.wrId = i)
    (hk : w.ticket = k) : TokenInv s' (Function.update loc i (.queued q)) := by
  have hp := h.placed t
  rw [hc] at hp
  obtain ⟨hi, hv, hl⟩ := hp
  rw [if_pos hsome] at hl
  have hne : ∀ j x, loc j = x → x ≠ .posting → j ≠ i := by
    rintro j x hj hx rfl
    exact hx (hj.symm.trans hl)
  refine ⟨hgen ▸ h.gen_le, ?_, hids ▸ h.ids_inj, ?_, ?_, ?_, ?_, ?_, ?_⟩
  · intro u j hj
    rw [hgen]
    exact h.ids_lt u j (hids ▸ hj)
  · intro j hj
    rw [hcounters, h.counter j (hgen ▸ hj)]
    by_cases hji : j = i
    · subst hji
      simp [hl]
    · rw [Function.update_of_ne hji]
  · intro j hj
    rw [hids]
    by_cases hji : j = i
    · exact ⟨t, hji ▸ hi⟩
    · rw [Function.update_of_ne hji] at hj
      exact h.owner j hj
  · intro u
    rw [hcalls]
    by_cases hu : u = t
    · subst hu
      rw [Function.update_self]
      refine ⟨hids ▸ hi, .inl ⟨hsome, Function.update_self .., w, ?_, hid, hk⟩,
        fun _ => rfl, by simp⟩
      rw [htok, if_pos rfl]
      simp
    · rw [Function.update_of_ne hu]
      refine (h.placed u).frame (by rw [hids]) (hpolled ▸ fun _ => id) ?_ ?_ ?_
      · intro j hj
        have hji : j ≠ i := fun hji => hu (h.ids_inj _ _ _ (hji ▸ hj) hi)
        exact .inl (Function.update_of_ne hji _ _)
      · intro q' w' hw' _
        rw [htok]
        split_ifs with hq
        · exact List.mem_append_left _ (hq ▸ hw')
        · exact hw'
      · intro j hj
        rwa [Function.update_of_ne (hne j _ hj (by simp))]
  · intro q' w' hw'
    have hold : w' ∈ s.tokensOn q' → Function.update loc i (.queued q) w'.wrId = .queued q' := by
      intro hw'
      have hq' := h.queued q' w' hw'
      rw [Function.update_of_ne (hne _ _ hq' (by simp)), hq']
    rw [htok] at hw'
    split_ifs at hw' with hq
    · rw [List.mem_append, List.mem_singleton] at hw'
      rcases hw' with hw' | rfl
      · exact hold (hq ▸ hw')
      · rw [hq, hid, Function.update_self]
    · exact hold hw'
  · intro q'
    rw [htok]
    split_ifs with hq
    · rw [List.map_append, List.nodup_append]
      refine ⟨h.nodup q, by simp, ?_⟩
      intro a ha b hb
      obtain ⟨w', hw', rfl⟩ := List.mem_map.mp ha
      have hb' : b = i := by simpa [hid] using hb
      rw [hb']
      exact hne _ _ (h.queued q w' hw') (by simp)
    · exact h.nodup q'
  · intro j u hu
    have hji : j ≠ i := by
      rintro rfl
      simp at hu
    rw [Function.update_of_ne hji] at hu
    exact h.taken_stays hcalls (by simp [hc]) hu

lemma post_inv (h : PoolInv s) {i q : ℕ} {op : PoolOp} (hc : s.calls t = .post i q op)
    (hok : op.expects.isSome = true → ∀ u, (s.calls u).sendsOn q = false) {prev : UInt64}
    (hs : callStep s t prev = some s') : PoolInv s' := by
  have hplaced : ∀ loc, TokenInv s loc → Placed s loc t (.post i q op) := by
    intro loc hloc
    have hp := hloc.placed t
    rwa [hc] at hp
  obtain ⟨⟨loc, hloc⟩, hsend⟩ := h
  obtain ⟨-, hv, -⟩ := hplaced loc hloc
  simp only [callStep, hc, PoolOp.flags_eq hv, List.map_cons, List.map_nil, Option.some.injEq] at hs
  subst hs
  have hun := unpolledOn_postSend s q
  cases he : op.expects.isSome with
  | false =>
    refine PoolInv.goto ⟨⟨loc, hloc⟩, hsend⟩ rfl rfl rfl rfl ?_ rfl rfl (by simp [hc]) ?_
      (by simp [hc]) (by simp) (by simp [PoolCall.waitsOn, he])
    · intro q'
      refine (hun q' _).trans ?_
      split_ifs with hq
      · simp [hq]
      · rfl
    · intro loc' hloc'
      obtain ⟨hi, -, hl⟩ := hplaced loc' hloc'
      rw [he] at hl
      exact ⟨hi, .inr (.inr ⟨he, hl⟩), fun _ => rfl, by simp⟩
  | true =>
    refine ⟨⟨_, hloc.push (t := t) (k := s.posts) (w := ⟨i, true, false, s.posts⟩)
      rfl rfl rfl rfl rfl ?_ hc he rfl rfl⟩,
      hsend.goto rfl (by simp [hc]) (by simp) hsend.cq_signaled ?_ ?_⟩
    · intro q'
      refine (congrArg (List.filter fun w => !w.send) (hun q' _)).trans ?_
      split_ifs with hq
      · simp [Pool.tokensOn]
      · rfl
    · intro q'
      by_cases hq : q' = q
      · subst hq
        refine .inr ⟨hok he, ?_⟩
        intro w hw hsw
        rw [unpolledOn_goto, hun, if_pos rfl] at hw
        simp only [List.mem_append, List.filter_cons_of_pos, List.filter_nil,
          List.mem_singleton] at hw
        rcases hw with hw | rfl
        · exact hw
        · cases hsw
      · refine .inl ((hun q' _).trans ?_)
        rw [if_neg hq]
    · intro q' hq'
      simp only [PoolCall.waitsOn, Bool.and_eq_true, beq_iff_eq] at hq'
      exact .inr (hq'.1 ▸ hok he)

/-- The tokens that are left when `w` is taken from the head of its queue. -/
lemma TokenInv.pop_sub (h : TokenInv s loc) {q q' : ℕ} {w w' : Wr}
    (hhead : s.tokensOn q = w :: s'.tokensOn q)
    (htok : ∀ q', q' ≠ q → s'.tokensOn q' = s.tokensOn q') (hw' : w' ∈ s'.tokensOn q') :
    w' ∈ s.tokensOn q' ∧ w'.wrId ≠ w.wrId := by
  by_cases hq : q' = q
  · subst hq
    have hnd := h.nodup q'
    rw [hhead, List.map_cons, List.nodup_cons] at hnd
    rw [hhead]
    refine ⟨List.mem_cons_of_mem _ hw', fun hid => hnd.1 ?_⟩
    exact List.mem_map.mpr ⟨w', hw', hid⟩
  · rw [htok q' hq] at hw'
    refine ⟨hw', fun hid => hq ?_⟩
    have hl := h.queued q w (by rw [hhead]; exact List.mem_cons_self)
    have := h.queued q' w' hw'
    rw [hid, hl] at this
    injection this with this
    exact this.symm

/-- Every call is placed as before when `t` takes the token `w`: the completion of the thread that
`w` is for has been polled. -/
lemma TokenInv.pop_placed (h : TokenInv s loc) {q : ℕ} {w : Wr}
    (hids : s'.threadIds = s.threadIds) (hpolled : s'.polled = s.polled ++ [w.ticket])
    (hhead : s.tokensOn q = w :: s'.tokensOn q)
    (htok : ∀ q', q' ≠ q → s'.tokensOn q' = s.tokensOn q') (u : ℕ) :
    Placed s' (Function.update loc w.wrId (.taken t)) u (s.calls u) := by
  have hw : w ∈ s.tokensOn q := by
    rw [hhead]
    exact List.mem_cons_self
  have hl := h.queued q w hw
  have htaken : ∀ j, loc j = .taken u → Function.update loc w.wrId (.taken t) j = .taken u := by
    intro j hj
    rw [Function.update_of_ne, hj]
    rintro rfl
    rw [hl] at hj
    cases hj
  by_cases hu : s.threadIds u = some w.wrId
  · obtain ⟨v, op', phase, hv, hcv, hsome⟩ := h.waiting hw
    have huv := h.ids_inj u v _ hu hv
    subst huv
    have hp := h.placed u
    rw [hcv] at hp ⊢
    obtain ⟨-, -, hph, hcr⟩ := hp
    refine ⟨hids ▸ hu, .inr (.inl ⟨hsome, .inr ⟨t, Function.update_self ..⟩, ?_⟩), hph,
      fun w' hw' => htaken _ (hcr w' hw')⟩
    rw [hpolled]
    exact List.mem_append_right _ (List.mem_singleton_self _)
  · refine (h.placed u).frame (by rw [hids]) (fun k hk => ?_) ?_ ?_ htaken
    · rw [hpolled]
      exact List.mem_append_left _ hk
    · intro j hj
      have hji : j ≠ w.wrId := fun hji => hu (hji ▸ hj)
      exact .inl (Function.update_of_ne hji _ _)
    · intro q' w' hw' hu'
      by_cases hq : q' = q
      · subst hq
        rw [hhead, List.mem_cons] at hw'
        rcases hw' with rfl | hw'
        · exact absurd hu' hu
        · exact hw'
      · rwa [htok q' hq]

/-- `t` takes a token from the head of the queue it waits on. -/
lemma TokenInv.pop (h : TokenInv s loc) {i q : ℕ} {op : PoolOp} {k : ℕ} {w : Wr}
    (hids : s'.threadIds = s.threadIds) (hgen : s'.idGen = s.idGen)
    (hpolled : s'.polled = s.polled ++ [w.ticket])
    (hcounters : s'.reorderingCounters = s.reorderingCounters)
    (hcalls : s'.calls = Function.update s.calls t (.wait i q op k (.credit w)))
    (hhead : s.tokensOn q = w :: s'.tokensOn q)
    (htok : ∀ q', q' ≠ q → s'.tokensOn q' = s.tokensOn q')
    (hc : s.calls t = .wait i q op k .poll) :
    TokenInv s' (Function.update loc w.wrId (.taken t)) := by
  have hl := h.queued q w (by rw [hhead]; exact List.mem_cons_self)
  refine ⟨hgen ▸ h.gen_le, ?_, hids ▸ h.ids_inj, ?_, ?_, ?_, ?_, ?_, ?_⟩
  · intro u j hj
    rw [hgen]
    exact h.ids_lt u j (hids ▸ hj)
  · intro j hj
    rw [hcounters, h.counter j (hgen ▸ hj)]
    by_cases hji : j = w.wrId
    · subst hji
      simp [hl]
    · rw [Function.update_of_ne hji]
  · intro j hj
    rw [hids]
    by_cases hji : j = w.wrId
    · subst hji
      exact h.owner w.wrId (by rw [hl]; simp)
    · rw [Function.update_of_ne hji] at hj
      exact h.owner j hj
  · intro u
    have hnew := h.pop_placed (t := t) hids hpolled hhead htok
    rw [hcalls]
    by_cases hu : u = t
    · subst hu
      have hp := hnew u
      rw [hc] at hp
      rw [Function.update_self]
      obtain ⟨hi, hwt, hph, -⟩ := hp
      refine ⟨hi, hwt, fun hnone => absurd (hph hnone) (by simp), ?_⟩
      intro w' hw'
      injection hw' with hw'
      rw [← hw', Function.update_self]
    · rw [Function.update_of_ne hu]
      exact hnew u
  · intro q' w' hw'
    obtain ⟨hw', hid⟩ := h.pop_sub hhead htok hw'
    rw [Function.update_of_ne hid]
    exact h.queued q' w' hw'
  · intro q'
    by_cases hq : q' = q
    · subst hq
      have hnd := h.nodup q'
      rw [hhead, List.map_cons, List.nodup_cons] at hnd
      exact hnd.2
    · rw [htok q' hq]
      exact h.nodup q'
  · intro j u hu
    by_cases hji : j = w.wrId
    · subst hji
      rw [Function.update_self] at hu
      injection hu with hu
      subst hu
      exact ⟨i, q, op, k, w, by rw [hcalls, Function.update_self], rfl⟩
    · rw [Function.update_of_ne hji] at hu
      exact h.taken_stays hcalls (by simp [hc]) hu

lemma TokenInv.waitsOn_of_poll (h : TokenInv s loc) {i q : ℕ} {op : PoolOp} {k : ℕ}
    (hc : s.calls t = .wait i q op k .poll) : (s.calls t).waitsOn q = true := by
  have hp := h.placed t
  rw [hc] at hp ⊢
  obtain ⟨-, -, hph, -⟩ := hp
  simp only [PoolCall.waitsOn, BEq.rfl, Bool.true_and]
  by_contra hnone
  rw [Bool.not_eq_true] at hnone
  cases hph hnone

lemma cq_signaled_pollCq (h : SendInv s) {q : ℕ} {w : Wr} {ws : List Wr}
    (hq : s.sendCq q = w :: ws) (q' : ℕ) :
    ∀ w' ∈ (s.pollCq q w ws).sendCq q', w'.signaled = true := by
  intro w' hw'
  unfold Pool.pollCq at hw'
  by_cases hqq : q' = q
  · subst hqq
    simp only [Function.update_self] at hw'
    exact h.cq_signaled q' w' (hq ▸ List.mem_cons_of_mem _ hw')
  · simp only [Function.update_of_ne hqq] at hw'
    exact h.cq_signaled q' w' hw'

lemma poll_inv (h : PoolInv s) {i q : ℕ} {op : PoolOp} {k : ℕ}
    (hc : s.calls t = .wait i q op k .poll) {prev : UInt64}
    (hs : callStep s t prev = some s') : PoolInv s' := by
  have hplaced : ∀ loc, TokenInv s loc → Placed s loc t (.wait i q op k .poll) := by
    intro loc hloc
    have hp := hloc.placed t
    rwa [hc] at hp
  simp only [callStep, hc] at hs
  split at hs
  · rw [Option.some.injEq] at hs
    subst hs
    refine h.goto rfl rfl rfl rfl (fun _ => rfl) rfl rfl (by simp [hc]) ?_ (by simp [hc]) (by simp)
      (fun q' hq' => by rw [hc]; exact hq')
    intro loc hloc
    obtain ⟨hi, hw, -, -⟩ := hplaced loc hloc
    exact ⟨hi, hw, fun _ => rfl, by simp⟩
  · rename_i w ws hq
    rw [Option.some.injEq] at hs
    subst hs
    obtain ⟨⟨loc, hloc⟩, hsend⟩ := h
    have hfree := hsend.sendsOn_false (hloc.waitsOn_of_poll hc)
    have hsig := hsend.cq_signaled q w (hq ▸ List.mem_cons_self)
    have hhead := unpolledOn_head hq hsig
    have hw : w.send = false := hsend.send_false hfree (by rw [hhead]; exact List.mem_cons_self)
    refine ⟨⟨_, hloc.pop (t := t) rfl rfl rfl rfl rfl ?_ ?_ hc⟩,
      hsend.goto rfl (by simp [hc]) (by simp) (cq_signaled_pollCq hsend hq) ?_ ?_⟩
    · unfold Pool.tokensOn
      rw [hhead, List.filter_cons_of_pos (by rw [hw]; rfl), unpolledOn_goto]
    · intro q' hqq
      unfold Pool.tokensOn
      rw [unpolledOn_goto, unpolledOn_pollCq_of_ne hqq]
    · intro q'
      by_cases hqq : q' = q
      · subst hqq
        refine .inr ⟨hfree, fun w' hw' _ => ?_⟩
        rw [hhead]
        exact List.mem_cons_of_mem _ hw'
      · exact .inl (unpolledOn_pollCq_of_ne (w := w) hqq)
    · intro q' hq'
      rw [hc]
      exact .inl hq'

/-! ## The steps of `SendMessage` -/

lemma sendPost_inv (h : PoolInv s) {q wrId : ℕ} (hc : s.calls t = .sendPost q wrId)
    (hok : ∀ u, (s.calls u).sendsOn q = false ∧ (s.calls u).waitsOn q = false) {prev : UInt64}
    (hs : callStep s t prev = some s') : PoolInv s' := by
  obtain ⟨⟨loc, h⟩, hsend⟩ := h
  have hnil : s.unpolledOn q = [] := by
    refine List.eq_nil_iff_forall_not_mem.mpr fun w hw => ?_
    have hw' := hsend.send_false (fun u => (hok u).1) hw
    obtain ⟨u, op, phase, -, hcu, hsome⟩ := h.waiting (mem_tokensOn.mpr ⟨hw, hw'⟩)
    have := (hok u).2
    simp [hcu, PoolCall.waitsOn, hsome] at this
  simp only [callStep, hc, Option.some.injEq] at hs
  set w : Wr := ⟨wrId, true, true, s.posts⟩ with hw
  have hun : ∀ q', s'.unpolledOn q' = if q' = q then [w] else s.unpolledOn q' := by
    intro q'
    subst hs
    refine (unpolledOn_postSend s q q' [w]).trans ?_
    rw [hnil]
    rfl
  have hcalls : s'.calls = Function.update s.calls t (.sendWait q s.posts) := by
    subst hs
    rfl
  have hp := h.placed t
  rw [hc] at hp
  refine ⟨⟨loc, ?_⟩, ?_, ?_, ?_⟩
  · subst hs
    refine h.goto (t := t) rfl rfl rfl ?_ (fun _ => id) rfl (by simp [hc]) hp
    intro q'
    unfold Pool.tokensOn
    rw [hun]
    split_ifs with hq
    · rw [hq, hnil]
      rfl
    · rfl
  · subst hs
    exact hsend.cq_signaled
  · intro q' w' hw' hs'
    rw [hun] at hw'
    rw [hcalls]
    split_ifs at hw' with hq
    · rw [List.mem_singleton] at hw'
      exact ⟨t, by rw [Function.update_self, hq, hw']⟩
    · obtain ⟨u, hu⟩ := hsend.sends q' w' hw' hs'
      refine ⟨u, ?_⟩
      rw [Function.update_of_ne, hu]
      rintro rfl
      rw [hc] at hu
      cases hu
  · intro u q' k hk
    rw [hun, hcalls]
    by_cases hu : u = t
    · subst hu
      rw [hcalls, Function.update_self] at hk
      injection hk with hq hk
      subst hq hk
      rw [if_pos rfl]
      refine ⟨⟨w, rfl, rfl, rfl⟩, fun v => ?_⟩
      by_cases hv : v = u
      · subst hv
        rw [Function.update_self]
        exact ⟨rfl, fun h' => absurd rfl h'⟩
      · rw [Function.update_of_ne hv]
        exact ⟨(hok v).2, fun _ => (hok v).1⟩
    · rw [hcalls, Function.update_of_ne hu] at hk
      have hqq : q' ≠ q := by
        rintro rfl
        have := (hok u).1
        simp [hk, PoolCall.sendsOn] at this
      rw [if_neg hqq]
      obtain ⟨hone, hrest⟩ := hsend.alone u q' k hk
      refine ⟨hone, fun v => ?_⟩
      by_cases hv : v = t
      · subst hv
        rw [Function.update_self]
        refine ⟨rfl, fun _ => ?_⟩
        simp [PoolCall.sendsOn, Ne.symm hqq]
      · rw [Function.update_of_ne hv]
        exact hrest v

lemma sendWait_inv (h : PoolInv s) {q k : ℕ} (hc : s.calls t = .sendWait q k) {prev : UInt64}
    (hs : callStep s t prev = some s') : PoolInv s' := by
  simp only [callStep, hc] at hs
  split at hs
  · rw [Option.some.injEq] at hs
    exact hs ▸ h
  · rename_i w ws hq
    rw [Option.some.injEq] at hs
    obtain ⟨⟨loc, h⟩, hsend⟩ := h
    obtain ⟨⟨w₀, hw₀, hsw, -⟩, halone⟩ := hsend.alone t q k hc
    have hsig := hsend.cq_signaled q w (hq ▸ List.mem_cons_self)
    have hhead := unpolledOn_head hq hsig
    rw [hw₀, List.cons.injEq] at hhead
    have hun : ∀ q', s'.unpolledOn q' = if q' = q then [] else s.unpolledOn q' := by
      intro q'
      subst hs
      rw [unpolledOn_goto]
      split_ifs with hqq
      · rw [hqq, ← hhead.2]
      · exact unpolledOn_pollCq_of_ne hqq
    have hcalls : s'.calls = Function.update s.calls t .idle := by
      subst hs
      rfl
    have hp := h.placed t
    rw [hc] at hp
    refine ⟨⟨loc, ?_⟩, ?_, ?_, ?_⟩
    · subst hs
      refine h.goto (t := t) rfl rfl rfl ?_ (fun k => List.mem_append_left _) rfl (by simp [hc]) hp
      intro q'
      unfold Pool.tokensOn
      rw [hun]
      split_ifs with hqq
      · rw [hqq, hw₀, List.filter_cons_of_neg (by simp [hsw])]
      · rfl
    · subst hs
      exact cq_signaled_pollCq hsend hq
    · intro q' w' hw' hs'
      rw [hun] at hw'
      split_ifs at hw' with hqq
      · simp at hw'
      · obtain ⟨u, hu⟩ := hsend.sends q' w' hw' hs'
        refine ⟨u, ?_⟩
        rw [hcalls, Function.update_of_ne, hu]
        rintro rfl
        rw [hc] at hu
        injection hu with hu
        exact hqq hu.symm
    · intro u q' k' hk
      have hut : u ≠ t := by
        rintro rfl
        simp [hcalls] at hk
      rw [hcalls, Function.update_of_ne hut] at hk
      have hqq : q' ≠ q := by
        rintro rfl
        have := (halone u).2 hut
        simp [hk, PoolCall.sendsOn] at this
      obtain ⟨hone, hrest⟩ := hsend.alone u q' k' hk
      rw [hun, if_neg hqq, hcalls]
      refine ⟨hone, fun v => ?_⟩
      by_cases hv : v = t
      · subst hv
        rw [Function.update_self]
        exact ⟨rfl, fun _ => rfl⟩
      · rw [Function.update_of_ne hv]
        exact hrest v

/-- Every step of a run in which the two kinds of traffic keep apart keeps the invariant. -/
theorem poolStep_inv {e : QueueEvent} (h : PoolInv s) (hok : Separate s e)
    (hs : poolStep s e = some s') : PoolInv s' := by
  cases e with
  | register t =>
    simp only [poolStep] at hs
    split_ifs at hs with hc
    exact registerThread_inv h hc hs
  | call t q op =>
    simp only [poolStep] at hs
    split at hs
    · rename_i i hc hi
      split_ifs at hs with hv
      rw [Option.some.injEq] at hs
      exact hs ▸ call_inv h hc hi hv
    · cases hs
  | send t q len =>
    simp only [poolStep] at hs
    split_ifs at hs with hc hlen
    · rw [Option.some.injEq] at hs
      exact hs ▸ h
    · rw [Option.some.injEq] at hs
      exact hs ▸ send_inv h hc _ _
  | step t prev =>
    simp only [poolStep] at hs
    simp only [Separate] at hok
    cases hc : s.calls t with
    | idle => simp [callStep, hc] at hs
    | aborted => simp [callStep, hc] at hs
    | start i q op => exact start_inv h hc hs
    | post i q op =>
      rw [hc] at hok
      exact post_inv h hc hok hs
    | wait i q op k phase =>
      cases phase with
      | test => exact test_inv h hc hs
      | poll => exact poll_inv h hc hs
      | credit w => exact credit_inv h hc hs
    | sendPost q wrId =>
      rw [hc] at hok
      exact sendPost_inv h hc hok hs
    | sendWait q k => exact sendWait_inv h hc hs
  | complete q =>
    simp only [poolStep] at hs
    split at hs
    · cases hs
    · rename_i w ws hq
      rw [Option.some.injEq] at hs
      exact hs ▸ complete_inv h hq

end

end Rome
