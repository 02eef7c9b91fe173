import Rome.MemoryPool
import Rome.Lib.Machine

/-!
# The requests of a pool, and where they are

A signaled request is at one place at a time: being posted, in the queue of its connection, or with
the thread that polled it. The counter of its thread is 1 while it is anywhere, whoever counts it.
A `SendMessage` that waits on a connection has it to itself.
-/

namespace Rome

/-! ## The requests of an operation -/

lemma numChunks_self {n : ℕ} (h : 0 < n) : numChunks n n = 1 := by
  unfold numChunks
  rw [Nat.mod_self, Nat.div_self h]
  rfl

lemma readFlags_self {n : ℕ} (h : 0 < n) : readFlags n n = [true] := by
  unfold readFlags
  rw [numChunks_self h]
  rfl

lemma PoolOp.expects_eq {op : PoolOp} (h : op.valid = true) (hs : op.expects.isSome = true) :
    op.expects = some 1 := by
  cases op with
  | write b =>
    simp only [expects] at hs ⊢
    split_ifs at hs ⊢
    · rfl
    · simp at hs
  | compareAndSwap => rfl
  | atomicSwap c => rfl
  | read n =>
    simp only [valid, decide_eq_true_eq] at h
    simp only [expects, numChunks_self h]
  | extendedRead n k =>
    simp only [valid, decide_eq_true_eq] at h
    simp only [expects, numChunks_self h]

/-- Just one request is signaled, if the counter is set. -/
lemma PoolOp.flags_eq {op : PoolOp} (h : op.valid = true) : op.flags = [op.expects.isSome] := by
  cases op with
  | write b =>
    simp only [flags, expects]
    split_ifs with hb
    · simp [hb]
    · simp [hb]
  | compareAndSwap => rfl
  | atomicSwap c => rfl
  | read n =>
    simp only [valid, decide_eq_true_eq] at h
    simp only [flags, expects, readFlags_self h, Option.isSome_some]
  | extendedRead n k =>
    simp only [valid, decide_eq_true_eq] at h
    simp only [flags, expects, readFlags_self h, Option.isSome_some]

/-! ## The queue of a connection -/

/-- The signaled requests on `q` whose completion is not polled, oldest first. -/
def Pool.unpolledOn (s : Pool) (q : ℕ) : List Wr := (s.sendCq q ++ s.wire q).filter (·.signaled)

/-- Those of the threads' one-sided operations. -/
def Pool.tokensOn (s : Pool) (q : ℕ) : List Wr := (s.unpolledOn q).filter fun w => !w.send

lemma mem_tokensOn {s : Pool} {q : ℕ} {w : Wr} :
    w ∈ s.tokensOn q ↔ w ∈ s.unpolledOn q ∧ w.send = false := by
  simp [Pool.tokensOn]

@[simp] lemma unpolledOn_goto (s : Pool) (t q : ℕ) (c : PoolCall) :
    (s.goto t c).unpolledOn q = s.unpolledOn q := rfl

lemma unpolledOn_postSend (s : Pool) (q q' : ℕ) (wrs : List Wr) :
    (s.postSend q wrs).unpolledOn q' =
      if q' = q then s.unpolledOn q ++ wrs.filter (·.signaled) else s.unpolledOn q' := by
  unfold Pool.unpolledOn Pool.postSend
  by_cases hq : q' = q
  · subst hq
    simp
  · simp [hq]

lemma unpolledOn_head {s : Pool} {q : ℕ} {w : Wr} {ws : List Wr} (hq : s.sendCq q = w :: ws)
    (hw : w.signaled = true) : s.unpolledOn q = w :: (s.pollCq q w ws).unpolledOn q := by
  simp [Pool.unpolledOn, Pool.pollCq, hq, hw]

lemma unpolledOn_pollCq_of_ne {s : Pool} {q q' : ℕ} {w : Wr} {ws : List Wr} (h : q' ≠ q) :
    (s.pollCq q w ws).unpolledOn q' = s.unpolledOn q' := by
  simp [Pool.unpolledOn, Pool.pollCq, h]

/-! ## The invariant -/

/-- Where the signaled request of a thread is. -/
inductive Loc
  | nowhere
  | posting
  | queued (q : ℕ)
  | taken (t : ℕ)
  deriving DecidableEq

/-- What the request of an operation that was post number `k` has come to: it is in the queue, or
its completion was polled. -/
def Waits (s : Pool) (loc : ℕ → Loc) (i q : ℕ) (op : PoolOp) (k : ℕ) : Prop :=
  (op.expects.isSome = true ∧ loc i = .queued q ∧ ∃ w ∈ s.tokensOn q, w.wrId = i ∧ w.ticket = k) ∨
  (op.expects.isSome = true ∧ (loc i = .nowhere ∨ ∃ u, loc i = .taken u) ∧ k ∈ s.polled) ∨
  (op.expects.isSome = false ∧ loc i = .nowhere)

/-- Where a thread stands agrees with where its request is. -/
def Placed (s : Pool) (loc : ℕ → Loc) (t : ℕ) : PoolCall → Prop
  | .idle | .sendPost _ _ | .sendWait _ _ => ∀ i, s.threadIds t = some i → loc i = .nowhere
  | .aborted => False
  | .start i _ op => s.threadIds t = some i ∧ op.valid = true ∧ loc i = .nowhere
  | .post i _ op => s.threadIds t = some i ∧ op.valid = true ∧
      loc i = if op.expects.isSome then .posting else .nowhere
  | .wait i q op k phase => s.threadIds t = some i ∧ Waits s loc i q op k ∧
      (op.expects.isSome = false → phase = .test) ∧
      ∀ w, phase = .credit w → loc w.wrId = .taken t

/-- Each registered thread's request is at one place, and its counter says whether it is
anywhere. -/
structure TokenInv (s : Pool) (loc : ℕ → Loc) : Prop where
  gen_le : s.idGen ≤ threadMax
  ids_lt : ∀ t i, s.threadIds t = some i → i < s.idGen
  ids_inj : ∀ t t' i, s.threadIds t = some i → s.threadIds t' = some i → t = t'
  counter : ∀ i < s.idGen, s.reorderingCounters i = if loc i = .nowhere then 0 else 1
  owner : ∀ i, loc i ≠ .nowhere → ∃ t, s.threadIds t = some i
  placed : ∀ t, Placed s loc t (s.calls t)
  queued : ∀ q, ∀ w ∈ s.tokensOn q, loc w.wrId = .queued q
  nodup : ∀ q, ((s.tokensOn q).map Wr.wrId).Nodup
  taken : ∀ i t, loc i = .taken t →
    ∃ j q op k w, s.calls t = .wait j q op k (.credit w) ∧ w.wrId = i

/-- A `SendMessage` that waits on a connection is alone there. -/
structure SendInv (s : Pool) : Prop where
  cq_signaled : ∀ q, ∀ w ∈ s.sendCq q, w.signaled = true
  sends : ∀ q, ∀ w ∈ s.unpolledOn q, w.send = true → ∃ t, s.calls t = .sendWait q w.ticket
  alone : ∀ t q k, s.calls t = .sendWait q k →
    (∃ w, s.unpolledOn q = [w] ∧ w.send = true ∧ w.ticket = k) ∧
    ∀ t', (s.calls t').waitsOn q = false ∧ (t' ≠ t → (s.calls t').sendsOn q = false)

/-- The invariant of a pool. -/
def PoolInv (s : Pool) : Prop := (∃ loc, TokenInv s loc) ∧ SendInv s

lemma poolInv_init (counters : ℕ → ℤ) (sendTotal : ℕ → ℕ) :
    PoolInv (poolInit counters sendTotal) := by
  have hun : ∀ q, (poolInit counters sendTotal).unpolledOn q = [] := fun q => rfl
  refine ⟨⟨fun _ => .nowhere, ?_⟩, ?_⟩
  · refine ⟨Nat.zero_le _, ?_, ?_, ?_, ?_, fun t i _ => rfl, ?_, ?_, ?_⟩ <;>
      simp [poolInit, Pool.tokensOn, Pool.unpolledOn]
  · refine ⟨?_, ?_, ?_⟩ <;> simp [poolInit, Pool.unpolledOn]

section
variable {s s' : Pool} {loc loc' : ℕ → Loc} {t : ℕ} {c : PoolCall}

lemma sendsOn_of_ne {q : ℕ} (h : ∀ k, c ≠ .sendWait q k) : c.sendsOn q = false := by
  cases c with
  | sendWait q' k =>
    by_contra hc
    simp only [PoolCall.sendsOn, Bool.not_eq_false, beq_iff_eq] at hc
    subst hc
    exact h k rfl
  | _ => rfl

/-- A step that leaves a thread's request where it is, or counts it, leaves the thread placed. -/
lemma Placed.frame (h : Placed s loc t c) (hids : s'.threadIds t = s.threadIds t)
    (hpolled : ∀ k ∈ s.polled, k ∈ s'.polled)
    (hloc : ∀ i, s.threadIds t = some i →
      loc' i = loc i ∨ (∃ u, loc i = .taken u) ∧ loc' i = .nowhere)
    (htok : ∀ q, ∀ w ∈ s.tokensOn q, s.threadIds t = some w.wrId → w ∈ s'.tokensOn q)
    (htaken : ∀ i, loc i = .taken t → loc' i = .taken t) : Placed s' loc' t c := by
  have hsame : ∀ i x, s.threadIds t = some i → loc i = x → (∀ u, x ≠ .taken u) → loc' i = x := by
    intro i x hi hx hne
    rcases hloc i hi with h' | ⟨⟨u, hu⟩, -⟩
    · rw [h', hx]
    · exact absurd (hx.symm.trans hu) (hne u)
  cases c with
  | idle | sendPost _ _ | sendWait _ _ =>
    exact fun i hi => hsame i _ (hids ▸ hi) (h i (hids ▸ hi)) (by simp)
  | aborted => exact h
  | start i q op =>
    obtain ⟨hi, hv, hl⟩ := h
    exact ⟨hids ▸ hi, hv, hsame i _ hi hl (by simp)⟩
  | post i q op =>
    obtain ⟨hi, hv, hl⟩ := h
    refine ⟨hids ▸ hi, hv, hsame i _ hi hl fun u => ?_⟩
    split_ifs <;> simp
  | wait i q op k phase =>
    obtain ⟨hi, hw, hp, hc⟩ := h
    refine ⟨hids ▸ hi, ?_, hp, fun w hw' => htaken _ (hc w hw')⟩
    rcases hw with ⟨hsome, hl, w, hw, hid, hk⟩ | ⟨hsome, hl, hk⟩ | ⟨hnone, hl⟩
    · exact .inl ⟨hsome, hsame i _ hi hl (by simp), w, htok q w hw (hid ▸ hi), hid, hk⟩
    · refine .inr (.inl ⟨hsome, ?_, hpolled k hk⟩)
      rcases hloc i hi with h' | ⟨-, h'⟩
      · rwa [h']
      · exact .inl h'
    · exact .inr (.inr ⟨hnone, hsame i _ hi hl (by simp)⟩)

/-- A step of `t` that leaves the tokens in their queues, sets its own on the way or counts one it
has polled. -/
lemma TokenInv.retarget (h : TokenInv s loc) (hcalls : s'.calls = Function.update s.calls t c)
    (hids : s'.threadIds = s.threadIds) (hgen : s'.idGen = s.idGen)
    (htok : ∀ q, s'.tokensOn q = s.tokensOn q) (hpolled : ∀ k ∈ s.polled, k ∈ s'.polled)
    (hcounter : ∀ i < s.idGen, s'.reorderingCounters i = if loc' i = .nowhere then 0 else 1)
    (hloc : ∀ i, loc' i = loc i ∨ (loc i = .nowhere ∧ loc' i = .posting ∧ s.threadIds t = some i) ∨
      (loc i = .taken t ∧ loc' i = .nowhere))
    (hnot : ∀ i, loc' i ≠ .taken t) (hplaced : Placed s' loc' t c) : TokenInv s' loc' := by
  refine ⟨hgen ▸ h.gen_le, ?_, hids ▸ h.ids_inj, hgen ▸ hcounter, ?_, ?_, ?_, ?_, ?_⟩
  · intro t' i hi
    rw [hgen]
    exact h.ids_lt t' i (hids ▸ hi)
  · intro i hi
    rw [hids]
    rcases hloc i with h' | ⟨-, -, h'⟩ | ⟨-, h'⟩
    · exact h.owner i (h' ▸ hi)
    · exact ⟨t, h'⟩
    · exact absurd h' hi
  · intro t'
    rw [hcalls]
    by_cases ht : t' = t
    · subst ht
      rwa [Function.update_self]
    · rw [Function.update_of_ne ht]
      refine (h.placed t').frame (by rw [hids]) hpolled ?_ ?_ ?_
      · intro i hi
        rcases hloc i with h' | ⟨-, -, h'⟩ | ⟨h', h''⟩
        · exact .inl h'
        · exact absurd (h.ids_inj _ _ _ hi h') ht
        · exact .inr ⟨⟨t, h'⟩, h''⟩
      · intro q w hw _
        rwa [htok]
      · intro i hi
        rcases hloc i with h' | ⟨h', -, -⟩ | ⟨h', -⟩
        · rw [h', hi]
        · rw [hi] at h'
          cases h'
        · rw [hi] at h'
          injection h' with h'
          exact absurd h' ht
  · intro q w hw
    rw [htok] at hw
    have hq := h.queued q w hw
    rcases hloc w.wrId with h' | ⟨h', -, -⟩ | ⟨h', -⟩
    · rw [h', hq]
    · rw [hq] at h'
      cases h'
    · rw [hq] at h'
      cases h'
  · intro q
    rw [htok]
    exact h.nodup q
  · intro i u hu
    have hut : u ≠ t := fun h' => hnot i (h' ▸ hu)
    rw [hcalls, Function.update_of_ne hut]
    rcases hloc i with h' | ⟨-, h', -⟩ | ⟨-, h'⟩
    · exact h.taken i u (h' ▸ hu)
    · rw [hu] at h'
      cases h'
    · rw [hu] at h'
      cases h'

/-- A step of `t` that moves no token. -/
lemma TokenInv.goto (h : TokenInv s loc) (hcalls : s'.calls = Function.update s.calls t c)
    (hids : s'.threadIds = s.threadIds) (hgen : s'.idGen = s.idGen)
    (htok : ∀ q, s'.tokensOn q = s.tokensOn q) (hpolled : ∀ k ∈ s.polled, k ∈ s'.polled)
    (hcounters : s'.reorderingCounters = s.reorderingCounters)
    (hcredit : ∀ j q op k w, s.calls t ≠ .wait j q op k (.credit w))
    (hplaced : Placed s' loc t c) : TokenInv s' loc := by
  refine h.retarget hcalls hids hgen htok hpolled (hcounters ▸ h.counter) (fun i => .inl rfl) ?_
    hplaced
  intro i hi
  obtain ⟨j, q, op, k, w, hc, -⟩ := h.taken i t hi
  exact hcredit j q op k w hc

/-- The index of a token is counted 1. -/
lemma TokenInv.counter_one (h : TokenInv s loc) {i : ℕ} (hi : loc i ≠ .nowhere) :
    i < threadMax ∧ s.reorderingCounters i = 1 := by
  obtain ⟨t, ht⟩ := h.owner i hi
  have hlt := h.ids_lt t i ht
  have hle := h.gen_le
  refine ⟨by omega, ?_⟩
  rw [h.counter i hlt, if_neg hi]

/-- The thread a completion is for waits for it. -/
lemma TokenInv.waiting (h : TokenInv s loc) {q : ℕ} {w : Wr} (hw : w ∈ s.tokensOn q) :
    ∃ t op phase, s.threadIds t = some w.wrId ∧ s.calls t = .wait w.wrId q op w.ticket phase ∧
      op.expects.isSome = true := by
  have hl := h.queued q w hw
  obtain ⟨t, ht⟩ := h.owner w.wrId (by rw [hl]; simp)
  have hp := h.placed t
  cases hc : s.calls t with
  | idle | sendPost _ _ | sendWait _ _ =>
    rw [hc] at hp
    have := hp _ ht
    rw [hl] at this
    cases this
  | aborted =>
    rw [hc] at hp
    exact hp.elim
  | start i q' op =>
    rw [hc] at hp
    obtain ⟨hi, -, hn⟩ := hp
    rw [ht, Option.some.injEq] at hi
    rw [← hi, hl] at hn
    cases hn
  | post i q' op =>
    rw [hc] at hp
    obtain ⟨hi, -, hn⟩ := hp
    rw [ht, Option.some.injEq] at hi
    rw [← hi, hl] at hn
    split_ifs at hn
  | wait i q' op k phase =>
    rw [hc] at hp
    obtain ⟨hi, hwt, -, -⟩ := hp
    rw [ht, Option.some.injEq] at hi
    subst hi
    rcases hwt with ⟨hsome, hlq, w', hw', hid, hk⟩ | ⟨-, hlq | ⟨u, hlq⟩, -⟩ | ⟨-, hlq⟩
    · rw [hl] at hlq
      injection hlq with hlq
      subst hlq
      have hww : w' = w := List.inj_on_of_nodup_map (h.nodup q) hw' hw hid
      subst hww
      exact ⟨t, op, phase, ht, hk ▸ hc, hsome⟩
    · rw [hl] at hlq
      cases hlq
    · rw [hl] at hlq
      cases hlq
    · rw [hl] at hlq
      cases hlq

/-- A step of a thread that has no part in a waiting `SendMessage` on either side of it. -/
lemma SendInv.goto (h : SendInv s) (hcalls : s'.calls = Function.update s.calls t c)
    (hold : ∀ q k, s.calls t ≠ .sendWait q k) (hnew : ∀ q k, c ≠ .sendWait q k)
    (hcq : ∀ q, ∀ w ∈ s'.sendCq q, w.signaled = true)
    (hun : ∀ q, s'.unpolledOn q = s.unpolledOn q ∨ ((∀ u, (s.calls u).sendsOn q = false) ∧
      ∀ w ∈ s'.unpolledOn q, w.send = true → w ∈ s.unpolledOn q))
    (hwaits : ∀ q, c.waitsOn q = true →
      (s.calls t).waitsOn q = true ∨ ∀ u, (s.calls u).sendsOn q = false) : SendInv s' := by
  refine ⟨hcq, ?_, ?_⟩
  · intro q w hw hs
    have hmem : w ∈ s.unpolledOn q := by
      rcases hun q with h' | ⟨-, h'⟩
      · rwa [← h']
      · exact h' w hw hs
    obtain ⟨u, hu⟩ := h.sends q w hmem hs
    have hut : u ≠ t := fun h' => hold _ _ (h' ▸ hu)
    exact ⟨u, by rwa [hcalls, Function.update_of_ne hut]⟩
  · intro u q k hk
    have hut : u ≠ t := by
      rintro rfl
      rw [hcalls, Function.update_self] at hk
      exact hnew q k hk
    rw [hcalls, Function.update_of_ne hut] at hk
    have hsome : ¬ ∀ v, (s.calls v).sendsOn q = false := by
      intro h'
      have := h' u
      simp [hk, PoolCall.sendsOn] at this
    obtain ⟨hone, hrest⟩ := h.alone u q k hk
    refine ⟨?_, fun v => ?_⟩
    · rcases hun q with h' | ⟨h', -⟩
      · rwa [h']
      · exact absurd h' hsome
    · rw [hcalls]
      by_cases hv : v = t
      · subst hv
        rw [Function.update_self]
        refine ⟨?_, fun _ => sendsOn_of_ne (hnew q)⟩
        by_contra hc
        rw [Bool.not_eq_false] at hc
        rcases hwaits q hc with h' | h'
        · rw [(hrest v).1] at h'
          cases h'
        · exact hsome h'
      · rw [Function.update_of_ne hv]
        exact hrest v

/-- Where a thread waits on `q`, no `SendMessage` does. -/
lemma SendInv.sendsOn_false (h : SendInv s) {q : ℕ} (hw : (s.calls t).waitsOn q = true) (u : ℕ) :
    (s.calls u).sendsOn q = false := by
  refine sendsOn_of_ne fun k hk => ?_
  have := ((h.alone u q k hk).2 t).1
  rw [hw] at this
  cases this

/-- Where no `SendMessage` waits on `q`, every completion to be polled there is of a thread. -/
lemma SendInv.send_false (h : SendInv s) {q : ℕ} (hq : ∀ u, (s.calls u).sendsOn q = false)
    {w : Wr} (hw : w ∈ s.unpolledOn q) : w.send = false := by
  by_contra hs
  rw [Bool.not_eq_false] at hs
  obtain ⟨u, hu⟩ := h.sends q w hw hs
  have := hq u
  simp [hu, PoolCall.sendsOn] at this

end

end Rome
