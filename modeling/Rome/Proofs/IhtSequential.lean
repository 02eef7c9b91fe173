import Rome.Proofs.IhtLinear

/-!
# Calls one at a time

When each call is made after the one before it has returned, whichever client makes it, a snapshot
is never out of date: only the client that took it writes buckets. So no insert finds an E-List in
a bucket its snapshot has empty, the run is linearizable, and calls one after the other have one
order.
-/

namespace Rome

open HashTrie Lin Machine

variable {ι K V : Type*}

/-- A call is made when no other is under way. -/
def Alone (s : IhtState ι K V) : IhtEvent ι K V → Prop
  | .invoke _ _ => ∀ j, (s.client j).phase.call = none
  | _ => True

instance [Fintype ι] (s : IhtState ι K V) : (e : IhtEvent ι K V) → Decidable (Alone s e)
  | .invoke _ _ => inferInstanceAs (Decidable (∀ j, (s.client j).phase.call = none))
  | .step _ _ => .isTrue trivial
  | .deliver _ => .isTrue trivial

/-- The snapshot a client may still act on. -/
def Phase.view : Phase K V → Option Ctx
  | .head _ _ ctx => some ctx
  | .refetch _ _ ctx => some ctx
  | .locked _ _ ctx => some ctx
  | .rehash _ _ ctx => some ctx
  | .link _ _ ctx _ _ => some ctx
  | .unlock _ _ ctx status _ => if status = pUnlocked then some ctx else none
  | _ => none

theorem Phase.view_of_call {ph : Phase K V} (h : ph.call = none) : ph.view = none := by
  cases ph <;> simp [Phase.call] at h
  rfl

/-- What the snapshot has empty is empty. -/
def Current (h : Heap K V) (ph : Phase K V) : Prop :=
  ∀ ctx, ph.view = some ctx → ∀ b, (bucketAt ctx.curr.buckets b).base = .null →
    (h.bucket ctx.parent b).base = .null

section Current

variable {h h' : Heap K V} {ph ph' : Phase K V}

theorem current_of_view (hv : ph.view = none) : Current h ph := by
  intro ctx hc
  rw [hv] at hc
  cases hc

theorem Current.congr (ctx ctx' : Ctx) (H : Current h ph) (hv : ph.view = some ctx)
    (hv' : ph'.view = some ctx') (hc : ctx'.curr = ctx.curr)
    (hh : ∀ b, (h'.bucket ctx'.parent b).base = (h.bucket ctx.parent b).base) : Current h' ph' := by
  intro ctx'' hctx b hb
  rw [hv', Option.some.injEq] at hctx
  subst hctx
  rw [hh]
  exact H ctx hv b (by rw [← hc]; exact hb)

end Current

section Steps

variable [DecidableEq K] {C : IhtCfg ι K} {s s' : IhtState ι K V}
  {T : Trie RemotePtr K V} {m : K → Option V} {st : ℕ → Status (Op K V) (Option V)} {i : ι} {n : ℕ}
  {op : Op K V} {ctx : Ctx} {e : Effect K V} {fresh : List RemotePtr}

/-- A snapshot is up to date when it is taken. -/
theorem SimAt.current_read (H : SimAt C s T m st) {k : K} {ph : Phase K V}
    (hv : ph.view = some ctx) (hp : OnPath (bucketOf C.toIhtParams) C.root T k ctx.parent ctx.depth)
    (hread : ctx.curr.buckets =
      Rome.extendedRead C.toIhtParams s.heap ctx.parent (2 ^ (ctx.depth - 1))) :
    Current s.heap ph := by
  intro ctx' hctx b hb
  rw [hv, Option.some.injEq] at hctx
  subst hctx
  rwa [hread, (H.extendedRead hp).2] at hb

/-- At the head of the loop a snapshot stays up to date, or a new one is taken. -/
theorem SimAt.current_head (H : SimAt C s T m st) (hr : Reads C s i)
    (hph : (s.client i).phase = .head n op ctx) (hcur : Current s.heap (s.client i).phase) :
    Current (doWithHead C i s.heap (s.client i) n op ctx).heap
      (doWithHead C i s.heap (s.client i) n op ctx).client.phase := by
  have hP := H.phase i
  rw [hph] at hP
  obtain ⟨-, hrel⟩ := hP
  have hv : (s.client i).phase.view = some ctx := by rw [hph]; rfl
  generalize hb : levelHash C.toIhtParams op.key ctx.depth ctx.count = b
  by_cases hdown : (bucketAt ctx.curr.buckets b).lock = pUnlocked
  · have hs := hrel.down _ hdown
    have hpath : OnPath (bucketOf C.toIhtParams) C.root T op.key (bucketAt ctx.curr.buckets b).base
        (ctx.depth + 1) := by
      refine .child hrel.path ?_
      rw [bucketOf, ← hrel.count, hb]
      exact hs
    have hread := hr (bucketAt ctx.curr.buckets b).base ctx.depth (ctx.path.set (ctx.depth - 1) b)
      (by simp only [IhtState.entering, hph, hb]; rw [if_pos hdown])
    rw [← Client.enter_buckets (Client.deallocate_cache _ ctx.curr)] at hread
    rw [doWithHead_down hb.symm hdown]
    exact H.current_read rfl hpath hread
  · rw [doWithHead_stay hb.symm hdown]
    generalize ctx.path.set (ctx.depth - 1) (b : ℤ) = path
    simp only []
    split_ifs with h1 h2
    · exact hcur.congr ctx _ hv rfl rfl fun _ => rfl
    · refine hcur.congr ctx _ hv rfl rfl fun b' => ?_
      have hhas : s.heap.Has ctx.parent b := Heap.has_of_isLock (.inr (.inl h2))
      by_cases hbb : b' = b
      · rw [hbb, Heap.bucket_setBucket_self hhas]
      · rw [Heap.bucket_setBucket_ne fun hpb => hbb hpb.2]
    · exact hcur.congr ctx _ hv rfl rfl fun _ => rfl

/-- A client's own step leaves its snapshot up to date. -/
theorem SimAt.current_step (H : SimAt C s T m st) (hread : Reads C s i)
    (hcur : Current s.heap (s.client i).phase)
    (he : Rome.stepClient C i s.heap (s.client i) fresh = some e) :
    Current e.heap e.client.phase := by
  have hP := H.phase i
  rcases hph : (s.client i).phase with _ | ⟨n, op⟩ | ⟨n, op, ctx⟩ | ⟨n, op, ctx⟩ | ⟨n, op, ctx⟩ |
    ⟨n, op, ctx, l, r⟩ | ⟨n, op, ctx⟩ | ⟨n, op, ctx, ptr, status⟩ | ⟨n, op, ctx, status, r⟩ |
    ⟨n, op, r⟩ <;> rw [hph] at hP <;>
    simp only [Rome.stepClient, hph, Option.some.injEq, reduceCtorEq] at he
  · subst he
    exact H.current_read (k := op.key) rfl .root (hread C.root 0 (List.replicate 8 (-1))
      (by simp only [IhtState.entering, hph]))
  · split_ifs at he
    cases he
    exact H.current_head hread hph hcur
  · subst he
    simp only [doWithRefetch, Client.read]
    exact H.current_read rfl hP.2.path rfl
  · have hv : (s.client i).phase.view = some ctx := by rw [hph]; rfl
    cases doWithLocked_cases he with
    | finish => exact current_of_view (by simp [Phase.view, eUnlocked_ne_pUnlocked])
    | write => exact current_of_view rfl
    | link | rehash => exact hcur.congr ctx _ hv rfl rfl fun _ => rfl
  · subst he
    exact current_of_view (by simp [Phase.view, eUnlocked_ne_pUnlocked])
  · split_ifs at he with ha
    obtain ⟨⟨h', p⟩, hr, rfl⟩ := Option.map_eq_some_iff.1 he
    obtain ⟨-, hrel, hs, -⟩ := hP
    have hl := (H.heap.leaf _ _ _ hs).2
    rw [hrel.rel.count] at hr
    obtain ⟨blocks, rest, h₁, bs, rfl, -, hplist, -⟩ := rehash_spec hrel.rel.path.one_le hl ha hr
    refine hcur.congr ctx ctx (by rw [hph]; rfl) rfl rfl fun b => ?_
    obtain ⟨bs', h2, -⟩ := H.heap.len _ _ _ hrel.rel.path
    have hne : ctx.parent ≠ p := by
      rintro rfl
      rw [((Heap.unused ha).free _ List.mem_cons_self).2.2] at h2
      cases h2
    exact congrArg PlistPair.base (Heap.bucket_of_update hplist hne b)
  · subst he
    obtain ⟨-, hrel, -, ⟨rfl, -⟩ | ⟨rfl, hs, -⟩⟩ := hP
    · exact current_of_view (by simp [doWithLink, Phase.view, eUnlocked_ne_pUnlocked])
    · have hlt : ctx.bucket < ctx.curr.buckets.length := by
        rw [hrel.rel.length, hrel.rel.count, hrel.bucket]
        exact bucketOf_lt _ _ _
      intro ctx' hctx b hb
      simp only [doWithLink, if_true, Phase.view, Option.some.injEq] at hctx ⊢
      subst hctx
      by_cases hbb : b = ctx.bucket
      · subst hbb
        simp only [bucketAt_set_self hlt] at hb
        exact absurd hb (H.heap.node _ _ _ hs).1
      · rw [Heap.bucket_setBucket_ne fun hpb => hbb hpb.2]
        rw [bucketAt_set_ne (Ne.symm hbb)] at hb
        exact hcur ctx (by rw [hph]; rfl) b hb
  · subst he
    obtain ⟨-, ⟨rfl, -⟩ | ⟨rfl, -⟩⟩ := hP
    · exact current_of_view (by simp [doWithUnlock, Phase.view])
    · refine hcur.congr ctx ctx (by rw [hph]; simp [Phase.view]) ?_ rfl
        fun _ => rfl
      simp [doWithUnlock, Phase.view, eUnlocked_ne_pUnlocked.symm]
  · subst he
    exact current_of_view rfl

/-- A step in which no call returns leaves the call; another is its return. -/
theorem stepClient_call {h : Heap K V} {c : Client K V}
    (he : Rome.stepClient C i h c fresh = some e) :
    (∃ n, c.phase.call = some n ∧ e.client.phase.call = some n ∧ e.result = none)
      ∨ ∃ n r, c.phase.call = some n ∧ e.client.phase.call = none ∧ e.result = some (n, r) := by
  rcases hph : c.phase with _ | ⟨n, op⟩ | ⟨n, op, ctx⟩ | ⟨n, op, ctx⟩ | ⟨n, op, ctx⟩ |
    ⟨n, op, ctx, l, r⟩ | ⟨n, op, ctx⟩ | ⟨n, op, ctx, ptr, status⟩ | ⟨n, op, ctx, status, r⟩ |
    ⟨n, op, r⟩ <;> simp only [Rome.stepClient, hph, Option.some.injEq, reduceCtorEq] at he
  · subst he
    exact .inl ⟨n, rfl, rfl, rfl⟩
  · split_ifs at he
    cases he
    refine .inl ⟨n, rfl, ?_⟩
    simp only [doWithHead]
    split_ifs <;> exact ⟨rfl, rfl⟩
  · subst he
    exact .inl ⟨n, rfl, rfl, rfl⟩
  · refine .inl ⟨n, rfl, ?_⟩
    cases doWithLocked_cases he with
    | finish | link | write | rehash => exact ⟨rfl, rfl⟩
  · subst he
    exact .inl ⟨n, rfl, rfl, rfl⟩
  · split_ifs at he
    obtain ⟨x, -, rfl⟩ := Option.map_eq_some_iff.1 he
    exact .inl ⟨n, rfl, rfl, rfl⟩
  · subst he
    exact .inl ⟨n, rfl, rfl, rfl⟩
  · subst he
    refine .inl ⟨n, rfl, ?_, rfl⟩
    simp only [doWithUnlock]
    split_ifs <;> rfl
  · subst he
    exact .inr ⟨n, r, rfl, rfl, rfl⟩

end Steps

/-- The history is one of calls one after the other, with one more that has not returned while a
client is in it. -/
def OneByOne (s : IhtState ι K V) : Prop :=
  ∃ l : List (ℕ × Op K V × Option V), l.map Prod.fst = List.range l.length
    ∧ ((∀ i, (s.client i).phase.call = none) ∧ s.hist = seqHist l ∧ s.calls = l.length
      ∨ ∃ i op, (s.client i).phase.call = some l.length
        ∧ (∀ j, j ≠ i → (s.client j).phase.call = none)
        ∧ s.hist = seqHist l ++ [.inv l.length op] ∧ s.calls = l.length + 1)

section OneByOne

variable {C : IhtCfg ι K} {s s' : IhtState ι K V}

/-- A client that is in a call is the only one. -/
theorem OneByOne.alone (H : OneByOne s) {i j : ι} (hi : (s.client i).phase.call ≠ none)
    (hj : j ≠ i) : (s.client j).phase.call = none := by
  obtain ⟨l, -, ⟨h1, -⟩ | ⟨k, op, -, h2, -⟩⟩ := H
  · exact h1 j
  · obtain rfl : i = k := by
      by_contra hik
      exact hi (h2 i hik)
    exact h2 j hj

variable [DecidableEq ι] [DecidableEq K]

theorem OneByOne.ihtStep (H : OneByOne s) {ev : IhtEvent ι K V} (hal : Alone s ev)
    (hs : ihtStep C s ev = some s') : OneByOne s' := by
  obtain ⟨l, hl, hcase⟩ := H
  cases ev with
  | invoke i op =>
    simp only [Rome.ihtStep] at hs
    split at hs
    swap
    · cases hs
    obtain rfl := Option.some.inj hs
    rcases hcase with ⟨-, h2, h3⟩ | ⟨j, op', h1, -⟩
    · refine ⟨l, hl, .inr ⟨i, op, ?_, fun j hji => ?_, ?_, ?_⟩⟩
      · simp [Phase.call, h3]
      · simp only [Function.update_of_ne hji]
        exact hal j
      · simp only [h2, h3]
      · simp only [h3]
    · rw [hal j] at h1
      cases h1
  | step i fresh =>
    obtain ⟨e, he, rfl⟩ := Option.map_eq_some_iff.1 hs
    have hcall : ∃ n, (s.client i).phase.call = some n := by
      rcases stepClient_call he with ⟨n, h1, -⟩ | ⟨n, r, h1, -⟩
      · exact ⟨n, h1⟩
      · exact ⟨n, h1⟩
    rcases hcase with ⟨h1, -⟩ | ⟨j, op, h1, h2, h3, h4⟩
    · obtain ⟨n, hn⟩ := hcall
      rw [h1 i] at hn
      cases hn
    obtain rfl : i = j := by
      by_contra hij
      obtain ⟨n, hn⟩ := hcall
      rw [h2 i hij] at hn
      cases hn
    rcases stepClient_call he with ⟨n, h5, h6, h7⟩ | ⟨n, r, h5, h6, h7⟩
    · rw [h1, Option.some.injEq] at h5
      subst h5
      refine ⟨l, hl, .inr ⟨i, op, ?_, fun k hk => ?_, ?_, h4⟩⟩
      · simp only [Function.update_self, h6]
      · simp only [Function.update_of_ne hk]
        exact h2 k hk
      · simp [h3, h7]
    · rw [h1, Option.some.injEq] at h5
      subst h5
      refine ⟨l ++ [(l.length, op, r)], ?_, .inl ⟨fun k => ?_, ?_, ?_⟩⟩
      · simp [hl, List.range_succ]
      · by_cases hk : k = i
        · subst hk
          simp only [Function.update_self, h6]
        · simp only [Function.update_of_ne hk]
          exact h2 k hk
      · simp [h3, h7, seqHist_append, seqHist]
      · simp [h4]
  | deliver n =>
    simp only [Rome.ihtStep] at hs
    split at hs
    · cases hs
    · obtain rfl := Option.some.inj hs
      exact ⟨l, hl, hcase⟩

/-- The state between the steps of calls made one at a time. -/
structure SeqAt (C : IhtCfg ι K) (s : IhtState ι K V) : Prop where
  sim : ∃ T m st, SimAt C s T m st
  one : OneByOne s
  cur : ∀ i, Current s.heap (s.client i).phase

omit [DecidableEq ι] in
theorem SeqAt.freshLock (H : SeqAt C s) (ev : IhtEvent ι K V) : FreshLock C s ev := by
  cases ev with
  | step i fresh =>
    rintro ⟨op, ctx⟩ hx b - hnull -
    refine H.cur i ctx ?_ _ hnull
    rcases hph : (s.client i).phase with _ | _ | ⟨n, op', ctx'⟩ | _ | _ | _ | _ | _ | _ | _ <;>
      simp [hph, Phase.atHead] at hx
    rw [← hx.2]
    rfl
  | invoke i op => trivial
  | deliver n => trivial

omit [DecidableEq ι] in
theorem seqAt_init (C : IhtCfg ι K) : SeqAt C (ihtInit C : IhtState ι K V) :=
  ⟨⟨_, _, _, simAt_init C⟩, ⟨[], rfl, .inl ⟨fun _ => rfl, rfl, rfl⟩⟩, fun _ => current_of_view rfl⟩

theorem SeqAt.ihtStep (H : SeqAt C s) {ev : IhtEvent ι K V}
    (hread : ∀ i fresh, ev = .step i fresh → Reads C s i) (hal : Alone s ev)
    (hs : ihtStep C s ev = some s') : SeqAt C s' := by
  obtain ⟨T, m, st, hsim⟩ := H.sim
  refine ⟨hsim.ihtStep hread (H.freshLock ev) hs, H.one.ihtStep hal hs, fun j => ?_⟩
  cases ev with
  | invoke i op =>
    simp only [Rome.ihtStep] at hs
    split at hs
    swap
    · cases hs
    obtain rfl := Option.some.inj hs
    by_cases hji : j = i
    · subst hji
      simp only [Function.update_self]
      exact current_of_view rfl
    · simp only [Function.update_of_ne hji]
      exact H.cur j
  | step i fresh =>
    obtain ⟨e, he, rfl⟩ := Option.map_eq_some_iff.1 hs
    have hcall : (s.client i).phase.call ≠ none := by
      rcases stepClient_call he with ⟨n, h1, -⟩ | ⟨n, r, h1, -⟩ <;> simp [h1]
    by_cases hji : j = i
    · subst hji
      simp only [Function.update_self]
      exact hsim.current_step (hread j fresh rfl) (H.cur j) he
    · simp only [Function.update_of_ne hji]
      exact current_of_view (Phase.view_of_call (H.one.alone hcall hji))
  | deliver n =>
    simp only [Rome.ihtStep] at hs
    split at hs
    · cases hs
    rename_i w hw
    obtain rfl := Option.some.inj hs
    intro ctx hv b hb
    have hbase := H.cur j ctx hv b hb
    have hhas : s.heap.Has w.ptr w.bucket :=
      Heap.has_of_isLock (.inl (hsim.lock.sent w (List.mem_of_getElem? hw)))
    by_cases hpb : ctx.parent = w.ptr ∧ b = w.bucket
    · rw [hpb.1, hpb.2] at hbase ⊢
      rw [Heap.bucket_setBucket_self hhas]
      exact hbase
    · rw [Heap.bucket_setBucket_ne hpb]
      exact hbase

end OneByOne

section Main

/-- The operation an event calls. -/
def IhtEvent.op : IhtEvent ι K V → Option (Op K V)
  | .invoke _ op => some op
  | _ => none

/-- The calls `ops`, numbered from `n` on, with the results the map gives them. -/
def answers [DecidableEq K] : (K → Option V) → ℕ → List (Op K V) → List (ℕ × Op K V × Option V)
  | _, _, [] => []
  | m, n, op :: ops => (n, op, (mapSpec m op).2) :: answers (mapSpec m op).1 (n + 1) ops

theorem answers_of_legal [DecidableEq K] : ∀ {l : List (ℕ × Op K V × Option V)}
    {m m' : K → Option V} {n : ℕ}, Legal mapSpec m l m' → l.map Prod.fst = List.range' n l.length →
    l = answers m n (l.map fun x => x.2.1)
  | [], _, _, _, _, _ => rfl
  | (k, op, r) :: l, m, m', n, ⟨h1, h2⟩, hl => by
    simp only [List.map_cons, List.length_cons, List.range'_succ, List.cons.injEq] at hl
    obtain ⟨rfl, hl⟩ := hl
    simp only [List.map_cons, answers]
    rw [← answers_of_legal h2 hl]
    simp only [] at h1
    rw [h1]

/-- The operations of a history. -/
def calledOp : Event ℕ (Op K V) (Option V) → Option (Op K V)
  | .inv _ op => some op
  | .res _ _ => none

theorem filterMap_seqHist (l : List (ℕ × Op K V × Option V)) :
    (seqHist l).filterMap calledOp = l.map fun x => x.2.1 := by
  induction l with
  | nil => rfl
  | cons x l ih => simp [seqHist, calledOp, List.filterMap_cons, ih]

variable [DecidableEq ι] [DecidableEq K]

/-- The operations of the history are those the run called. -/
theorem run_calledOp {C : IhtCfg ι K} : ∀ {es : List (IhtEvent ι K V)} {s s' : IhtState ι K V},
    run (ihtStep C) s es = some s' →
    s'.hist.filterMap calledOp = s.hist.filterMap calledOp ++ es.filterMap IhtEvent.op
  | [], s, s', hr => by
    obtain rfl := run_nil_some hr
    simp
  | ev :: es, s, s', hr => by
    obtain ⟨s₁, h1, h2⟩ := run_cons_some hr
    rw [run_calledOp h2]
    cases ev with
    | invoke i op =>
      simp only [Rome.ihtStep] at h1
      split at h1
      swap
      · cases h1
      obtain rfl := Option.some.inj h1
      simp [calledOp, IhtEvent.op]
    | step i fresh =>
      obtain ⟨e, -, rfl⟩ := Option.map_eq_some_iff.1 h1
      rcases e.result with _ | r <;> simp [calledOp, IhtEvent.op, List.filterMap_cons]
    | deliver n =>
      simp only [Rome.ihtStep] at h1
      split at h1
      · cases h1
      obtain rfl := Option.some.inj h1
      simp [IhtEvent.op, List.filterMap_cons]

/-- The operation that an event of the table calls. -/
def TableEvent.op (a : TableEvent ι K V) : Option (Op K V) :=
  Sum.elim IhtEvent.op (fun _ => none) a

omit [DecidableEq ι] [DecidableEq K] in
theorem filterMap_op (es : List (IhtEvent ι K V)) :
    (es.map .inl).filterMap TableEvent.op = es.filterMap IhtEvent.op := by
  rw [List.filterMap_map]
  rfl

/-- Calls made one at a time, by whichever clients, give the results the map gives, while no E-List
of a P-List at depth 8 is rehashed. -/
theorem iht_one_at_a_time (C : IhtCfg ι K) (hc : ∀ i, C.cacheDepth i = .none)
    (as : List (TableEvent ι K V)) (s : IhtState ι K V)
    (hr : run (tableStep C) (ihtInit C) as = some s)
    (hal : Meets (tableStep C) (onDefined Alone) (ihtInit C) as)
    (hsh : Meets (tableStep C) (onDefined Shallow) (ihtInit C) as)
    (hidle : ∀ i, (s.client i).phase.call = none) :
    s.hist = seqHist (answers (fun _ => none) 0 (as.filterMap TableEvent.op)) := by
  obtain ⟨es, rfl, hr, -⟩ := run_shallow_init hr hsh
  have hal := (meets_inl es).1 hal
  rw [filterMap_op]
  have H := run_inv (I := SeqAt C)
    (fun s _ _ H hal hs => H.ihtStep (fun i _ _ => reads_none (hc i) s) hal hs)
    hr hal (seqAt_init C)
  obtain ⟨T, m, st, hsim⟩ := H.sim
  obtain ⟨l, hl, ⟨-, hh, -⟩ | ⟨i, op, h1, -⟩⟩ := H.one
  swap
  · rw [hidle i] at h1
    cases h1
  have hops := run_calledOp hr
  rw [hh, filterMap_seqHist] at hops
  have hnodup : (l.map Prod.fst).Nodup := by
    rw [hl]
    exact List.nodup_range
  have hlin := hsim.atomic.linearizable
  rw [hh] at hlin
  obtain ⟨m', hleg⟩ := hlin.legal_of_seqHist hnodup
  rw [hh]
  congr 1
  rw [answers_of_legal hleg (by rw [hl, List.range_eq_range']), hops]
  rfl

/-- Both clients of the table insert, and the first finds and removes what the second inserted. -/
def turnsRun : List (IhtEvent Bool ℕ ℕ) :=
  .invoke false (.insert 0 10) :: .step false [] :: linkSteps false (.of 0 128)
    ++ .invoke true (.insert 1 20) :: .step true [] :: linkSteps true (.of 1 128)
    ++ containsSteps false 1
    ++ [.invoke false (.remove 1), .step false [], .step false [], .step false [], .step false [],
      .step false [], .deliver 0, .step false []]

theorem iht_one_at_a_time_turnsRun : ∃ s,
    run (tableStep twoClients) (ihtInit twoClients) (turnsRun.map .inl) = some s
      ∧ s.hist
        = seqHist (answers (fun _ => none) 0 ((turnsRun.map .inl).filterMap TableEvent.op)) := by
  have hrun : (run (ihtStep twoClients) (ihtInit twoClients) turnsRun).map
      (fun s => decide (∀ i, (s.client i).phase.call = none)) = some true := by decide +kernel
  obtain ⟨s, hs, hidle⟩ := Option.map_eq_some_iff.1 hrun
  have hr := (run_tableStep turnsRun).trans hs
  exact ⟨s, hr, iht_one_at_a_time twoClients (fun _ => rfl) (turnsRun.map .inl) s hr
    ((meets_inl turnsRun).2 (by decide +kernel)) ((meets_inl turnsRun).2 (by decide +kernel))
    (of_decide_eq_true hidle)⟩

/-- The second of two inserts of keys with one hash, made one after the other, stores behind
`bucket_path`, and returns a value that nobody inserted. -/
def wrongRun : List (TableEvent Unit ℕ ℕ) :=
  strayRun (.ret 1 (.insert 1 1) (some 7)) ++ [.inl (.step () [])]

theorem wrongRun_result : ∃ s,
    run (tableStep oneHash) (ihtInit oneHash) wrongRun = some s
      ∧ Meets (tableStep oneHash) (onDefined Alone) (ihtInit oneHash) wrongRun
      ∧ (∀ i, (s.client i).phase.call = none)
      ∧ s.hist ≠ seqHist (answers (fun _ => none) 0 (wrongRun.filterMap TableEvent.op)) := by
  obtain ⟨s, hs, hp⟩ := Option.map_eq_some_iff.1
    (show (run (tableStep oneHash) (ihtInit oneHash) wrongRun).map
      (fun s => (decide (∀ i, (s.client i).phase.call = none), s.hist))
        = some (true, [.inv 0 (.insert 0 0), .res 0 none, .inv 1 (.insert 1 1), .res 1 (some 7)]) by
      decide +kernel)
  simp only [Prod.mk.injEq] at hp
  refine ⟨s, hs, by decide +kernel, of_decide_eq_true hp.1, ?_⟩
  rw [hp.2]
  decide +kernel

end Main

end Rome
