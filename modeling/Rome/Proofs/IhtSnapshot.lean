import Rome.IhtSnapshot
import Rome.Lib.Ledger
import Rome.Proofs.IhtDepth

/-!
# Snapshots are deallocated once

The blocks of a client are a ledger: what is out is the snapshot of the P-List it is at, if it is at
one that is not cached. Each is given back with the number of `PList`s that it was allocated with,
and that number is the one of a P-List of the depth that the client goes to.
-/

namespace Rome

open Machine Ledger

variable {ι K V : Type*}

/-- An allocation takes a block for a number of `PList`s, a deallocation gives it back. -/
def PoolEvent.item : PoolEvent → Item ℕ ℕ
  | .alloc block size => .take block size
  | .free block size => .give block size

/-- The snapshot a `CachedRDMA` has to deallocate. -/
def CachedPList.held (curr : CachedPList) : List (ℕ × ℕ) :=
  if curr.isCached then [] else [(curr.block, curr.size)]

/-- The snapshot a client has to deallocate. -/
def Phase.snapshot (ph : Phase K V) : List (ℕ × ℕ) := (ph.ctx.map fun ctx => ctx.curr.held).getD []

theorem CachedPList.mem_held {curr : CachedPList} {block size : ℕ}
    (h : (block, size) ∈ curr.held) :
    curr.isCached = false ∧ curr.block = block ∧ curr.size = size := by
  unfold CachedPList.held at h
  split_ifs at h with hc
  · exact absurd h List.not_mem_nil
  · obtain ⟨rfl, rfl⟩ := Prod.mk.inj (List.mem_singleton.1 h)
    exact ⟨Bool.eq_false_of_not_eq_true hc, rfl, rfl⟩

theorem Phase.mem_snapshot {ph : Phase K V} {x : ℕ × ℕ} (h : x ∈ ph.snapshot) :
    ∃ ctx, ph.ctx = some ctx ∧ x ∈ ctx.curr.held := by
  unfold Phase.snapshot at h
  cases hc : ph.ctx with
  | none =>
    rw [hc] at h
    exact absurd h List.not_mem_nil
  | some ctx =>
    rw [hc] at h
    exact ⟨ctx, rfl, h⟩

section Steps

variable {C : IhtCfg ι K} {i : ι} {c c' : Client K V} {h : Heap K V} {fresh : List RemotePtr}

theorem descendRoot_eq (path : List ℤ) :
    descendRoot C i h c path
      = c.enter C.toIhtParams (C.cacheDepth i) h C.root 0 path := by
  unfold descendRoot Client.enter
  cases c.cache.fetch C.plistSize (C.cacheDepth i) path <;> rfl

theorem descendNormal_eq (ctx : Ctx) (base : RemotePtr) :
    descendNormal C i h c ctx base
      = (c.deallocate ctx.curr).enter C.toIhtParams (C.cacheDepth i) h base ctx.depth ctx.path := by
  unfold descendNormal Client.enter
  dsimp only
  cases (c.deallocate ctx.curr).cache.fetch C.plistSize (C.cacheDepth i) ctx.path with
  | some bs => rfl
  | none =>
    simp only [Client.extendedReadPList, Client.allocate, CachedPList.ofPtr, Client.tryCache,
      Client.read, Nat.shiftLeft_eq, Nat.one_mul]

theorem descendErroneous_eq (ctx : Ctx) :
    descendErroneous C h c ctx
      = (c.deallocate ctx.curr).read C.toIhtParams h ctx.parent (ctx.depth - 1) := by
  simp only [descendErroneous, Client.extendedReadPList, Client.allocate, CachedPList.ofPtr,
    Client.read, Nat.shiftLeft_eq, Nat.one_mul]

variable [DecidableEq K]

/-- A step of a client in the table is one on the memory the table has then. -/
theorem snapshotStep_step :
    snapshotStep C i c (.step h fresh) = (stepClient C i h c fresh).map Effect.client := by
  unfold snapshotStep
  cases hph : c.phase with
  | start call op =>
    simp only [stepClient, hph, Option.map_some, doWithStart, descendRoot_eq]
  | head call op ctx =>
    simp only [stepClient, hph, doWithHead, descendNormal_eq]
    split_ifs <;> rfl
  | refetch call op ctx =>
    simp only [stepClient, hph, Option.map_some, doWithRefetch, descendErroneous_eq]
  | idle | locked _ _ _ | write _ _ _ _ _ | rehash _ _ _ | link _ _ _ _ _ | unlock _ _ _ _ _
  | ret _ _ _ => rfl

end Steps

/-! ## What a step does with the blocks -/

section Blocks

variable {C : IhtCfg ι K} {i : ι} {c c' : Client K V} {h : Heap K V} {fresh : List RemotePtr}

/-- The blocks are given back. -/
def frees (out : List (ℕ × ℕ)) : List PoolEvent := out.map fun x => .free x.1 x.2

theorem deallocate_pool (c : Client K V) (curr : CachedPList) :
    (c.deallocate curr).pool = c.pool ++ frees curr.held := by
  unfold Client.deallocate CachedPList.held
  split_ifs with hc
  · exact (List.append_nil _).symm
  · rfl

/-- A P-List that is entered is cached, or read into a new block. -/
theorem enter_cases (P : IhtParams K) (cacheDepth : CacheDepth) (c : Client K V) (h : Heap K V)
    (ptr : RemotePtr) (depth : ℕ) (path : List ℤ) :
    (c.enter P cacheDepth h ptr depth path).1.isCached = true
        ∧ (c.enter P cacheDepth h ptr depth path).2.pool = c.pool
      ∨ (c.enter P cacheDepth h ptr depth path).1
          = ⟨extendedRead P h ptr (2 ^ depth), false, 2 ^ depth, c.pool.length⟩
        ∧ (c.enter P cacheDepth h ptr depth path).2.pool
          = c.pool ++ [.alloc c.pool.length (2 ^ depth)] := by
  unfold Client.enter
  cases c.cache.fetch P.plistSize cacheDepth path with
  | some bs => exact .inl ⟨rfl, rfl⟩
  | none => exact .inr ⟨rfl, rfl⟩

/-- A step leaves the blocks alone, or gives the snapshot back, and then the client is at no P-List,
at a cached one, or at one it has read into a new block. -/
inductive Move (C : IhtCfg ι K) (h : Heap K V) (c : Client K V) (e : Effect K V) : Prop
  | stay (hpool : e.client.pool = c.pool) (hsnap : e.client.phase.snapshot = c.phase.snapshot)
    (hctx : ∀ ctx', e.client.phase.ctx = some ctx' →
      ∃ ctx, c.phase.ctx = some ctx ∧ ctx'.depth = ctx.depth ∧ ctx'.count = ctx.count)
  | leave (hpool : e.client.pool = c.pool ++ frees c.phase.snapshot)
    (hctx : e.client.phase.ctx = none)
  | cached (call : ℕ) (op : Op K V) (ctx : Ctx) (hph : e.client.phase = .head call op ctx)
    (hdepth : 1 ≤ ctx.depth ∧ ctx.count = C.buckets ctx.depth)
    (hpool : e.client.pool = c.pool ++ frees c.phase.snapshot) (hcurr : ctx.curr.isCached = true)
  | read (call : ℕ) (op : Op K V) (ctx : Ctx) (hph : e.client.phase = .head call op ctx)
    (hdepth : 1 ≤ ctx.depth ∧ ctx.count = C.buckets ctx.depth) (hheap : e.heap = h) (n : ℕ)
    (hn : n = (c.pool ++ frees c.phase.snapshot).length)
    (hpool : e.client.pool = c.pool ++ frees c.phase.snapshot ++ [.alloc n (2 ^ (ctx.depth - 1))])
    (hcurr : ctx.curr = ⟨extendedRead C.toIhtParams h ctx.parent (2 ^ (ctx.depth - 1)), false,
      2 ^ (ctx.depth - 1), n⟩)

/-- A step deallocates the snapshot the client has been at, and allocates the one it goes to. -/
theorem Move.pool {e : Effect K V} (hm : Move C h c e) :
    ∃ new, e.client.pool = c.pool ++ new
      ∧ (∀ block size, .free block size ∈ new → (block, size) ∈ c.phase.snapshot)
      ∧ ∀ block size, .alloc block size ∈ new → ∃ call op ctx, e.client.phase = .head call op ctx
        ∧ e.heap = h ∧ ctx.count = C.buckets ctx.depth ∧ size = 2 ^ (ctx.depth - 1)
        ∧ ctx.curr = ⟨extendedRead C.toIhtParams h ctx.parent size, false, size, block⟩ := by
  have hfree : ∀ block size, .free block size ∈ frees c.phase.snapshot →
      (block, size) ∈ c.phase.snapshot := by
    intro block size hb
    obtain ⟨x, hx, heq⟩ := List.mem_map.1 hb
    obtain ⟨rfl, rfl⟩ := PoolEvent.free.inj heq
    exact hx
  have halloc : ∀ block size, PoolEvent.alloc block size ∉ frees c.phase.snapshot := by
    intro block size hb
    obtain ⟨x, -, heq⟩ := List.mem_map.1 hb
    cases heq
  cases hm with
  | stay hpool =>
    refine ⟨[], by rw [hpool, List.append_nil], fun _ _ hb => ?_, fun _ _ hb => ?_⟩
    · exact absurd hb List.not_mem_nil
    · exact absurd hb List.not_mem_nil
  | leave hpool => exact ⟨_, hpool, hfree, fun _ _ hb => absurd hb (halloc _ _)⟩
  | cached _ _ _ _ _ hpool => exact ⟨_, hpool, hfree, fun _ _ hb => absurd hb (halloc _ _)⟩
  | read call op ctx hph hdepth hheap n hn hpool hcurr =>
    rw [List.append_assoc] at hpool
    refine ⟨_, hpool, fun block size hb => hfree block size ?_, fun block size hb => ?_⟩
    · simpa using hb
    · rcases List.mem_append.1 hb with hb | hb
      · exact absurd hb (halloc _ _)
      · obtain ⟨rfl, rfl⟩ := PoolEvent.alloc.inj (List.mem_singleton.1 hb)
        exact ⟨call, op, ctx, hph, hheap, hdepth.2, rfl, hcurr⟩

/-- A client that enters a P-List goes to its head. -/
theorem Move.enter {c₁ : Client K V} {call : ℕ} {op : Op K V} {ptr : RemotePtr} {depth : ℕ}
    {count b : ℕ} {path path' : List ℤ} (cacheDepth : CacheDepth)
    (hcount : count = C.buckets (depth + 1)) (hpool : c₁.pool = c.pool ++ frees c.phase.snapshot) :
    Move C h c { heap := h, client := { (c₁.enter C.toIhtParams cacheDepth h ptr depth path).2 with
      phase := .head call op ⟨depth + 1, count, b, ptr,
        (c₁.enter C.toIhtParams cacheDepth h ptr depth path).1, path'⟩ } } := by
  rcases enter_cases C.toIhtParams cacheDepth c₁ h ptr depth path with ⟨h1, h2⟩ | ⟨h1, h2⟩
  · exact .cached call op _ rfl ⟨Nat.le_add_left 1 depth, hcount⟩ (h2.trans hpool) h1
  · refine .read call op _ rfl ⟨Nat.le_add_left 1 depth, hcount⟩ rfl c₁.pool.length ?_ ?_ h1
    · rw [hpool]
    · rw [← hpool]
      exact h2

/-- A client that goes on where it is keeps its snapshot. -/
theorem Move.same {e : Effect K V} {ctx ctx' : Ctx} (hph : c.phase.ctx = some ctx)
    (hph' : e.client.phase.ctx = some ctx') (hpool : e.client.pool = c.pool)
    (hcurr : ctx'.curr.held = ctx.curr.held) (hdepth : ctx'.depth = ctx.depth)
    (hcount : ctx'.count = ctx.count) : Move C h c e := by
  refine .stay hpool ?_ fun ctx₁ h₁ => ⟨ctx, hph, ?_⟩
  · rw [Phase.snapshot, Phase.snapshot, hph, hph', Option.map_some, Option.map_some, hcurr]
  · rw [h₁, Option.some.injEq] at hph'
    rw [hph']
    exact ⟨hdepth, hcount⟩

variable [DecidableEq K]

/-- The function an operation hands to `do_with` leaves the context as it is. -/
theorem doWithLocked_client {call : ℕ} {op : Op K V} {ctx : Ctx} {e : Effect K V}
    (hs : doWithLocked C i h c call op ctx fresh = some e) :
    e.client.pool = c.pool ∧ e.client.phase.ctx = some ctx := by
  cases doWithLocked_cases hs with
  | finish | link | write | rehash => exact ⟨rfl, rfl⟩

/-- What a step of a client can do with its blocks. -/
theorem stepClient_move {e : Effect K V} (hctx : ∀ ctx, c.phase.ctx = some ctx →
    1 ≤ ctx.depth ∧ ctx.count = C.buckets ctx.depth)
    (hs : stepClient C i h c fresh = some e) : Move C h c e := by
  unfold stepClient at hs
  have hsnap : ∀ ctx, c.phase.ctx = some ctx → c.phase.snapshot = ctx.curr.held := by
    intro ctx h
    rw [Phase.snapshot, h]
    rfl
  cases hph : c.phase with
  | idle =>
    rw [hph] at hs
    cases hs
  | start call op =>
    simp only [hph, doWithStart, Option.some.injEq] at hs
    subst hs
    exact .enter _ (C.buckets_one).symm (by simp [hph, Phase.snapshot, Phase.ctx, frees])
  | head call op ctx =>
    have hc : c.phase.ctx = some ctx := congrArg Phase.ctx hph
    simp only [hph] at hs
    split_ifs at hs
    cases hs
    simp only [doWithHead]
    split_ifs
    · refine .enter _ ?_ ?_
      · rw [(hctx ctx hc).2, C.buckets_succ (hctx ctx hc).1]
      · rw [deallocate_pool, hsnap ctx hc]
    · exact .same hc rfl rfl rfl rfl rfl
    · exact .same hc rfl rfl rfl rfl rfl
    · exact .same hc rfl rfl rfl rfl rfl
  | refetch call op ctx =>
    have hc : c.phase.ctx = some ctx := congrArg Phase.ctx hph
    simp only [hph, doWithRefetch, Option.some.injEq] at hs
    subst hs
    refine .read call op _ rfl (hctx ctx hc) rfl _ rfl ?_ ?_
    · rw [hsnap ctx hc, ← deallocate_pool]
      rfl
    · rw [hsnap ctx hc, ← deallocate_pool]
      rfl
  | locked call op ctx =>
    simp only [hph] at hs
    obtain ⟨h1, h2⟩ := doWithLocked_client hs
    exact .same (congrArg Phase.ctx hph) h2 h1 rfl rfl rfl
  | write call op ctx el r =>
    simp only [hph, Option.some.injEq] at hs
    subst hs
    exact .same (congrArg Phase.ctx hph) rfl rfl rfl rfl rfl
  | rehash call op ctx =>
    simp only [hph] at hs
    split_ifs at hs
    obtain ⟨x, -, rfl⟩ := Option.map_eq_some_iff.1 hs
    exact .same (congrArg Phase.ctx hph) rfl rfl rfl rfl rfl
  | link call op ctx ptr status =>
    simp only [hph, doWithLink, Option.some.injEq] at hs
    subst hs
    have hc : c.phase.ctx = some ctx := congrArg Phase.ctx hph
    refine .same hc rfl rfl ?_ rfl rfl
    -- the buckets of the snapshot are changed, its block is not
    split_ifs <;> rfl
  | unlock call op ctx status r =>
    have hc : c.phase.ctx = some ctx := congrArg Phase.ctx hph
    simp only [hph, doWithUnlock, Option.some.injEq] at hs
    subst hs
    by_cases hstatus : status = eUnlocked
    · simp only [hstatus, if_true]
      refine .leave ?_ rfl
      rw [hsnap ctx hc, ← deallocate_pool]
    · simp only [hstatus, if_false]
      exact .same hc rfl rfl rfl rfl rfl
  | ret call op r =>
    simp only [hph, Option.some.injEq] at hs
    subst hs
    refine .stay rfl (by rw [hph]; rfl) fun ctx' h' => ?_
    cases h'

end Blocks

/-! ## The account -/

section Account

variable {pool : List PoolEvent} {out : List (ℕ × ℕ)}

/-- The blocks that are allocated, numbered as they come, and not yet deallocated are `out`. -/
def Account (pool : List PoolEvent) (out : List (ℕ × ℕ)) : Prop :=
  ∃ used, Records (pool.map PoolEvent.item) ⟨used, out⟩ ∧ ∀ b ∈ used, b < pool.length

theorem Account.nil : Account [] [] := ⟨[], records_nil, fun _ h => absurd h List.not_mem_nil⟩

theorem Account.alloc (H : Account pool out) (size : ℕ) :
    Account (pool ++ [.alloc pool.length size]) ((pool.length, size) :: out) := by
  obtain ⟨used, h1, h2⟩ := H
  refine ⟨pool.length :: used, ?_, fun b hb => ?_⟩
  · rw [List.map_append]
    exact h1.take fun hmem => lt_irrefl _ (h2 _ hmem)
  · rw [List.length_append, List.length_singleton]
    rcases List.mem_cons.1 hb with rfl | hb
    · exact Nat.lt_succ_self _
    · exact Nat.lt_succ_of_lt (h2 b hb)

theorem Account.frees (H : Account pool out) : Account (pool ++ frees out) [] := by
  induction out generalizing pool with
  | nil => simpa [Rome.frees] using H
  | cons x out ih =>
    obtain ⟨used, h1, h2⟩ := H
    have hgive := h1.give (i := x.1) (a := x.2) List.mem_cons_self
    rw [Prod.mk.eta, List.erase_cons_head] at hgive
    have H' : Account (pool ++ [.free x.1 x.2]) out := by
      refine ⟨used, ?_, fun b hb => ?_⟩
      · rw [List.map_append]
        exact hgive
      · rw [List.length_append]
        exact Nat.lt_add_right _ (h2 b hb)
    have h := ih H'
    rwa [List.append_assoc] at h

end Account

/-! ## The runs of a client -/

section Runs

variable {C : IhtCfg ι K} {i : ι} {c c' : Client K V} {h : Heap K V} {fresh : List RemotePtr}

/-- What a client has not deallocated is the snapshot it is at, and it knows its depth. -/
structure Balanced (C : IhtCfg ι K) (c : Client K V) : Prop where
  account : Account c.pool c.phase.snapshot
  depth : ∀ ctx, c.phase.ctx = some ctx → 1 ≤ ctx.depth ∧ ctx.count = C.buckets ctx.depth

theorem Balanced.init (cache : Cache) : Balanced C (⟨cache, [], .idle⟩ : Client K V) :=
  ⟨.nil, fun _ h => nomatch h⟩

theorem Balanced.move {e : Effect K V} (H : Balanced C c) (hm : Move C h c e) :
    Balanced C e.client := by
  cases hm with
  | stay hpool hsnap hctx =>
    refine ⟨?_, fun ctx' hc' => ?_⟩
    · rw [hpool, hsnap]
      exact H.account
    · obtain ⟨ctx, hc, h1, h2⟩ := hctx ctx' hc'
      rw [h1, h2]
      exact H.depth ctx hc
  | leave hpool hctx =>
    refine ⟨?_, fun ctx' hc' => ?_⟩
    · rw [show e.client.phase.snapshot = [] by rw [Phase.snapshot, hctx]; rfl, hpool]
      exact H.account.frees
    · rw [hctx] at hc'
      cases hc'
  | cached call op ctx hph hdepth hpool hcurr =>
    refine ⟨?_, fun ctx' hc' => ?_⟩
    · rw [hpool, hph]
      simpa [Phase.snapshot, Phase.ctx, CachedPList.held, hcurr] using H.account.frees
    · rw [hph] at hc'
      obtain rfl := Option.some.inj hc'
      exact hdepth
  | read call op ctx hph hdepth hheap n hn hpool hcurr =>
    refine ⟨?_, fun ctx' hc' => ?_⟩
    · have h := H.account.frees.alloc (2 ^ (ctx.depth - 1))
      rw [hpool, hn, hph]
      simpa [Phase.snapshot, Phase.ctx, CachedPList.held, hcurr, hn] using h
    · rw [hph] at hc'
      obtain rfl := Option.some.inj hc'
      exact hdepth

variable [DecidableEq K]

theorem snapshotStep_invoke {call : ℕ} {op : Op K V}
    (hs : snapshotStep C i c (.invoke call op) = some c') :
    c.phase = .idle ∧ c' = { c with phase := .start call op } := by
  unfold snapshotStep at hs
  cases hph : c.phase with
  | idle =>
    rw [hph] at hs
    exact ⟨rfl, (Option.some.inj hs).symm⟩
  | start _ _ | head _ _ _ | refetch _ _ _ | locked _ _ _ | write _ _ _ _ _ | rehash _ _ _
  | link _ _ _ _ _ | unlock _ _ _ _ _ | ret _ _ _ =>
    rw [hph] at hs
    cases hs

theorem snapshotStep_effect (hs : snapshotStep C i c (.step h fresh) = some c') :
    ∃ e, stepClient C i h c fresh = some e ∧ e.client = c' := by
  rwa [snapshotStep_step, Option.map_eq_some_iff] at hs

/-- A step of a client keeps its snapshots balanced. -/
theorem Balanced.snapshotStep (c : Client K V) (ev : SnapshotEvent K V) (c' : Client K V)
    (H : Balanced C c) (hs : snapshotStep C i c ev = some c') : Balanced C c' := by
  cases ev with
  | invoke call op =>
    obtain ⟨hph, rfl⟩ := snapshotStep_invoke hs
    refine ⟨?_, fun _ h => nomatch h⟩
    have h := H.account
    rwa [hph] at h
  | step h fresh =>
    obtain ⟨e, he, rfl⟩ := snapshotStep_effect hs
    exact H.move (stepClient_move H.depth he)

/-- What a step of a client adds to its pool. -/
theorem Balanced.pool {ev : SnapshotEvent K V} (H : Balanced C c)
    (hs : Rome.snapshotStep C i c ev = some c') :
    ∃ new, c'.pool = c.pool ++ new
      ∧ (∀ block size, .free block size ∈ new → ∃ ctx, c.phase.ctx = some ctx
        ∧ ctx.curr.isCached = false ∧ ctx.curr.block = block ∧ ctx.curr.size = size)
      ∧ ∀ block size, .alloc block size ∈ new → ∃ h fresh call op ctx,
        ev = .step h fresh ∧ c'.phase = .head call op ctx
        ∧ ctx.count = C.plistSize * 2 ^ (ctx.depth - 1) ∧ C.plistSize * size = ctx.count
        ∧ ctx.curr = ⟨((h.plist ctx.parent).getD []).take ctx.count, false, size, block⟩ := by
  cases ev with
  | invoke call op =>
    obtain ⟨-, rfl⟩ := snapshotStep_invoke hs
    refine ⟨[], (List.append_nil _).symm, fun _ _ hb => ?_, fun _ _ hb => ?_⟩
    · exact absurd hb List.not_mem_nil
    · exact absurd hb List.not_mem_nil
  | step h fresh =>
    obtain ⟨e, he, rfl⟩ := snapshotStep_effect hs
    obtain ⟨new, h1, h2, h3⟩ := (stepClient_move H.depth he).pool
    refine ⟨new, h1, fun block size hb => ?_, fun block size hb => ?_⟩
    · obtain ⟨ctx, hc, hheld⟩ := Phase.mem_snapshot (h2 block size hb)
      exact ⟨ctx, hc, CachedPList.mem_held hheld⟩
    · obtain ⟨call, op, ctx, hph, -, hcount, rfl, hcurr⟩ := h3 block size hb
      have hsize : C.plistSize * 2 ^ (ctx.depth - 1) = ctx.count := hcount.symm
      refine ⟨h, fresh, call, op, ctx, rfl, hph, hcount, hsize, ?_⟩
      rw [hcurr, extendedRead, hsize]

/-- The client's next step goes down from a P-List at depth 8. -/
def Phase.leaves (P : IhtParams K) : Phase K V → Bool
  | .head _ op ctx => ctx.depth == 8
      && (bucketAt ctx.curr.buckets (levelHash P op.key ctx.depth ctx.count)).lock == pUnlocked
  | _ => false

/-- No step goes down from a P-List at depth 8. -/
def Inside (C : IhtCfg ι K) (c : Client K V) : SnapshotEvent K V → Prop
  | .step _ _ => c.phase.leaves C.toIhtParams = false
  | .invoke _ _ => True

instance (C : IhtCfg ι K) (c : Client K V) : (ev : SnapshotEvent K V) → Decidable (Inside C c ev)
  | .step _ _ => inferInstanceAs (Decidable (c.phase.leaves C.toIhtParams = false))
  | .invoke _ _ => .isTrue trivial

/-- The client is at a P-List that `bucket_path` has an entry for. -/
def OnEntry (c : Client K V) : Prop := ∀ ctx, c.phase.ctx = some ctx → ctx.depth ≤ 8

omit [DecidableEq K] in
theorem OnEntry.overrun (H : OnEntry c) (phase : Phase K V) : c.overrun phase = none := by
  unfold Client.overrun
  rcases hph : c.phase with _ | _ | ⟨call, op, ctx⟩ | _ | _ | _ | _ | _ | _ | _
  case head => exact if_pos (H ctx (by rw [hph]; rfl))
  all_goals rfl

theorem OnEntry.snapshotStep {ev : SnapshotEvent K V} (H : OnEntry c) (hin : Inside C c ev)
    (hs : Rome.snapshotStep C i c ev = some c') : OnEntry c' := by
  cases ev with
  | invoke call op =>
    obtain ⟨-, rfl⟩ := snapshotStep_invoke hs
    exact fun _ h => nomatch h
  | step h fresh =>
    obtain ⟨e, he, rfl⟩ := snapshotStep_effect hs
    intro ctx hctx
    have hd := stepClient_descends (s := ⟨h, [], fun _ => c, 0, []⟩) he
    rcases hd with ⟨ptr, d, path, hent, h2, -⟩ | ⟨-, h2⟩
    · have hlt : d < 8 := by
        rcases hph : c.phase with _ | _ | ⟨call, op, ctx'⟩ | _ | _ | _ | _ | _ | _ | _ <;>
          simp only [IhtState.entering, hph, Option.some.injEq, Prod.mk.injEq, reduceCtorEq] at hent
        · omega
        · have hle := H ctx' (by rw [hph]; rfl)
          split_ifs at hent with hl
          obtain ⟨-, rfl, -⟩ := Prod.mk.inj (Option.some.inj hent)
          simp only [Inside, hph, Phase.leaves, hl, beq_self_eq_true, Bool.and_true,
            beq_eq_false_iff_ne] at hin
          omega
      have := (h2 ctx hctx).1
      omega
    · obtain ⟨ctx', h3, h4, -⟩ := h2 ctx hctx
      rw [h4]
      exact H ctx' h3

end Runs

/-! ## Clients of the table -/

section Table

variable {C : IhtCfg ι K} {i : ι} {s s' : IhtState ι K V} {e : IhtEvent ι K V}
variable [DecidableEq ι] [DecidableEq K]

omit [DecidableEq ι] [DecidableEq K] in
/-- In a table of P-Lists that `bucket_path` has entries for a client goes down from none at
depth 8. -/
theorem Sizes.inside (hS : Sizes C s) (hB : Bounded C s) (ev : SnapshotEvent K V) :
    Inside C (s.client i) ev := by
  cases ev with
  | invoke call op => trivial
  | step h fresh =>
    rcases hph : (s.client i).phase with _ | _ | ⟨call, op, ctx⟩ | _ | _ | _ | _ | _ | _ | _
    case head =>
      have hctx := (hS.client i).ctx ctx (by rw [hph]; rfl)
      simp only [Inside, hph, Phase.leaves, Bool.and_eq_false_iff, beq_eq_false_iff_ne]
      by_contra hne
      simp only [not_or, not_not] at hne
      have h1 := hB _ _ (hctx.curr.down _ hne.2)
      omega
    all_goals simp only [Inside, hph, Phase.leaves]

end Table

end Rome
