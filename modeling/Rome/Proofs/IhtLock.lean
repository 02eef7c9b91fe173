import Rome.Proofs.IhtApply

/-!
# The lock protocol of the buckets

What a client's step can do to the buckets of shared memory is little (`BucketEffect`): it takes the
lock of a free bucket, writes the pointer of a bucket it has locked, publishes nothing but a P-List
nobody had, or posts the unlock of its bucket. So a locked bucket belongs to one client or to one
posted unlock (`Locks`), and a bucket that leads to a P-List is never written again.
-/

namespace Rome

open HashTrie

variable {ι K V : Type*}

/-- The bucket a client has locked. -/
def Phase.held : Phase K V → Option (RemotePtr × ℕ)
  | .locked _ _ ctx => some (ctx.parent, ctx.bucket)
  | .write _ _ ctx _ _ => some (ctx.parent, ctx.bucket)
  | .rehash _ _ ctx => some (ctx.parent, ctx.bucket)
  | .link _ _ ctx _ _ => some (ctx.parent, ctx.bucket)
  | .unlock _ _ ctx _ _ => some (ctx.parent, ctx.bucket)
  | _ => none

/-- The bucket `b` of the P-List `p` exists. -/
def Heap.Has (h : Heap K V) (p : RemotePtr) (b : ℕ) : Prop :=
  ∃ bs, h.plist p = some bs ∧ b < bs.length

namespace Heap

variable {h : Heap K V} {p p' : RemotePtr} {b b' : ℕ} {x : PlistPair}

theorem bucket_setBucket_self (hb : h.Has p b) : (h.setBucket p b x).bucket p b = x :=
  Nodes.get_set_self hb

theorem bucket_setBucket_ne (hne : ¬ (p' = p ∧ b' = b)) :
    (h.setBucket p b x).bucket p' b' = h.bucket p' b' :=
  Nodes.get_set_ne hne

theorem setBucket_plist (hb : h.Has p b) {bs : List PlistPair}
    (h' : (h.setBucket p b x).plist p' = some bs) :
    ∃ bs', h.plist p' = some bs' ∧ bs'.length = bs.length :=
  Nodes.of_set_some hb h'

theorem has_setBucket (hb : h.Has p b) : (h.setBucket p b x).Has p' b' ↔ h.Has p' b' :=
  Nodes.has_set hb

theorem has_of_lock (hl : (h.bucket p b).lock ≠ 0) : h.Has p b := by
  rcases hp : h.plist p with _ | bs
  · simp [bucket, hp, bucketAt, PlistPair.junk] at hl
  · refine ⟨bs, hp, ?_⟩
    by_contra hge
    simp [bucket, hp, bucketAt, PlistPair.junk, List.getElem?_eq_none (not_lt.1 hge)] at hl

end Heap

/-- Who holds the locks. -/
structure Locks (h : Heap K V) (ph : ι → Phase K V) (posted : List Posted) : Prop where
  held : ∀ i p b, (ph i).held = some (p, b) → (h.bucket p b).lock = eLocked
  sent : ∀ w ∈ posted, (h.bucket w.ptr w.bucket).lock = eLocked
  excl : ∀ i j p b, (ph i).held = some (p, b) → (ph j).held = some (p, b) → i = j
  apart : ∀ i, ∀ w ∈ posted, (ph i).held ≠ some (w.ptr, w.bucket)
  nodup : (posted.map fun w => (w.ptr, w.bucket)).Nodup

section Locks

variable {h : Heap K V}

/-- The locks when no locked bucket is unlocked and no bucket changes hands. -/
theorem Locks.keep {h' : Heap K V} {ph ph' : ι → Phase K V} {posted : List Posted}
    (H : Locks h ph posted)
    (hl : ∀ p b, (h.bucket p b).lock = eLocked → (h'.bucket p b).lock = eLocked)
    (hh : ∀ j, (ph' j).held = (ph j).held) : Locks h' ph' posted where
  held i p b hi := hl p b (H.held i p b (by rw [← hh]; exact hi))
  sent w hw := hl _ _ (H.sent w hw)
  excl i j p b hi hj := H.excl i j p b (by rw [← hh]; exact hi) (by rw [← hh]; exact hj)
  apart i w hw := by
    rw [hh]
    exact H.apart i w hw
  nodup := H.nodup

/-- The locks when a client takes that of a bucket, which nobody held. -/
theorem Locks.acquire {h' : Heap K V} {ph ph' : ι → Phase K V} {posted : List Posted} {i : ι}
    {p : RemotePtr} {b : ℕ} (H : Locks h ph posted) (hfree : (h.bucket p b).lock ≠ eLocked)
    (hp : (h'.bucket p b).lock = eLocked)
    (hl : ∀ p b, (h.bucket p b).lock = eLocked → (h'.bucket p b).lock = eLocked)
    (hi : (ph' i).held = some (p, b)) (hne : ∀ j, j ≠ i → (ph' j).held = (ph j).held) :
    Locks h' ph' posted where
  held j p' b' hj := by
    by_cases hji : j = i
    · rw [hji, hi, Option.some.injEq, Prod.mk.injEq] at hj
      obtain ⟨rfl, rfl⟩ := hj
      exact hp
    · exact hl _ _ (H.held j p' b' (by rw [← hne j hji]; exact hj))
  sent w hw := hl _ _ (H.sent w hw)
  excl j k p' b' hj hk := by
    by_cases hji : j = i
    · by_cases hki : k = i
      · rw [hji, hki]
      · rw [hji, hi] at hj
        rw [hne k hki, ← hj] at hk
        exact absurd (H.held k p b hk) hfree
    · rw [hne j hji] at hj
      by_cases hki : k = i
      · rw [hki, hi] at hk
        rw [← hk] at hj
        exact absurd (H.held j p b hj) hfree
      · rw [hne k hki] at hk
        exact H.excl j k p' b' hj hk
  apart j w hw := by
    by_cases hji : j = i
    · rw [hji, hi]
      rintro hw'
      rw [Option.some.injEq, Prod.mk.injEq] at hw'
      obtain ⟨rfl, rfl⟩ := hw'
      exact hfree (H.sent w hw)
    · rw [hne j hji]
      exact H.apart j w hw
  nodup := H.nodup

theorem Locks.post {ph ph' : ι → Phase K V} {posted : List Posted} {i : ι} {w : Posted}
    (H : Locks h ph posted) (hw : (ph i).held = some (w.ptr, w.bucket))
    (hi : (ph' i).held = none) (hne : ∀ j, j ≠ i → (ph' j).held = (ph j).held) :
    Locks h ph' (posted ++ [w]) := by
  have hold : ∀ j x, (ph' j).held = some x → j ≠ i ∧ (ph j).held = some x := by
    intro j x hj
    have hji : j ≠ i := by
      rintro rfl
      rw [hi] at hj
      cases hj
    exact ⟨hji, by rw [← hne j hji]; exact hj⟩
  refine ⟨fun j p b hj => H.held j p b (hold j _ hj).2, fun w' hw' => ?_,
    fun j k p b hj hk => H.excl j k p b (hold j _ hj).2 (hold k _ hk).2, fun j w' hw' hj => ?_,
    ?_⟩
  · rcases List.mem_append.1 hw' with hw' | hw'
    · exact H.sent w' hw'
    · rw [List.mem_singleton.1 hw']
      exact H.held i _ _ hw
  · obtain ⟨hji, hj⟩ := hold j _ hj
    rcases List.mem_append.1 hw' with hw' | hw'
    · exact H.apart j w' hw' hj
    · rw [List.mem_singleton.1 hw'] at hj
      exact hji (H.excl j i _ _ hj hw)
  · rw [List.map_append, List.nodup_append]
    refine ⟨H.nodup, by simp, ?_⟩
    intro x hx y hy hxy
    obtain ⟨w', hw', rfl⟩ := List.mem_map.1 hx
    simp only [List.map_cons, List.map_nil, List.mem_singleton] at hy
    exact H.apart i w' hw' (by rw [hw, hxy, hy])

theorem Locks.deliver {ph : ι → Phase K V} {posted : List Posted} {n : ℕ} {w : Posted}
    {x : PlistPair} (H : Locks h ph posted) (hw : posted[n]? = some w) :
    Locks (h.setBucket w.ptr w.bucket x) ph (posted.eraseIdx n) := by
  obtain ⟨hn, hwn⟩ := List.getElem?_eq_some_iff.1 hw
  have hmem : w ∈ posted := hwn ▸ List.getElem_mem hn
  have hsub : ∀ w' ∈ posted.eraseIdx n, w' ∈ posted := fun _ hw' =>
    (List.eraseIdx_sublist posted n).subset hw'
  have hne : ∀ w' ∈ posted.eraseIdx n, ¬ (w'.ptr = w.ptr ∧ w'.bucket = w.bucket) := by
    intro w' hw' heq
    obtain ⟨k, hk, hkw⟩ := List.mem_eraseIdx_iff_getElem.1 hw'
    obtain ⟨hk', hkw'⟩ := hkw
    have hk₁ : k < (posted.map fun w => (w.ptr, w.bucket)).length := by simpa using hk
    have hn₁ : n < (posted.map fun w => (w.ptr, w.bucket)).length := by simpa using hn
    have hkn : (posted.map fun w => (w.ptr, w.bucket))[k] =
        (posted.map fun w => (w.ptr, w.bucket))[n] := by simp [hkw', hwn, heq.1, heq.2]
    exact hk' (H.nodup.getElem_inj_iff.1 hkn)
  refine ⟨fun j p b hj => ?_, fun w' hw' => ?_, H.excl, fun j w' hw' => H.apart j w' (hsub w' hw'),
    ?_⟩
  · rw [Heap.bucket_setBucket_ne fun heq => H.apart j w hmem (by rw [hj, heq.1, heq.2])]
    exact H.held j p b hj
  · rw [Heap.bucket_setBucket_ne (hne w' hw')]
    exact H.sent w' (hsub w' hw')
  · exact H.nodup.sublist ((List.eraseIdx_sublist posted n).map _)

end Locks

/-- The bucket a client has made lead to a P-List and is about to unlock so. -/
def Phase.calcifying : Phase K V → Option (RemotePtr × ℕ)
  | .unlock _ _ ctx status _ => if status = pUnlocked then some (ctx.parent, ctx.bucket) else none
  | _ => none

theorem Phase.held_of_calcifying {ph : Phase K V} {x : RemotePtr × ℕ}
    (h : ph.calcifying = some x) : ph.held = some x := by
  cases ph <;> simp only [calcifying, reduceCtorEq] at h
  split_ifs at h
  exact h

/-- The values of a lock word. -/
def IsLock (l : UInt64) : Prop := l = eLocked ∨ l = eUnlocked ∨ l = pUnlocked

theorem eLocked_ne_eUnlocked : eLocked ≠ eUnlocked := by decide

theorem eLocked_ne_pUnlocked : eLocked ≠ pUnlocked := by decide

theorem eUnlocked_ne_pUnlocked : eUnlocked ≠ pUnlocked := by decide

theorem IsLock.ne_zero {l : UInt64} (h : IsLock l) : l ≠ 0 := by
  rcases h with rfl | rfl | rfl <;> decide

theorem Heap.has_of_isLock {h : Heap K V} {p : RemotePtr} {b : ℕ}
    (hl : IsLock (h.bucket p b).lock) : h.Has p b :=
  Heap.has_of_lock hl.ne_zero

/-- In a P-List whose buckets are free no bucket has another lock word. -/
theorem bucketAt_lock_ne {bs : List PlistPair} {l : UInt64} (hbs : ∀ x ∈ bs, x.lock = eUnlocked)
    (hl : IsLock l) (hne : eUnlocked ≠ l) (b : ℕ) : (bucketAt bs b).lock ≠ l := by
  rintro rfl
  rcases bucketAt_mem bs b with hmem | hjunk
  · exact hne (hbs _ hmem).symm
  · exact hl.ne_zero (by rw [hjunk]; rfl)

/-- The values an unlock writes. -/
def IsUnlock (l : UInt64) : Prop := l = eUnlocked ∨ l = pUnlocked

/-- The status a client is to unlock its bucket with. -/
def Phase.status : Phase K V → Option UInt64
  | .link _ _ _ _ status => some status
  | .unlock _ _ _ status _ => some status
  | _ => none

/-- A client goes on to `ph'` with the status it had, or with one of the protocol. -/
def Phase.Keeps (ph ph' : Phase K V) : Prop :=
  ∀ l, ph'.status = some l → IsUnlock l ∨ ph.status = some l

/-- What a step does to the P-Lists, to the bucket its client holds and to the posted unlocks:
nothing, taking a lock, writing a bucket's pointer, adding a P-List, posting an unlock. -/
inductive BucketEffect (h : Heap K V) (ph : Phase K V) :
    Heap K V → Phase K V → Option Posted → Prop
  | same {h' ph'} (hp : h'.plist = h.plist) (hh : ph'.held = ph.held) (hc : ph.calcifying = none)
    (hs : ph.Keeps ph') : BucketEffect h ph h' ph' none
  | acquire {p b h' ph'} (hl : (h.bucket p b).lock = eUnlocked) (hh : ph.held = none)
    (hp : h' = h.setBucket p b { h.bucket p b with lock := eLocked }) (hh' : ph'.held = some (p, b))
    (hs : ph.Keeps ph') : BucketEffect h ph h' ph' none
  | link {p b ptr h' ph'} (hh : ph.held = some (p, b)) (hc : ph.calcifying = none)
    (hp : h' = h.setBucket p b { h.bucket p b with base := ptr }) (hh' : ph'.held = some (p, b))
    (hs : ph.Keeps ph') : BucketEffect h ph h' ph' none
  | grow {newP bs h' ph'} (hn : h.plist newP = none) (hc : ph.calcifying = none)
    (hp : h'.plist = Function.update h.plist newP (some bs)) (hh : ph'.held = ph.held)
    (hb : ∀ x ∈ bs, x.lock = eUnlocked) (hs : ph.Keeps ph') : BucketEffect h ph h' ph' none
  | post {w h' ph'} (hh : ph.held = some (w.ptr, w.bucket)) (hp : h' = h) (hh' : ph'.held = none)
    (hc : ∀ x, ph.calcifying = some x → w.status = pUnlocked) (hw : ph.status = some w.status)
    (hs : ph.Keeps ph') : BucketEffect h ph h' ph' (some w)

section Effect

variable {C : IhtCfg ι K}

/-- The loop of `rehash` writes no P-List, and locks no bucket of the new one. -/
theorem rehashLoop_plist {P : IhtParams K} {level count : ℕ} {src : List (K × V)}
    {fresh : List RemotePtr} {h h' : Heap K V} {bs bs' : List PlistPair}
    (hr : rehashLoop P level count src fresh h bs = some (h', bs'))
    (hbs : ∀ x ∈ bs, x.lock = eUnlocked) :
    h'.plist = h.plist ∧ ∀ x ∈ bs', x.lock = eUnlocked := by
  refine ⟨(rehashLoop_eq_some.1 hr).2, rehashLoop_rule
    (I := fun _ _ bs => ∀ x ∈ bs, x.lock = eUnlocked) hr hbs ?_ fun _ _ _ _ H _ => H⟩
  intro kv _ _ bs e H _ x hx
  rcases List.mem_or_eq_of_mem_set hx with hx | rfl
  · exact H x hx
  · rfl

theorem rehash_plist {P : IhtParams K} {self : UInt16} {h h' : Heap K V} {base newP : RemotePtr}
    {pcount pdepth : ℕ} {fresh : List RemotePtr}
    (hr : rehash P self h base pcount pdepth fresh = some (h', newP)) :
    newP ∈ fresh ∧ ∃ bs, h'.plist = Function.update h.plist newP (some bs)
      ∧ ∀ x ∈ bs, x.lock = eUnlocked := by
  obtain ⟨blocks, source, h₁, bs, rfl, -, hl, rfl⟩ := rehash_cases hr
  have hinit : ∀ x ∈ initPList P (pcount * 2 / P.plistSize), x.lock = eUnlocked := by
    intro x hx
    rw [initPList, List.mem_replicate] at hx
    rw [hx.2]
  obtain ⟨h1, h2⟩ := rehashLoop_plist hl hinit
  refine ⟨List.mem_cons_self, bs, ?_, h2⟩
  rw [← h1]
  split_ifs <;> rfl

/-- Without a cache a P-List is read. -/
theorem enter_none (P : IhtParams K) (c : Client K V) (h : Heap K V) (ptr : RemotePtr) (depth : ℕ)
    (path : List ℤ) : c.enter P .none h ptr depth path = c.read P h ptr depth := by
  simp [Client.enter, Cache.fetch, Cache.tryCache, Cache.place, CacheDepth.toNat, Client.read]

theorem Client.deallocate_phase (c : Client K V) (curr : CachedPList) :
    (c.deallocate curr).phase = c.phase := by
  rw [Client.deallocate]
  split_ifs <;> rfl

theorem Client.deallocate_cache (c : Client K V) (curr : CachedPList) :
    (c.deallocate curr).cache = c.cache := by
  unfold Client.deallocate
  split_ifs <;> rfl

/-- The head of the loop where the snapshot's bucket leads to a P-List. -/
theorem doWithHead_down {i : ι} {h : Heap K V} {c : Client K V} {n : ℕ}
    {op : Op K V} {ctx : Ctx} {b : ℕ}
    (hb : b = levelHash C.toIhtParams op.key ctx.depth ctx.count)
    (hdown : (bucketAt ctx.curr.buckets b).lock = pUnlocked) :
    doWithHead C i h c n op ctx =
      let path := ctx.path.set (ctx.depth - 1) b
      let base := (bucketAt ctx.curr.buckets b).base
      let (curr, c) := (c.deallocate ctx.curr).enter C.toIhtParams (C.cacheDepth i) h base ctx.depth
        path
      { heap := h
        client := { c with
          phase := .head n op ⟨ctx.depth + 1, ctx.count * 2, b, base, curr, path⟩ } } := by
  subst hb
  simp only [doWithHead]
  rw [if_pos hdown]

/-- The head of the loop where the snapshot's bucket does not lead to a P-List. -/
theorem doWithHead_stay {i : ι} {h : Heap K V} {c : Client K V} {n : ℕ}
    {op : Op K V} {ctx : Ctx} {b : ℕ}
    (hb : b = levelHash C.toIhtParams op.key ctx.depth ctx.count)
    (hdown : (bucketAt ctx.curr.buckets b).lock ≠ pUnlocked) :
    doWithHead C i h c n op ctx =
      let ctx := { ctx with bucket := b, path := ctx.path.set (ctx.depth - 1) b }
      let v := h.bucket ctx.parent b
      if v.lock = pUnlocked then { heap := h, client := { c with phase := .refetch n op ctx } }
      else if v.lock = eUnlocked then
        { heap := h.setBucket ctx.parent b { v with lock := eLocked }
          client := { c with phase := .locked n op ctx } }
      else { heap := h, client := { c with phase := .head n op ctx } } := by
  subst hb
  simp only [doWithHead]
  rw [if_neg hdown]

theorem doWithHead_effect {i : ι} {h : Heap K V} {c : Client K V} {call : ℕ} {op : Op K V}
    {ctx : Ctx} (hph : c.phase = .head call op ctx) :
    BucketEffect h c.phase (doWithHead C i h c call op ctx).heap
      (doWithHead C i h c call op ctx).client.phase (doWithHead C i h c call op ctx).posted := by
  obtain ⟨b, hb⟩ : ∃ b, b = levelHash C.toIhtParams op.key ctx.depth ctx.count := ⟨_, rfl⟩
  rw [hph]
  by_cases hdown : (bucketAt ctx.curr.buckets b).lock = pUnlocked
  · rw [doWithHead_down hb hdown]
    exact .same rfl rfl rfl (by simp [Phase.Keeps, Phase.status])
  · rw [doWithHead_stay hb hdown]
    simp only []
    split_ifs with h1 h2
    · exact .same rfl rfl rfl (by simp [Phase.Keeps, Phase.status])
    · exact .acquire h2 rfl rfl rfl (by simp [Phase.Keeps, Phase.status])
    · exact .same rfl rfl rfl (by simp [Phase.Keeps, Phase.status])

/-- A step leaves a bucket that is locked or leads to a P-List as it is, but for the pointer of the
bucket its client has locked and not yet made lead to a P-List. -/
theorem BucketEffect.bucket {h h' : Heap K V} {ph ph' : Phase K V} {w : Option Posted}
    {p : RemotePtr} {b : ℕ} (H : BucketEffect h ph h' ph' w)
    (hl : (h.bucket p b).lock = eLocked ∨ (h.bucket p b).lock = pUnlocked) :
    (h'.bucket p b).lock = (h.bucket p b).lock
      ∧ ((ph.held = some (p, b) → ph.calcifying = some (p, b)) →
        h'.bucket p b = h.bucket p b) := by
  have hhas : h.Has p b := Heap.has_of_isLock (hl.imp_right .inr)
  suffices h'.bucket p b = h.bucket p b ∨ ph.held = some (p, b) ∧ ph.calcifying = none
      ∧ (h'.bucket p b).lock = (h.bucket p b).lock by
    rcases this with h1 | ⟨h1, h2, h3⟩
    · exact ⟨by rw [h1], fun _ => h1⟩
    · refine ⟨h3, fun h4 => ?_⟩
      rw [h2] at h4
      exact absurd (h4 h1) (by simp)
  cases H with
  | same hp hh hc => exact .inl (by simp only [Heap.bucket, hp])
  | @acquire p' b' _ _ hl' hh hp hh' =>
    refine .inl ?_
    rw [hp, Heap.bucket_setBucket_ne]
    rintro ⟨rfl, rfl⟩
    rw [hl'] at hl
    exact hl.elim eLocked_ne_eUnlocked.symm eUnlocked_ne_pUnlocked
  | @link p' b' ptr _ _ hh hc hp hh' =>
    by_cases heq : p = p' ∧ b = b'
    · obtain ⟨rfl, rfl⟩ := heq
      exact .inr ⟨hh, hc, by rw [hp, Heap.bucket_setBucket_self hhas]⟩
    · exact .inl (by rw [hp, Heap.bucket_setBucket_ne heq])
  | @grow newP bs _ _ hn hc hp hh hb hs =>
    have hne : p ≠ newP := by
      rintro rfl
      obtain ⟨bs', h1, -⟩ := hhas
      rw [hn] at h1
      cases h1
    exact .inl (by simp only [Heap.bucket, hp, Function.update_of_ne hne])
  | post hh hp hh' hc => exact .inl (by rw [hp])

/-- The locks after a client's step. -/
theorem BucketEffect.locks [DecidableEq ι] {h h' : Heap K V} {cl : ι → Client K V} {i : ι}
    {c' : Client K V} {posted : List Posted} {w : Option Posted}
    (H : BucketEffect h (cl i).phase h' c'.phase w)
    (hL : Locks h (fun j => (cl j).phase) posted) :
    Locks h' (fun j => (Function.update cl i c' j).phase) (posted ++ w.toList) := by
  have hl : ∀ p b, (h.bucket p b).lock = eLocked → (h'.bucket p b).lock = eLocked :=
    fun p b hlock => (H.bucket (.inl hlock)).1.trans hlock
  have hne : ∀ j, j ≠ i → (Function.update cl i c' j).phase.held = (cl j).phase.held :=
    fun j hj => by rw [Function.update_of_ne hj]
  have hkeep : c'.phase.held = (cl i).phase.held →
      Locks h' (fun j => (Function.update cl i c' j).phase)
        (posted ++ (none : Option Posted).toList) := by
    intro hh
    simp only [Option.toList_none, List.append_nil]
    refine hL.keep hl fun j => ?_
    by_cases hji : j = i
    · rw [hji, Function.update_self, hh]
    · exact hne j hji
  cases H with
  | same hp hh hc => exact hkeep hh
  | @acquire p b _ _ hlock hh hp hh' =>
    simp only [Option.toList_none, List.append_nil]
    refine hL.acquire (i := i) (p := p) (b := b) (by rw [hlock]; exact eLocked_ne_eUnlocked.symm)
      ?_ hl (by rw [Function.update_self, hh']) hne
    rw [hp, Heap.bucket_setBucket_self (Heap.has_of_isLock (.inr (.inl hlock)))]
  | link hh hc hp hh' => exact hkeep (hh'.trans hh.symm)
  | grow hn hc hp hh => exact hkeep hh
  | post hh hp hh' hc =>
    rw [hp]
    exact hL.post hh (by rw [Function.update_self, hh']) hne

variable [DecidableEq K]

/-- What the operation's function does with the E-List `src`: the client goes on to unlock, to link
a new E-List, to write, or to rehash. -/
inductive LockedStep (C : IhtCfg ι K) (i : ι) (h : Heap K V) (c : Client K V) (call : ℕ)
    (op : Op K V) (ctx : Ctx) (fresh : List RemotePtr) (src : Option (List (K × V))) :
    Effect K V → Prop
  | finish (r : Option V) (hact : apply C.toIhtParams op src = .finish r) :
    LockedStep C i h c call op ctx fresh src
      { heap := h, client := { c with phase := .unlock call op ctx eUnlocked r } }
  | link (el : List (K × V)) (ptr : RemotePtr) (hact : apply C.toIhtParams op src = .link el)
    (hfresh : fresh = [ptr]) (hal : h.allocatable (C.self i) [ptr] = true) :
    LockedStep C i h c call op ctx fresh src
      { heap := h.setElist ptr (some el)
        client := { c with phase := .link call op ctx ptr eUnlocked } }
  | write (el : List (K × V)) (r : Option V) (hact : apply C.toIhtParams op src = .write el r) :
    LockedStep C i h c call op ctx fresh src
      { heap := h, client := { c with phase := .write call op ctx el r } }
  | rehash (hact : apply C.toIhtParams op src = .rehash) :
    LockedStep C i h c call op ctx fresh src
      { heap := h, client := { c with phase := .rehash call op ctx } }

theorem doWithLocked_cases {i : ι} {h : Heap K V} {c : Client K V} {call : ℕ} {op : Op K V}
    {ctx : Ctx} {fresh : List RemotePtr} {e : Effect K V}
    (hs : doWithLocked C i h c call op ctx fresh = some e) :
    LockedStep C i h c call op ctx fresh
      (if (bucketAt ctx.curr.buckets ctx.bucket).base = .null then none
        else h.elist (bucketAt ctx.curr.buckets ctx.bucket).base) e := by
  simp only [doWithLocked] at hs
  generalize hsrc : (if (bucketAt ctx.curr.buckets ctx.bucket).base = .null then none
    else h.elist (bucketAt ctx.curr.buckets ctx.bucket).base) = src at hs ⊢
  split_ifs at hs
  split at hs
  next r hact =>
    cases hs
    exact .finish r hact
  next el ptr hact =>
    split_ifs at hs with hal
    cases hs
    exact .link el ptr hact rfl hal
  next => cases hs
  next el r hact =>
    cases hs
    exact .write el r hact
  next hact =>
    cases hs
    exact .rehash hact

theorem doWithLocked_effect {i : ι} {h : Heap K V} {c : Client K V} {call : ℕ} {op : Op K V}
    {ctx : Ctx} {fresh : List RemotePtr} {e : Effect K V} (hph : c.phase = .locked call op ctx)
    (hs : doWithLocked C i h c call op ctx fresh = some e) :
    BucketEffect h c.phase e.heap e.client.phase e.posted := by
  rw [hph]
  cases doWithLocked_cases hs with
  | finish | link | write | rehash =>
    exact .same rfl rfl rfl (by simp [Phase.Keeps, Phase.status, IsUnlock])

/-- Every step of a client has one of the effects. -/
theorem stepClient_effect {i : ι} {h : Heap K V} {c : Client K V} {fresh : List RemotePtr}
    {e : Effect K V} (hs : stepClient C i h c fresh = some e) :
    BucketEffect h c.phase e.heap e.client.phase e.posted := by
  rw [stepClient] at hs
  split at hs
  next => cases hs
  next call op hph =>
    cases hs
    rw [hph]
    exact .same rfl rfl rfl (by simp [Phase.Keeps, Phase.status, doWithStart])
  next call op ctx hph =>
    split_ifs at hs
    cases hs
    exact doWithHead_effect hph
  next call op ctx hph =>
    cases hs
    rw [hph]
    exact .same rfl rfl rfl (by simp [Phase.Keeps, Phase.status, doWithRefetch])
  next call op ctx hph => exact doWithLocked_effect hph hs
  next call op ctx l r hph =>
    cases hs
    rw [hph]
    exact .same rfl rfl rfl (by simp [Phase.Keeps, Phase.status, IsUnlock])
  next call op ctx hph =>
    split_ifs at hs with hal
    obtain ⟨⟨h', newP⟩, hr, rfl⟩ := Option.map_eq_some_iff.1 hs
    obtain ⟨hmem, bs, hbs, hlock⟩ := rehash_plist hr
    rw [hph]
    refine .grow ?_ rfl hbs rfl hlock (by simp [Phase.Keeps, Phase.status, IsUnlock])
    simp only [Heap.allocatable, Bool.and_eq_true, List.all_eq_true] at hal
    simpa using (hal.2 newP hmem).2
  next call op ctx ptr status hph =>
    cases hs
    rw [hph]
    exact .link rfl rfl rfl rfl fun _ => .inr
  next call op ctx status r hph =>
    cases hs
    rw [hph]
    refine .post rfl rfl ?_ ?_ rfl ?_
    · simp only [doWithUnlock]
      split_ifs <;> rfl
    · intro x hx
      simp only [Phase.calcifying] at hx
      split_ifs at hx with h1
      exact h1
    · simp only [doWithUnlock]
      split_ifs <;> simp [Phase.Keeps, Phase.status]
  next call op r hph =>
    cases hs
    rw [hph]
    exact .same rfl rfl rfl (by simp [Phase.Keeps, Phase.status, IsUnlock])

end Effect

section Run

variable {s s' : IhtState ι K V}

/-- Who holds the locks in a state. -/
def IhtState.Locks (s : IhtState ι K V) : Prop :=
  Rome.Locks s.heap (fun i => (s.client i).phase) s.posted

theorem locks_init (C : IhtCfg ι K) : (ihtInit C : IhtState ι K V).Locks :=
  ⟨by simp [ihtInit, Phase.held], by simp [ihtInit], by simp [ihtInit, Phase.held],
    by simp [ihtInit], by simp [ihtInit]⟩

/-- At first the buckets are those of the root, and free. -/
theorem ihtInit_bucket {C : IhtCfg ι K} {p : RemotePtr} {b : ℕ}
    (hb : (ihtInit C : IhtState ι K V).heap.Has p b) :
    p = C.root ∧ (ihtInit C : IhtState ι K V).heap.bucket p b = ⟨.null, eUnlocked⟩ := by
  obtain ⟨bs, h1, h2⟩ := hb
  have hp : p = C.root := by
    by_contra hne
    simp [ihtInit, Function.update_of_ne hne] at h1
  subst hp
  simp only [ihtInit, Function.update_self, Option.some.injEq] at h1
  subst h1
  rw [initPList_length] at h2
  refine ⟨rfl, ?_⟩
  simp only [Heap.bucket, ihtInit, Function.update_self, Option.getD_some,
    bucketAt_initPList C.toIhtParams h2]

/-- The bucket `b` of the P-List `p` leads to the P-List `q`, if only its unlock is still to
come. -/
def IhtState.Calcified (s : IhtState ι K V) (p : RemotePtr) (b : ℕ) (q : RemotePtr) : Prop :=
  (s.heap.bucket p b).base = q ∧ ((s.heap.bucket p b).lock = pUnlocked
    ∨ ⟨p, b, pUnlocked⟩ ∈ s.posted ∨ ∃ i, (s.client i).phase.calcifying = some (p, b))

/-- A bucket that leads to a P-List is locked by nobody else. -/
theorem IhtState.Calcified.held {p q : RemotePtr} {b : ℕ} (hL : s.Locks) (H : s.Calcified p b q)
    {i : ι} (hi : (s.client i).phase.held = some (p, b)) :
    (s.client i).phase.calcifying = some (p, b) := by
  rcases H.2 with h1 | h1 | ⟨j, hj⟩
  · rw [hL.held i p b hi] at h1
    exact absurd h1 eLocked_ne_pUnlocked
  · exact absurd hi (hL.apart i _ h1)
  · rw [hL.excl i j p b hi (Phase.held_of_calcifying hj)]
    exact hj

theorem IhtState.Calcified.lock {p q : RemotePtr} {b : ℕ} (hL : s.Locks) (H : s.Calcified p b q) :
    (s.heap.bucket p b).lock = eLocked ∨ (s.heap.bucket p b).lock = pUnlocked := by
  rcases H.2 with h1 | h1 | ⟨j, hj⟩
  · exact .inr h1
  · exact .inl (hL.sent _ h1)
  · exact .inl (hL.held j p b (Phase.held_of_calcifying hj))

variable [DecidableEq ι]

/-- The state after client `i`'s step did `e`. -/
def IhtState.put (s : IhtState ι K V) (i : ι) (e : Effect K V) : IhtState ι K V :=
  { s with
    heap := e.heap
    posted := s.posted ++ e.posted.toList
    client := Function.update s.client i e.client
    hist := s.hist ++ (e.result.map fun r => .res r.1 r.2).toList }

variable [DecidableEq K] {C : IhtCfg ι K} {e : IhtEvent ι K V}

theorem ihtStep_cases (hs : ihtStep C s e = some s') :
    (∃ i op, e = .invoke i op ∧ (s.client i).phase = .idle ∧ s' = { s with
        client := Function.update s.client i { s.client i with phase := .start s.calls op }
        calls := s.calls + 1
        hist := s.hist ++ [.inv s.calls op] })
      ∨ (∃ i fresh eff, e = .step i fresh ∧ stepClient C i s.heap (s.client i) fresh = some eff
        ∧ s' = s.put i eff)
      ∨ ∃ n w, e = .deliver n ∧ s.posted[n]? = some w ∧ s' = { s with
        heap := s.heap.setBucket w.ptr w.bucket
          { s.heap.bucket w.ptr w.bucket with lock := w.status }
        posted := s.posted.eraseIdx n } := by
  cases e with
  | invoke i op =>
    simp only [ihtStep] at hs
    split at hs
    next hph => exact .inl ⟨i, op, rfl, hph, (Option.some.inj hs).symm⟩
    next => cases hs
  | step i fresh =>
    obtain ⟨eff, h1, h2⟩ := Option.map_eq_some_iff.1 hs
    exact .inr (.inl ⟨i, fresh, eff, rfl, h1, h2.symm⟩)
  | deliver n =>
    simp only [ihtStep] at hs
    split at hs
    next => cases hs
    next w hw => exact .inr (.inr ⟨n, w, rfl, hw, (Option.some.inj hs).symm⟩)

theorem IhtState.Locks.ihtStep (H : s.Locks) (hs : Rome.ihtStep C s e = some s') : s'.Locks := by
  rcases ihtStep_cases hs with ⟨i, op, -, hph, rfl⟩ | ⟨i, fresh, eff, -, h1, rfl⟩ |
    ⟨n, w, -, hw, rfl⟩
  · refine Rome.Locks.keep H (fun _ _ => id) fun j => ?_
    by_cases hji : j = i
    · subst hji
      simp [Phase.held, hph]
    · simp [Function.update_of_ne hji]
  · exact (stepClient_effect h1).locks H
  · exact Rome.Locks.deliver H hw

/-- A bucket that leads to a P-List does so for good. -/
theorem IhtState.Calcified.ihtStep {p q : RemotePtr} {b : ℕ} (hL : s.Locks)
    (H : s.Calcified p b q) (hs : Rome.ihtStep C s e = some s') : s'.Calcified p b q := by
  have hlock := H.lock hL
  have hheld := fun i => H.held hL (i := i)
  obtain ⟨hb, hcal⟩ := H
  rcases ihtStep_cases hs with ⟨i, op, -, hph, rfl⟩ | ⟨i, fresh, eff, -, h1, rfl⟩ |
    ⟨n, w, -, hw, rfl⟩
  · refine ⟨hb, hcal.imp_right (Or.imp_right ?_)⟩
    rintro ⟨j, hj⟩
    refine ⟨j, ?_⟩
    have hji : j ≠ i := by
      rintro rfl
      simp [hph, Phase.calcifying] at hj
    simpa [Function.update_of_ne hji] using hj
  · have heff := stepClient_effect h1
    obtain ⟨hl, hbucket⟩ := heff.bucket hlock
    have hbucket := hbucket (hheld i)
    refine ⟨by simp only [IhtState.put, hbucket, hb], ?_⟩
    rcases hcal with h2 | h2 | ⟨j, hj⟩
    · exact .inl (by simp only [IhtState.put, hl, h2])
    · exact .inr (.inl (List.mem_append_left _ h2))
    · by_cases hji : j = i
      · subst hji
        have hj' := Phase.held_of_calcifying hj
        generalize hw : eff.posted = po at heff
        cases heff with
        | same hp hh hc => rw [hc] at hj; cases hj
        | acquire _ hh => rw [hh] at hj'; cases hj'
        | link hh hc => rw [hc] at hj; cases hj
        | grow hn hc => rw [hc] at hj; cases hj
        | @post w _ _ hh hp hh' hc =>
          refine .inr (.inl (List.mem_append_right _ ?_))
          rw [hj', Option.some.injEq, Prod.mk.injEq] at hh
          have hst := hc _ hj
          simp only [hw, Option.toList_some, List.mem_singleton]
          cases w
          simp only at hh hst
          rw [hh.1, hh.2, hst]
      · exact .inr (.inr ⟨j, by simpa [IhtState.put, Function.update_of_ne hji] using hj⟩)
  · obtain ⟨hn, hwn⟩ := List.getElem?_eq_some_iff.1 hw
    have hmem : w ∈ s.posted := hwn ▸ List.getElem_mem hn
    by_cases heq : p = w.ptr ∧ b = w.bucket
    · obtain ⟨rfl, rfl⟩ := heq
      have hhas : s.heap.Has w.ptr w.bucket :=
        Heap.has_of_isLock (hlock.imp_right .inr)
      have hst : w.status = pUnlocked := by
        rcases hcal with h2 | h2 | ⟨j, hj⟩
        · rw [hL.sent w hmem] at h2
          exact absurd h2 eLocked_ne_pUnlocked
        · rw [List.inj_on_of_nodup_map hL.nodup hmem h2 rfl]
        · exact absurd (Phase.held_of_calcifying hj) (hL.apart j w hmem)
      refine ⟨?_, .inl ?_⟩
      · simp only [Heap.bucket_setBucket_self hhas, hb]
      · simp only [Heap.bucket_setBucket_self hhas, hst]
    · refine ⟨by simp only [Heap.bucket_setBucket_ne heq, hb], ?_⟩
      rcases hcal with h2 | h2 | h2
      · exact .inl (by simp only [Heap.bucket_setBucket_ne heq, h2])
      · refine .inr (.inl ?_)
        obtain ⟨k, hk, hkp⟩ := List.mem_iff_getElem.1 h2
        refine List.mem_eraseIdx_iff_getElem.2 ⟨k, hk, ?_, hkp⟩
        rintro rfl
        rw [hwn] at hkp
        exact heq ⟨by rw [hkp], by rw [hkp]⟩
      · exact .inr (.inr h2)

/-- A bucket whose lock says that it leads to a P-List is never written again. -/
theorem ihtStep_bucket {p : RemotePtr} {b : ℕ} (hL : s.Locks)
    (hl : (s.heap.bucket p b).lock = pUnlocked) (hs : ihtStep C s e = some s') :
    s'.heap.bucket p b = s.heap.bucket p b := by
  have hcal : s.Calcified p b (s.heap.bucket p b).base := ⟨rfl, .inl hl⟩
  rcases ihtStep_cases hs with ⟨i, op, -, hph, rfl⟩ | ⟨i, fresh, eff, -, h1, rfl⟩ |
    ⟨n, w, -, hw, rfl⟩
  · rfl
  · exact ((stepClient_effect h1).bucket (.inr hl)).2 (hcal.held hL)
  · refine Heap.bucket_setBucket_ne ?_
    rintro ⟨rfl, rfl⟩
    rw [hL.sent w (List.mem_of_getElem? hw)] at hl
    exact absurd hl eLocked_ne_pUnlocked

end Run

end Rome
