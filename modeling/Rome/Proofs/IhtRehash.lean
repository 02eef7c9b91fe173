import Rome.Proofs.IhtUpdate

/-!
# The rehash of an E-List

`rehash` makes a P-List of twice the size and spreads the pairs of the full E-List over it by the
hash of the next level, the one a descent uses there. Before its pointer is written nobody else can
see the new P-List, and the bucket is locked; in the trie it takes the E-List's place at once.
-/

namespace Rome

open HashTrie Lin

variable {ι K V : Type*}

/-- The buckets of a new P-List. -/
def slotsOf (bs : List PlistPair) (b : ℕ) : Slot RemotePtr := slotOf .null (bucketAt bs b).base

theorem bucketAt_of_le {bs : List PlistPair} {b : ℕ} (h : bs.length ≤ b) :
    bucketAt bs b = .junk := by
  simp [bucketAt, List.getElem?_eq_none h]

theorem slotsOf_leaf {bs : List PlistPair} {b : ℕ} {e : RemotePtr} (h : slotsOf bs b = .leaf e) :
    b < bs.length ∧ (bucketAt bs b).base = e ∧ (bucketAt bs b).base ≠ .null := by
  obtain ⟨h1, h2⟩ := slotOf_leaf h
  refine ⟨?_, h1, h2⟩
  by_contra hge
  rw [bucketAt_of_le (not_lt.1 hge)] at h2
  exact h2 rfl

theorem slotsOf_ne_node (bs : List PlistPair) (b : ℕ) (q : RemotePtr) : slotsOf bs b ≠ .node q :=
  slotOf_ne_node _ _ q

theorem slotPtr_slotsOf (bs : List PlistPair) (b : ℕ) :
    slotPtr (slotsOf bs b) = (bucketAt bs b).base := by
  simp only [slotsOf, slotOf]
  split_ifs with hb
  · rw [hb]
    rfl
  · rfl

theorem Heap.unused {h : Heap K V} {self : UInt16} {fresh : List RemotePtr}
    (ha : h.allocatable self fresh = true) : Unused .null h.elist h.plist fresh := by
  simp only [Heap.allocatable, Bool.and_eq_true, List.all_eq_true, decide_eq_true_eq,
    Option.isNone_iff_eq_none] at ha
  refine ⟨ha.1, fun p hp => ?_⟩
  obtain ⟨⟨⟨h1, -⟩, h2⟩, h3⟩ := ha.2 p hp
  exact ⟨h1, h2, h3⟩

/-- What `rehash` does to the memory. -/
theorem rehash_spec {P : IhtParams K} {self : UInt16} {h h' : Heap K V} {base newP : RemotePtr}
    {d : ℕ} {fresh : List RemotePtr} {src : List (K × V)} (hd : 1 ≤ d)
    (hsrc : h.elist base = some src) (ha : h.allocatable self fresh = true)
    (hr : rehash P self h base (P.buckets d) d fresh = some (h', newP)) :
    ∃ blocks rest h₁ bs, fresh = newP :: blocks
      ∧ Rehashed P (d + 1) (P.buckets (d + 1)) h blocks rest src h₁ bs
      ∧ h'.plist = Function.update h.plist newP (some bs)
      ∧ ∀ p, p ≠ base → h'.elist p = h₁.elist p := by
  obtain ⟨blocks, source, h₁, bs, rfl, hsource, hl, rfl⟩ := rehash_cases hr
  rw [hsrc, Option.some.injEq] at hsource
  subst hsource
  have hfree := (Heap.unused ha).tail
  rw [← P.buckets_succ hd] at hl
  obtain ⟨rest, hR⟩ := rehashLoop_spec (P.four_le_buckets (d + 1)) (P.mul_buckets_div (d + 1))
    hfree.nil_notMem hfree.nodup hl
  refine ⟨blocks, rest, h₁, bs, rfl, hR, ?_, fun q hq => ?_⟩
  · rw [← hR.plist]
    split_ifs <;> rfl
  · split_ifs
    · simp only [Heap.setElist, Heap.setPlist, Function.update_of_ne hq]
    · rfl

section Split

variable {P : IhtParams K} {root : RemotePtr} {h h₁ h' : Heap K V} {T : Trie RemotePtr K V}
  {mv : RemotePtr → ℕ → Prop} {newP e p : RemotePtr} {d b : ℕ} {blocks rest : List RemotePtr}
  {bs : List PlistPair}

/-- A P-List that is there is not the one that is allocated. -/
theorem Heap.Has.ne (hb : h.Has p b) (hnone : h.plist newP = none) : p ≠ newP := by
  rintro rfl
  obtain ⟨bs, h1, -⟩ := hb
  rw [hnone] at h1
  cases h1

theorem Heap.bucket_of_update (hplist : h'.plist = Function.update h.plist newP (some bs))
    (hne : p ≠ newP) (b : ℕ) : h'.bucket p b = h.bucket p b := by
  simp only [Heap.bucket, hplist, Function.update_of_ne hne]

/-- The memory when the new P-List stands for the E-List `e` of the locked bucket `b` of `p`. -/
theorem HeapRel.split {mv' : RemotePtr → ℕ → Prop} {k₀ : K} (hS : Shape root T)
    (H : HeapRel P root h mv T) (hp : OnPath (bucketOf P) root T k₀ p d)
    (hs : T.slot p (bucketOf P k₀ d) = .leaf e)
    (hlock : (h.bucket p (bucketOf P k₀ d)).lock = eLocked)
    (hR : Rehashed P (d + 1) (P.buckets (d + 1)) h blocks rest (T.elems e) h₁ bs)
    (hnew : Unused .null h.elist h.plist (newP :: blocks))
    (hplist : h'.plist = Function.update h.plist newP (some bs))
    (helist : ∀ p, p ≠ e → h'.elist p = h₁.elist p) (hmv : mv' p (bucketOf P k₀ d))
    (hmv' : ∀ p b, mv p b → mv' p b) :
    HeapRel P root h' mv' (T.split p (bucketOf P k₀ d) newP (slotsOf bs)
      fun p => (h₁.elist p).getD []) := by
  have hnone := (hnew.free newP List.mem_cons_self).2.2
  have hbucket : ∀ p' b', p' ≠ newP → h'.bucket p' b' = h.bucket p' b' := fun p' b' hne =>
    Heap.bucket_of_update hplist hne b'
  have hself : h'.plist newP = some bs := by rw [hplist, Function.update_self]
  have hnewb : ∀ b', h'.bucket newP b' = bucketAt bs b' := fun b' => by simp [Heap.bucket, hself]
  have hslot : ∀ p' b', (T.split p (bucketOf P k₀ d) newP (slotsOf bs) fun p =>
      (h₁.elist p).getD []).slot p' b' = if p' = p ∧ b' = bucketOf P k₀ d then .node newP
        else if p' = newP then slotsOf bs b' else T.slot p' b' := fun _ _ => rfl
  have hmem := H.toInMemory.split (π := pairPointing) hS hp hs (bucketOf_lt P k₀ d) hR.toFilled hnew
    helist
  rw [← hplist] at hmem
  refine ⟨hmem, fun p' b' hm => ?_, fun p' b' hh => ?_⟩
  · rw [hslot]
    split_ifs with h1 h2
    · exact absurd (by rw [h1.1, h1.2]; exact hmv) hm
    · rw [h2, hnewb, slotPtr_slotsOf]
    · rw [hbucket _ _ h2]
      exact H.base p' b' fun h3 => hm (hmv' _ _ h3)
  · rw [hslot]
    split_ifs with h1 h2
    · have hne : p ≠ newP := Heap.Has.ne (H.has p _ (by rw [hs]; simp)) hnone
      rw [h1.1, h1.2, hbucket _ _ hne]
      exact .inl hlock
    · subst h2
      obtain ⟨bs', h3, h4⟩ := hh
      rw [hself, Option.some.injEq] at h3
      rw [← h3, hR.length] at h4
      rw [hnewb]
      exact .inr (.inl ⟨hR.lock h4, slotsOf_ne_node bs b'⟩)
    · rw [hbucket _ _ h2]
      refine H.lock p' b' ?_
      obtain ⟨bs', h3, h4⟩ := hh
      rw [hplist, Function.update_of_ne h2] at h3
      exact ⟨bs', h3, h4⟩

end Split

variable [DecidableEq ι] [DecidableEq K] {C : IhtCfg ι K} {s : IhtState ι K V}
  {T : Trie RemotePtr K V} {m : K → Option V} {st : ℕ → Status (Op K V) (Option V)} {i : ι} {n : ℕ}
  {op : Op K V} {ctx : Ctx}

omit [DecidableEq ι] in
/-- An E-List that a client has made and not linked is neither in the trie nor new. -/
theorem SimAt.made_ne (H : SimAt C s T m st) {ptr p e : RemotePtr} {b : ℕ} {blocks : List RemotePtr}
    (hi : (s.client i).phase.made = some ptr) (hs : T.slot p b = .leaf e)
    (hnew : Unused .null s.heap.elist s.heap.plist blocks) : ptr ≠ e ∧ ptr ∉ blocks := by
  obtain ⟨⟨l, hl⟩, hno⟩ := H.made_elist hi
  refine ⟨?_, fun hm => ?_⟩
  · rintro rfl
    exact hno _ _ hs
  · rw [(hnew.free ptr hm).2.1] at hl
    cases hl

/-- A full E-List is rehashed. -/
theorem SimAt.rehash (H : SimAt C s T m st) (hph : (s.client i).phase = .rehash n op ctx)
    {fresh : List RemotePtr} {h' : Heap K V} {newP : RemotePtr}
    (ha : s.heap.allocatable (C.self i) fresh = true)
    (hr : Rome.rehash C.toIhtParams (C.self i) s.heap (bucketAt ctx.curr.buckets ctx.bucket).base
      ctx.count ctx.depth fresh = some (h', newP)) :
    ∃ bs c, Spread (bucketOf C.toIhtParams) T (bucketAt ctx.curr.buckets ctx.bucket).base ctx.depth
        (slotsOf bs) c
      ∧ (newP ≠ C.root ∧ ∀ p b, T.slot p b ≠ .node newP)
      ∧ SimAt C (s.put i { heap := h', client :=
        { s.client i with phase := .link n op ctx newP pUnlocked } })
        (T.split ctx.parent ctx.bucket newP (slotsOf bs) c) m st := by
  have hP := H.phase i
  rw [hph] at hP
  obtain ⟨⟨seen, hn⟩, hrel, hs, hop⟩ := hP
  set e := (bucketAt ctx.curr.buckets ctx.bucket).base with hedef
  have hheld : (s.client i).phase.held = some (ctx.parent, ctx.bucket) := by
    rw [hph]
    rfl
  have hlock := H.lock.held i _ _ hheld
  have hbase := H.base_of_held hheld (by rw [hph]; rfl)
  obtain ⟨henull, helems⟩ := H.heap.leaf _ _ _ hs
  rw [hrel.rel.count] at hr
  obtain ⟨blocks, rest, h₁, bs, rfl, hR, hplist, helist⟩ :=
    rehash_spec hrel.rel.path.one_le helems ha hr
  have hnew := Heap.unused ha
  obtain ⟨hPnull, -, hPnone⟩ := hnew.free newP List.mem_cons_self
  have hnode := H.heap.ne_node hPnone
  have hroot := H.heap.ne_root op.key hPnone
  have hempty : ∀ b, T.slot newP b = .empty := by
    intro b
    by_contra hne
    exact Heap.Has.ne (H.heap.has newP b hne) hPnone rfl
  have hlocked : ∀ p b, (s.heap.bucket p b).lock = eLocked → p ≠ newP := fun p b hl =>
    Heap.Has.ne (Heap.has_of_isLock (.inl hl)) hPnone
  have hbucket : ∀ p b, p ≠ newP → h'.bucket p b = s.heap.bucket p b := fun p b hne =>
    Heap.bucket_of_update hplist hne b
  have hspread : Spread (bucketOf C.toIhtParams) T e ctx.depth (slotsOf bs)
      fun p => (h₁.elist p).getD [] :=
    H.heap.spread hR.toFilled (H.rep.nodup _ _ _ hs) hnew.tail
      (fun k => bucketOf_lt _ k (ctx.depth + 1)) fun _ _ => rfl
  have hle := Trie.le_split (s := slotsOf bs) (c := fun p => (h₁.elist p).getD []) hs hempty
  have hs' := hs
  have hlock' := hlock
  rw [hrel.bucket] at hs' hlock'
  refine ⟨bs, fun p => (h₁.elist p).getD [], hspread, ⟨hroot, hnode⟩, ?_⟩
  rw [IhtState.put_heap]
  have hslot : ∀ p b, p ≠ newP → ¬ (p = ctx.parent ∧ b = ctx.bucket) →
      (T.split ctx.parent ctx.bucket newP (slotsOf bs) fun p => (h₁.elist p).getD []).slot p b
        = T.slot p b := by
    intro p b h1 h2
    simp only [Trie.split, h1, h2, if_false]
  refine H.step ?_ H.atomic ?_ ?_ ?_ hle (fun j hji p b hj => ⟨?_, ?_⟩)
    (fun j hji p b e' hj he' => ?_) (fun j hji ptr hj => ⟨?_, ?_, fun hno p b hb => ?_⟩)
    (fun _ _ => rfl) fun k hk => ?_
  · rw [hrel.bucket]
    exact H.rep.split hrel.rel.path hs' hspread ⟨hroot, hnode⟩
  · rw [hrel.bucket]
    refine H.heap.split H.rep.toShape hrel.rel.path hs' hlock' hR hnew hplist helist ⟨i, ?_⟩
      fun p b hm => moving_update (by rw [hph]; rfl) hm
    simp [Phase.moving, hrel.bucket]
  · refine H.lock.keep (fun p b hl => ?_) (fun w hw => ?_)
      fun j => phase_update Phase.held (by rw [hph]; rfl) j
    · rw [hbucket p b (hlocked p b hl)]
      exact hl
    · refine hslot _ _ (hlocked _ _ (H.lock.sent w hw)) ?_
      rintro ⟨h1, h2⟩
      exact H.lock.apart i w hw (by rw [hheld, h1, h2])
  · refine ⟨⟨seen, hn⟩, hrel.mono hle, hop, .inr ⟨rfl, ?_, ?_⟩⟩
    · simp [Trie.split]
    · rw [hbucket _ _ (hlocked _ _ hlock), hbase, hs]
      exact henull
  · exact hslot p b (hlocked _ _ (H.lock.held j p b hj)) (H.other hji hheld hj)
  · rw [hbucket _ _ (hlocked _ _ (H.lock.held j p b hj))]
  · refine hspread.frame p b e' he' ?_
    rintro rfl
    exact H.other hji hheld hj (H.rep.leaf_inj _ _ _ _ _ he' hs)
  · obtain ⟨h1, h2⟩ := H.made_ne hj hs hnew.tail
    rw [helist ptr h1, hR.frame ptr h2]
  · simp [Phase.made, eUnlocked_ne_pUnlocked.symm]
  · simp only [Trie.split] at hb
    split_ifs at hb with h1 h2
    · obtain ⟨h3, h4, h5⟩ := slotsOf_leaf hb
      rw [hR.length] at h3
      exact (H.made_ne hj hs hnew.tail).2 (h4 ▸ (hR.elem b h3 h5).1)
    · exact hno p b hb
  · rw [hph]
    exact hk

end Rome
