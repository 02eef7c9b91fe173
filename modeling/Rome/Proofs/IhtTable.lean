import Rome.Proofs.IhtCached
import Rome.Proofs.IhtRoom

/-!
# The table between calls

Between calls no bucket is locked and the memory is as the trie says: from the root on, each bucket
leads to a P-List of the next depth or to an E-List, and each pair is on the way of its key and
nowhere else (`TableWf`). That is owed to calls that do not overlap and to caches that answer with
the P-List they are asked for: an insert that a copy has led to another P-List puts its key off its
way, where no other client finds it.
-/

namespace Rome

open HashTrie Lin Machine

variable {ι K V : Type*}

/-- The P-List that the bucket `b` of `p` leads to. -/
def Heap.into (h : Heap K V) (p : RemotePtr) (b : ℕ) : Option RemotePtr :=
  if (h.bucket p b).lock = pUnlocked then some (h.bucket p b).base else none

/-- The P-List that the buckets `ns` lead to from the root. -/
def Heap.down (h : Heap K V) (root : RemotePtr) (ns : List ℕ) : Option RemotePtr :=
  ns.foldlM h.into root

/-- The buckets of a key at the first `n` depths. -/
def hashes (P : IhtParams K) (key : K) (n : ℕ) : List ℕ :=
  (List.range n).map fun i => bucketOf P key (i + 1)

/-- The pair `i` of the E-List in the bucket `b` of the P-List that `ns` leads to is `x`. -/
def Heap.StoredAt (h : Heap K V) (root : RemotePtr) (ns : List ℕ) (b i : ℕ) (x : K × V) : Prop :=
  ∃ p e, h.down root ns = some p ∧ (h.bucket p b).lock = eUnlocked
    ∧ h.elist (h.bucket p b).base = some e ∧ e[i]? = some x

/-- The table's representation: a P-List at each depth has the size of its depth and its last bucket
unused, a bucket leads to a P-List of the next depth for good or is unlocked and leads to an E-List
or to nothing, an E-List has room for its pairs, and a pair is on the way of its key and nowhere
else. -/
structure TableWf (P : IhtParams K) (root : RemotePtr) (h : Heap K V) : Prop where
  plist : ∀ ns p, h.down root ns = some p → h.IsPList P p (ns.length + 1)
  bucket : ∀ ns p b, h.down root ns = some p → h.Has p b →
    (h.bucket p b).lock = pUnlocked ∧ h.IsPList P (h.bucket p b).base (ns.length + 2)
      ∨ (h.bucket p b).lock = eUnlocked ∧ h.plist (h.bucket p b).base = none
        ∧ ((h.bucket p b).base = .null ∨ h.elist (h.bucket p b).base ≠ none)
  room : ∀ p e, h.elist p = some e → e.length ≤ P.elistSize
  way : ∀ ns b i x, h.StoredAt root ns b i x → ns ++ [b] = hashes P x.1 (ns.length + 1)
  once : ∀ ns b i x ns' b' i' x', h.StoredAt root ns b i x → h.StoredAt root ns' b' i' x' →
    x.1 = x'.1 → ns = ns' ∧ b = b' ∧ i = i'

section Down

variable {h : Heap K V} {root p : RemotePtr} {ns : List ℕ} {b : ℕ}

theorem down_snoc (h : Heap K V) (root : RemotePtr) (ns : List ℕ) (b : ℕ) :
    h.down root (ns ++ [b]) = (h.down root ns).bind fun p => h.into p b := by
  simp [Heap.down, List.foldlM_append]

theorem down_snoc_some {q : RemotePtr} (hd : h.down root (ns ++ [b]) = some q) :
    ∃ p, h.down root ns = some p ∧ (h.bucket p b).lock = pUnlocked ∧ (h.bucket p b).base = q := by
  rw [down_snoc, Option.bind_eq_some_iff] at hd
  obtain ⟨p, h1, h2⟩ := hd
  unfold Heap.into at h2
  split_ifs at h2 with hl
  exact ⟨p, h1, hl, Option.some.inj h2⟩

theorem down_append_some {ms : List ℕ} (hd : h.down root (ns ++ ms) = some p) :
    ∃ q, h.down root ns = some q := by
  unfold Heap.down at hd ⊢
  rw [List.foldlM_append, Option.bind_eq_bind, Option.bind_eq_some_iff] at hd
  obtain ⟨q, h1, -⟩ := hd
  exact ⟨q, h1⟩

theorem hashes_length (P : IhtParams K) (key : K) (n : ℕ) : (hashes P key n).length = n := by
  simp [hashes]

theorem hashes_succ (P : IhtParams K) (key : K) (n : ℕ) :
    hashes P key (n + 1) = hashes P key n ++ [bucketOf P key (n + 1)] := by
  simp [hashes, List.range_succ]

theorem hashes_add (P : IhtParams K) (key : K) (n m : ℕ) :
    ∃ ms, hashes P key (n + m) = hashes P key n ++ ms := by
  unfold hashes
  rw [List.range_add, List.map_append]
  exact ⟨_, rfl⟩

/-- The buckets and the last one of a way. -/
theorem hashes_of_way {P : IhtParams K} {key : K}
    (hw : ns ++ [b] = hashes P key (ns.length + 1)) :
    ns = hashes P key ns.length ∧ b = bucketOf P key (ns.length + 1) := by
  rw [hashes_succ] at hw
  obtain ⟨h1, h2⟩ := List.append_inj' hw (by rw [List.length_singleton, List.length_singleton])
  exact ⟨h1, List.singleton_inj.1 h2⟩

theorem down_hashes_lt {P : IhtParams K} {key : K} {m n : ℕ}
    (hd : h.down root (hashes P key n) = some p) (hlt : m < n) :
    ∃ q, h.down root (hashes P key m) = some q
      ∧ (h.bucket q (bucketOf P key (m + 1))).lock = pUnlocked := by
  obtain ⟨k, rfl⟩ := Nat.exists_eq_add_of_lt hlt
  obtain ⟨ms, hms⟩ := hashes_add P key (m + 1) k
  rw [Nat.add_right_comm, hms] at hd
  obtain ⟨q', h1⟩ := down_append_some hd
  rw [hashes_succ] at h1
  obtain ⟨q, h2, h3, -⟩ := down_snoc_some h1
  exact ⟨q, h2, h3⟩

end Down

/-- E-Lists and P-Lists are apart, and neither is at the null pointer. -/
structure Heap.Typed (h : Heap K V) : Prop where
  apart : ∀ p, h.elist p ≠ none → h.plist p = none
  null : h.elist .null = none ∧ h.plist .null = none

section Typed

variable {h h' : Heap K V} {p : RemotePtr} {b : ℕ} {x : PlistPair}

theorem Heap.Typed.setBucket (H : h.Typed) (hb : h.Has p b) : (h.setBucket p b x).Typed where
  apart p' hp := Heap.setBucket_plist_none hb (H.apart p' hp)
  null := ⟨H.null.1, Heap.setBucket_plist_none hb H.null.2⟩

theorem Heap.Typed.setElist (H : h.Typed) {e : List (K × V)} (hp : h.plist p = none)
    (hne : p ≠ .null) : (h.setElist p (some e)).Typed where
  apart p' hp' := by
    by_cases hpp : p' = p
    · rw [hpp]
      exact hp
    · simp only [Heap.setElist, Function.update_of_ne hpp] at hp'
      exact H.apart p' hp'
  null := ⟨by simp only [Heap.setElist, Function.update_of_ne hne.symm, H.null.1], H.null.2⟩

/-- A rehash keeps E-Lists and P-Lists apart. -/
theorem Heap.Typed.rehash {P : IhtParams K} {self : UInt16} {base newP : RemotePtr} {d : ℕ}
    {fresh : List RemotePtr} {src : List (K × V)} (H : h.Typed) (hd : 1 ≤ d)
    (hsrc : h.elist base = some src) (ha : h.allocatable self fresh = true)
    (hr : Rome.rehash P self h base (P.buckets d) d fresh = some (h', newP)) : h'.Typed := by
  obtain ⟨blocks, rest, h₁, bs, rfl, hR, hplist, helist⟩ := rehash_spec hd hsrc ha hr
  have hnew := Heap.unused ha
  obtain ⟨hnull, hnewE, hnewP⟩ := hnew.free newP List.mem_cons_self
  have hnodup : newP ∉ blocks := (List.nodup_cons.1 hnew.nodup).1
  have hold : ∀ p, p ≠ newP → h.plist p = none → h'.plist p = none := by
    intro p hne hp
    rw [hplist, Function.update_of_ne hne, hp]
  have hbase : base ≠ newP := by
    rintro rfl
    rw [hnewE] at hsrc
    cases hsrc
  refine ⟨fun p hp => ?_, ?_, hold _ (fun he => hnull he.symm) H.null.2⟩
  swap
  · have hne : RemotePtr.null ≠ base := by
      rintro rfl
      rw [H.null.1] at hsrc
      cases hsrc
    rw [helist _ hne, hR.frame _ hnew.tail.nil_notMem, H.null.1]
  have hpn : p ≠ newP := by
    rintro rfl
    rw [helist p fun he => hbase he.symm, hR.frame p hnodup, hnewE] at hp
    exact hp rfl
  refine hold p hpn ?_
  by_cases hpb : p = base
  · exact H.apart p (by rw [hpb, hsrc]; simp)
  · rw [helist p hpb] at hp
    by_cases hm : p ∈ blocks
    · exact (hnew.tail.free p hm).2.2
    · rw [hR.frame p hm] at hp
      exact H.apart p hp

variable [DecidableEq K] {C : IhtCfg ι K} {s : IhtState ι K V} {T : Trie RemotePtr K V}
  {m : K → Option V} {st : ℕ → Status (Op K V) (Option V)} {i : ι} {fresh : List RemotePtr}
  {eff : Effect K V}

theorem SimAt.typed (H : SimAt C s T m st) (hT : s.heap.Typed)
    (hs : Rome.stepClient C i s.heap (s.client i) fresh = some eff) : eff.heap.Typed := by
  have hP := H.phase i
  unfold Rome.stepClient at hs
  split at hs
  next => cases hs
  next n op hph =>
    cases hs
    exact hT
  next n op ctx hph =>
    split_ifs at hs
    cases hs
    unfold doWithHead
    simp only []
    split_ifs with h1 h2 h3
    · exact hT
    · exact hT
    · exact hT.setBucket (Heap.has_of_isLock (.inr (.inl h3)))
    · exact hT
  next n op ctx hph =>
    cases hs
    exact hT
  next n op ctx hph =>
    cases doWithLocked_cases hs with
    | link el ptr _ _ hal =>
      obtain ⟨h1, -, h2⟩ := (Heap.unused hal).free _ (List.mem_singleton_self _)
      exact hT.setElist h2 h1
    | finish | write | rehash => exact hT
  next n op ctx l r hph =>
    cases hs
    rw [hph] at hP
    obtain ⟨-, -, hslot, -⟩ := hP
    obtain ⟨h1, h2⟩ := H.heap.leaf _ _ _ hslot
    exact hT.setElist (hT.apart _ (by rw [h2]; simp)) h1
  next n op ctx hph =>
    split_ifs at hs with ha
    obtain ⟨⟨h', newP⟩, hr, rfl⟩ := Option.map_eq_some_iff.1 hs
    rw [hph] at hP
    obtain ⟨-, hrel, hslot, -⟩ := hP
    rw [hrel.rel.count] at hr
    exact hT.rehash hrel.rel.path.one_le (H.heap.leaf _ _ _ hslot).2 ha hr
  next n op ctx ptr status hph =>
    cases hs
    exact hT.setBucket (Heap.has_of_isLock
      (.inl (H.lock.held i ctx.parent ctx.bucket (by rw [hph]; rfl))))
  next n op ctx status r hph =>
    cases hs
    exact hT
  next n op r hph =>
    cases hs
    exact hT

end Typed

section Table

variable [DecidableEq ι] [DecidableEq K] {C : IhtCfg ι K} {s s' : IhtState ι K V}

/-- What holds between the steps of calls made one at a time. -/
structure TableAt (C : IhtCfg ι K) (s : IhtState ι K V) : Prop extends CachedAt C s where
  words : LockWords s
  owned : Owned s
  room : Room C.elistSize s
  typed : s.heap.Typed

theorem TableAt.ihtStep {e : IhtEvent ι K V} (H : TableAt C s) (hal : Alone s e)
    (hna : NoAlias C s e) (hs : Rome.ihtStep C s e = some s') : TableAt C s' := by
  refine ⟨H.toCachedAt.ihtStep hna hal hs, H.words.ihtStep H.sizes.locks hs,
    H.owned.ihtStep H.sizes.locks H.words hs, H.room.ihtStep hs, ?_⟩
  obtain ⟨T, m, st, hsim⟩ := H.seq.sim
  rcases ihtStep_cases hs with ⟨i, op, -, -, rfl⟩ | ⟨i, fresh, eff, -, h1, rfl⟩ |
    ⟨n, w, -, hw, rfl⟩
  · exact H.typed
  · exact hsim.typed H.typed h1
  · exact H.typed.setBucket (Heap.has_of_isLock
      (.inl (H.sizes.locks.sent w (List.mem_of_getElem? hw))))

/-- No call is under way, and no unlock. -/
def Complete (s : IhtState ι K V) : Prop :=
  (∀ i, (s.client i).phase.call = none) ∧ s.posted = []

omit [DecidableEq ι] [DecidableEq K] in
theorem Phase.eq_idle {ph : Phase K V} (h : ph.call = none) : ph = .idle := by
  cases ph <;> simp [Phase.call] at h
  rfl

omit [DecidableEq ι] [DecidableEq K] in
theorem Complete.held (H : Complete s) (i : ι) : (s.client i).phase.held = none := by
  rw [Phase.eq_idle (H.1 i)]
  rfl

omit [DecidableEq ι] in
theorem TableAt.unlocked (H : TableAt C s) (hc : Complete s) (p : RemotePtr) (b : ℕ) :
    (s.heap.bucket p b).lock ≠ eLocked := by
  intro hl
  rcases H.owned p b hl with ⟨i, hi⟩ | ⟨w, hw, -⟩
  · rw [hc.held i] at hi
    cases hi
  · rw [hc.2] at hw
    cases hw

omit [DecidableEq ι] [DecidableEq K] in
/-- A P-List that buckets lead to is of the depth that their number says. -/
theorem Sizes.of_down (H : Sizes C s) {ns : List ℕ} : ∀ {p : RemotePtr},
    s.heap.down C.root ns = some p → s.heap.IsPList C.toIhtParams p (ns.length + 1) := by
  induction ns using List.reverseRecOn with
  | nil =>
    intro p hd
    obtain rfl := Option.some.inj hd
    exact H.root
  | append_singleton ns b ih =>
    intro q hd
    obtain ⟨p, h1, h2, h3⟩ := down_snoc_some hd
    rw [List.length_append, List.length_singleton]
    exact H.down p b q _ ⟨h3, .inl h2⟩ (ih h1)

omit [DecidableEq ι] in
theorem SimAt.down_unique {T : Trie RemotePtr K V} {m : K → Option V}
    {st : ℕ → Status (Op K V) (Option V)} (H : SimAt C s T m st) {ns : List ℕ} :
    ∀ {ms : List ℕ} {p : RemotePtr}, s.heap.down C.root ns = some p →
      s.heap.down C.root ms = some p → ns = ms := by
  induction ns using List.reverseRecOn with
  | nil =>
    intro ms p h1 h2
    obtain rfl := Option.some.inj h1
    rcases List.eq_nil_or_concat ms with rfl | ⟨ms, c, rfl⟩
    · rfl
    · rw [List.concat_eq_append] at h2
      obtain ⟨q, -, h3, h4⟩ := down_snoc_some h2
      have h5 := (H.bucket q c).1 h3
      rw [h4] at h5
      exact absurd h5 (H.rep.root_ne q c)
  | append_singleton ns b ih =>
    intro ms p h1 h2
    obtain ⟨q, h3, h4, h5⟩ := down_snoc_some h1
    have h6 := (H.bucket q b).1 h4
    rw [h5] at h6
    rcases List.eq_nil_or_concat ms with rfl | ⟨ms, c, rfl⟩
    · obtain rfl := Option.some.inj h2
      exact absurd h6 (H.rep.root_ne q b)
    · rw [List.concat_eq_append] at h2 ⊢
      obtain ⟨q', h7, h8, h9⟩ := down_snoc_some h2
      have h10 := (H.bucket q' c).1 h8
      rw [h9] at h10
      obtain ⟨rfl, rfl⟩ := H.rep.node_inj _ _ _ _ _ h6 h10
      rw [ih h3 h7]

omit [DecidableEq ι] in
/-- Between calls the way of a key in the trie is the way its hashes lead in memory. -/
theorem TableAt.down_of_onPath (H : TableAt C s) (hc : Complete s) {T : Trie RemotePtr K V}
    {m : K → Option V} {st : ℕ → Status (Op K V) (Option V)} (hsim : SimAt C s T m st) {key : K}
    {p : RemotePtr} {d : ℕ} (hp : OnPath (bucketOf C.toIhtParams) C.root T key p d) :
    s.heap.down C.root (hashes C.toIhtParams key (d - 1)) = some p := by
  induction hp with
  | root => rfl
  | @child p q d hp hs ih =>
    have h1 := hp.one_le
    obtain ⟨d, rfl⟩ : ∃ n, d = n + 1 := ⟨d - 1, by omega⟩
    simp only [Nat.add_sub_cancel] at ih ⊢
    have hhas := hsim.heap.has p (bucketOf C.toIhtParams key (d + 1)) (by rw [hs]; simp)
    have hlock : (s.heap.bucket p (bucketOf C.toIhtParams key (d + 1))).lock = pUnlocked := by
      rcases hsim.heap.lock _ _ hhas with h2 | ⟨-, h2⟩ | ⟨h2, -⟩
      · exact absurd h2 (H.unlocked hc _ _)
      · exact absurd hs (h2 q)
      · exact h2
    have hnode := (hsim.bucket p (bucketOf C.toIhtParams key (d + 1))).1 hlock
    rw [hs, Slot.node.injEq] at hnode
    rw [hashes_succ, down_snoc, ih, Option.bind_some, Heap.into, if_pos hlock, hnode]

omit [DecidableEq ι] in
/-- An unlocked bucket with an E-List holds that leaf in the trie. -/
theorem TableAt.leaf (H : TableAt C s) (hc : Complete s) {T : Trie RemotePtr K V}
    {m : K → Option V} {st : ℕ → Status (Op K V) (Option V)} (hsim : SimAt C s T m st)
    {p : RemotePtr} {b : ℕ} {e : List (K × V)} (hl : (s.heap.bucket p b).lock = eUnlocked)
    (he : s.heap.elist (s.heap.bucket p b).base = some e) :
    T.slot p b = .leaf (s.heap.bucket p b).base ∧ T.elems (s.heap.bucket p b).base = e := by
  have hslot : T.slot p b = .leaf (s.heap.bucket p b).base := by
    have hbase := (hsim.bucket p b).2.2.2 (H.unlocked hc p b)
    rcases hs : T.slot p b with _ | e' | q
    · rw [hs] at hbase
      rw [hbase, slotPtr, H.typed.null.1] at he
      cases he
    · rw [hbase, hs]
      rfl
    · rcases hsim.heap.lock p b (hsim.heap.has p b (by rw [hs]; simp)) with h1 | ⟨-, h1⟩ | ⟨h1, -⟩
      · exact absurd h1 (H.unlocked hc p b)
      · exact absurd hs (h1 q)
      · rw [hl] at h1
        exact absurd h1 eUnlocked_ne_pUnlocked
  refine ⟨hslot, ?_⟩
  have h1 := (hsim.heap.leaf p b _ hslot).2
  rw [he, Option.some.injEq] at h1
  exact h1.symm

omit [DecidableEq ι] in
/-- Between calls each pair is on the way of its key. -/
theorem TableAt.way (H : TableAt C s) (hc : Complete s) {ns : List ℕ} {b i : ℕ} {x : K × V}
    (hx : s.heap.StoredAt C.root ns b i x) :
    ns ++ [b] = hashes C.toIhtParams x.1 (ns.length + 1) := by
  obtain ⟨T, m, st, hsim⟩ := H.seq.sim
  obtain ⟨p, e, h1, h2, h3, h4⟩ := hx
  obtain ⟨h5, h6⟩ := H.leaf hc hsim h2 h3
  obtain ⟨d, h7, h8⟩ := hsim.rep.placed p b _ h5 x (by rw [h6]; exact List.mem_of_getElem? h4)
  have h9 := H.down_of_onPath hc hsim h7
  obtain rfl := hsim.down_unique h9 h1
  rw [hashes_length, hashes_succ, Nat.sub_add_cancel h7.one_le, h8]

omit [DecidableEq ι] in
theorem TableAt.not_below (H : TableAt C s) (hc : Complete s) {ns ns' : List ℕ} {b b' i i' : ℕ}
    {x x' : K × V} (hx : s.heap.StoredAt C.root ns b i x)
    (hx' : s.heap.StoredAt C.root ns' b' i' x') (hk : x.1 = x'.1) : ns'.length ≤ ns.length := by
  by_contra hlt
  obtain ⟨hns, hb⟩ := hashes_of_way (H.way hc hx)
  obtain ⟨hns', -⟩ := hashes_of_way (H.way hc hx')
  obtain ⟨p, e, h1, h2, -⟩ := hx
  obtain ⟨p', e', h3, -⟩ := hx'
  rw [hns', ← hk] at h3
  obtain ⟨q, h4, h5⟩ := down_hashes_lt h3 (Nat.lt_of_not_le hlt)
  rw [← hns, h1, Option.some.injEq] at h4
  rw [← hb, ← h4, h2] at h5
  exact absurd h5 eUnlocked_ne_pUnlocked

omit [DecidableEq ι] in
theorem TableAt.once (H : TableAt C s) (hc : Complete s) {ns ns' : List ℕ} {b b' i i' : ℕ}
    {x x' : K × V} (hx : s.heap.StoredAt C.root ns b i x)
    (hx' : s.heap.StoredAt C.root ns' b' i' x') (hk : x.1 = x'.1) :
    ns = ns' ∧ b = b' ∧ i = i' := by
  have hlen : ns.length = ns'.length :=
    le_antisymm (H.not_below hc hx' hx hk.symm) (H.not_below hc hx hx' hk)
  have hw := H.way hc hx
  rw [hk, hlen, ← H.way hc hx'] at hw
  obtain ⟨rfl, hb⟩ := List.append_inj' hw rfl
  obtain rfl := List.singleton_inj.1 hb
  obtain ⟨T, m, st, hsim⟩ := H.seq.sim
  obtain ⟨p, e, h1, h2, h3, h4⟩ := hx
  obtain ⟨p', e', h5, -, h6, h7⟩ := hx'
  rw [h1, Option.some.injEq] at h5
  rw [← h5, h3, Option.some.injEq] at h6
  rw [← h6] at h7
  obtain ⟨h8, h9⟩ := H.leaf hc hsim h2 h3
  have hnodup := hsim.rep.nodup p b _ h8
  rw [h9] at hnodup
  refine ⟨rfl, rfl, ?_⟩
  have hi : i < (e.map Prod.fst).length := by
    rw [List.length_map]
    exact (List.getElem?_eq_some_iff.1 h4).1
  refine (List.getElem?_inj hi hnodup).1 ?_
  rw [List.getElem?_map, List.getElem?_map, h4, h7, Option.map_some, Option.map_some, hk]

omit [DecidableEq ι] in
theorem TableAt.wf (H : TableAt C s) (hc : Complete s) :
    TableWf C.toIhtParams C.root s.heap where
  plist ns p hd := H.sizes.of_down hd
  bucket ns p b hd hhas := by
    obtain ⟨T, m, st, hsim⟩ := H.seq.sim
    have hbase := (hsim.bucket p b).2.2.2 (H.unlocked hc p b)
    rcases hsim.heap.lock p b hhas with h1 | ⟨h1, h2⟩ | ⟨h1, -⟩
    · exact absurd h1 (H.unlocked hc p b)
    · refine .inr ⟨h1, ?_⟩
      rcases hs : T.slot p b with _ | e | q
      · rw [hbase, hs, slotPtr]
        exact ⟨H.typed.null.2, .inl rfl⟩
      · obtain ⟨-, h3⟩ := hsim.heap.leaf p b e hs
        rw [hbase, hs, slotPtr]
        have h4 : s.heap.elist e ≠ none := by rw [h3]; simp
        exact ⟨H.typed.apart e h4, .inr h4⟩
      · exact absurd hs (h2 q)
    · exact .inl ⟨h1, H.sizes.down p b _ _ ⟨rfl, .inl h1⟩ (H.sizes.of_down hd)⟩
  room := H.room.lists
  way _ _ _ _ hx := H.way hc hx
  once _ _ _ _ _ _ _ _ hx hx' hk := H.once hc hx hx' hk

/-- The block that a step allocates. -/
def block (n : ℕ) : RemotePtr := .of 0 (.ofNat (64 * n))

/-- Pairs of keys whose buckets at the first two depths are 0 and 4, each in one bucket of the third
depth and in two of the fourth. -/
def pairs : List (ℕ × ℕ) :=
  [(633, 1496), (396, 619), (102, 291), (513, 691), (101, 581), (43, 310), (236, 716), (316, 734),
    (1038, 1086), (245, 451), (1135, 1175), (590, 660), (71, 368), (1146, 1289)]

end Table

end Rome
