import Rome.IhtLocal
import Rome.Proofs.IhtApply

/-!
# The memory of the local table as a hash trie

Between two iterations of a call no bucket is locked, and each shows what it holds: nothing, an
E-List or a P-List (`bucketFor`). `remove` leaves the E-List without its pair. `rehash` spreads the
pairs of an E-List over a P-List of twice the buckets, by the level and bucket count of the parent.
-/

namespace Rome.Carumap

open HashTrie

variable {K V : Type*}

/-- The number of buckets of a P-List at depth `d`. -/
def Params.buckets (P : Params K) (d : ℕ) : ℕ := P.plistSize * 2 ^ (d - 1)

theorem Params.buckets_one (P : Params K) : P.buckets 1 = P.plistSize := by
  simp [Params.buckets]

theorem Params.buckets_succ (P : Params K) {d : ℕ} (hd : 1 ≤ d) :
    P.buckets (d + 1) = P.buckets d * 2 := by
  obtain ⟨n, rfl⟩ : ∃ n, d = n + 1 := ⟨d - 1, by omega⟩
  simp only [Params.buckets, Nat.add_sub_cancel, Nat.pow_succ, Nat.mul_assoc]

theorem Params.buckets_pos (P : Params K) (d : ℕ) : 0 < P.buckets d :=
  Nat.mul_pos P.plistSize_pos (Nat.two_pow_pos _)

/-- The bucket a call for `k` takes at depth `d`. -/
def bucketOf (P : Params K) (k : K) (d : ℕ) : ℕ := levelHash P k (d + 1) (P.buckets d)

theorem bucketOf_lt (P : Params K) (k : K) (d : ℕ) : bucketOf P k d < P.buckets d :=
  Nat.mod_lt _ (P.buckets_pos d)

section Buckets

variable {b b' : ℕ} {x y : Bucket} {h : Heap K V} {p p' : ℕ}

theorem bucketAt_makePList {size : ℕ} (hb : b < size) :
    bucketAt (makePList size) b = ⟨0, .eUnlocked⟩ := by
  simp [bucketAt, makePList, hb]

/-- The bucket `b` of the P-List `p` exists. -/
def Heap.Has (h : Heap K V) (p b : ℕ) : Prop := ∃ bs, h.plist p = some bs ∧ b < bs.length

theorem Heap.bucket_setBucket_self (hb : h.Has p b) : (h.setBucket p b x).bucket p b = x :=
  Nodes.get_set_self hb

theorem Heap.bucket_setBucket_ne (hne : ¬ (p' = p ∧ b' = b)) :
    (h.setBucket p b x).bucket p' b' = h.bucket p' b' :=
  Nodes.get_set_ne hne

theorem Heap.plist_setBucket (hb : h.Has p b) :
    (∀ bs, h.plist p' = some bs →
      ∃ bs', (h.setBucket p b x).plist p' = some bs' ∧ bs'.length = bs.length)
      ∧ ∀ bs', (h.setBucket p b x).plist p' = some bs' →
        ∃ bs, h.plist p' = some bs ∧ bs'.length = bs.length := by
  refine ⟨fun _ h1 => Nodes.set_some h1, fun _ h1 => ?_⟩
  obtain ⟨bs, h2, h3⟩ := Nodes.of_set_some hb h1
  exact ⟨bs, h2, h3.symm⟩

theorem Heap.has_setBucket (hb : h.Has p b) : (h.setBucket p b x).Has p' b' ↔ h.Has p' b' :=
  Nodes.has_set hb

theorem Heap.setBucket_setBucket : (h.setBucket p b x).setBucket p b y = h.setBucket p b y :=
  congrArg (Heap.mk h.elist) Nodes.set_set

/-- A lock and a pointer written to a bucket just written. -/
theorem Heap.setLock_setBucket (hb : h.Has p b) (l : LockState) :
    (h.setBucket p b x).setLock p b l = h.setBucket p b { x with lock := l } := by
  rw [setLock, bucket_setBucket_self hb, setBucket_setBucket]

theorem Heap.setBase_setBucket (hb : h.Has p b) (q : ℕ) :
    (h.setBucket p b x).setBase p b q = h.setBucket p b { x with base := q } := by
  rw [setBase, bucket_setBucket_self hb, setBucket_setBucket]

theorem Heap.setElist_setBucket (e : ℕ) (l : Option (List (K × V))) :
    (h.setBucket p b x).setElist e l = (h.setElist e l).setBucket p b x := rfl

/-- At first the buckets are those of the root, and free. -/
theorem init_bucket {P : Params K} (hb : (init P : State K V).heap.Has p b) :
    p = P.root ∧ (init P : State K V).heap.bucket p b = ⟨0, .eUnlocked⟩ := by
  obtain ⟨bs, h1, h2⟩ := hb
  have hp : p = P.root := by
    by_contra hne
    simp [init, Function.update_of_ne hne] at h1
  subst hp
  simp only [init, Function.update_self, Option.some.injEq] at h1
  subst h1
  rw [makePList, List.length_replicate] at h2
  refine ⟨rfl, ?_⟩
  simp [Heap.bucket, init, bucketAt_makePList h2]

end Buckets

/-- The bucket of memory that shows what a bucket of the trie holds. -/
def bucketFor : Slot ℕ → Bucket
  | .empty => ⟨0, .eUnlocked⟩
  | .leaf e => ⟨e, .eUnlocked⟩
  | .node q => ⟨q, .pUnlocked⟩

/-- How the memory shows the trie between two iterations. -/
structure HeapRel (P : Params K) (h : Heap K V) (T : Trie ℕ K V) : Prop extends
    InMemory (bucketOf P) P.root 0 P.buckets h.elist h.plist T where
  bucket : ∀ p b, h.Has p b → h.bucket p b = bucketFor (T.slot p b)

section HeapRel

variable {P : Params K} {h : Heap K V} {T : Trie ℕ K V} {p b : ℕ}

theorem HeapRel.has_of_path (H : HeapRel P h T) {k : K} {d : ℕ}
    (hp : OnPath (bucketOf P) P.root T k p d) : h.Has p (bucketOf P k d) :=
  InMemory.has_of_path H.toInMemory (bucketOf_lt P k d) hp

/-- The memory when one bucket is written, and the trie changes there and in its leaves only. -/
theorem HeapRel.setBucket {U : Trie ℕ K V} (H : HeapRel P h T) (hb : h.Has p b)
    {E : ℕ → Option (List (K × V))}
    (hpath : ∀ k p d, OnPath (bucketOf P) P.root U k p d → OnPath (bucketOf P) P.root T k p d)
    (hslot : ∀ p' b', ¬ (p' = p ∧ b' = b) → U.slot p' b' = T.slot p' b')
    (hleaf : ∀ p b e, U.slot p b = .leaf e → e ≠ 0 ∧ E e = some (U.elems e))
    (hnode : ∀ q, U.slot p b = .node q → T.slot p b = .node q) :
    HeapRel P (Heap.setBucket { h with elist := E } p b (bucketFor (U.slot p b))) U where
  toInMemory := H.toInMemory.setBucket hb hpath hslot hleaf hnode
  bucket p' b' hh := by
    have hb' : Heap.Has { h with elist := E } p b := hb
    by_cases hpb : p' = p ∧ b' = b
    · rw [hpb.1, hpb.2, Heap.bucket_setBucket_self hb']
    · rw [Heap.bucket_setBucket_ne hpb, hslot p' b' hpb]
      exact H.bucket p' b' ((Heap.has_setBucket hb').1 hh)

/-- The memory when a bucket is locked and unlocked. -/
theorem HeapRel.same (H : HeapRel P h T) (hb : h.Has p b) :
    HeapRel P (h.setBucket p b (bucketFor (T.slot p b))) T :=
  H.setBucket hb (fun _ _ _ => id) (fun _ _ _ => rfl) H.leaf fun _ => id

end HeapRel

section Remove

variable [DecidableEq K]

theorem removeFrom_spec (key : K) (e : List (K × V)) : ∀ (rest l₀ : List (K × V)),
    (rest.lookup key = none ∧ removeFrom key e l₀.length rest = none)
      ∨ ∃ v l₁ l₂, rest = l₁ ++ (key, v) :: l₂ ∧ rest.lookup key = some v
        ∧ removeFrom key e l₀.length rest = some (v,
          (if 1 < e.length then e.set (l₀ ++ l₁).length (e.getLastD (key, v)) else e).dropLast)
  | [], _ => .inl ⟨rfl, rfl⟩
  | kv :: rest, l₀ => by
    rw [removeFrom, List.lookup_cons]
    by_cases hk : kv.1 = key
    · subst hk
      exact .inr ⟨kv.2, [], rest, rfl, by simp, by simp⟩
    · rw [if_neg hk, beq_eq_false_iff_ne.2 (Ne.symm hk)]
      have := removeFrom_spec key e rest (l₀ ++ [kv])
      simp only [List.length_append, List.length_cons, List.length_nil, Nat.zero_add] at this
      rcases this with ⟨h1, h2⟩ | ⟨v, l₁, l₂, h1, h2, h3⟩
      · exact .inl ⟨h1, h2⟩
      · refine .inr ⟨v, kv :: l₁, l₂, by rw [h1]; rfl, h2, ?_⟩
        have hlen : l₀.length + 1 + l₁.length = (l₀ ++ kv :: l₁).length := by
          simp only [List.length_append, List.length_cons]
          omega
        rw [h3, hlen]

/-- `remove` finds what a lookup does, and leaves the E-List without that pair, in another order. -/
theorem removeFrom_perm (key : K) (e : List (K × V)) :
    (e.lookup key = none ∧ removeFrom key e 0 e = none)
      ∨ ∃ v e', e.lookup key = some v ∧ removeFrom key e 0 e = some (v, e')
        ∧ e.Perm ((key, v) :: e') := by
  rcases removeFrom_spec key e e [] with h | ⟨v, l₁, l₂, h1, h2, h3⟩
  · exact .inl h
  · obtain ⟨l₃, h4, h5⟩ := set_dropLast_perm l₁ l₂ (key, v)
    rw [← h1] at h4
    simp only [List.nil_append, List.length_nil, h4] at h3
    refine .inr ⟨v, l₁ ++ l₃, h2, h3, ?_⟩
    rw [h1]
    exact List.perm_middle.trans ((h5.symm.append_left l₁).cons _)

end Remove

section Rehash

/-- A bucket points to an E-List by its `base`. -/
def bucketPointing : Pointing ℕ Bucket where
  nil := 0
  junk := ⟨0, .eLocked⟩
  base := Bucket.base
  point x e := { x with base := e }
  Free x := x.lock = .eUnlocked
  base_junk := rfl
  base_point _ _ := rfl
  free_point _ _ h := h

variable {P : Params K} {level count : ℕ} {h₀ h h' : Heap K V} {bs bs' : List Bucket}
  {blocks rest : List ℕ} {src : List (K × V)} {x : K × V}

/-- The new P-List `bs` and its E-Lists when the pairs `src` have been put there. -/
structure Rehashed (P : Params K) (level count : ℕ) (h₀ : Heap K V) (blocks rest : List ℕ)
    (src : List (K × V)) (h : Heap K V) (bs : List Bucket) : Prop extends
    Filled bucketPointing (fun k => levelHash P k level count) (count * 2) h₀.elist blocks rest src
      h.elist bs where
  plist : h.plist = h₀.plist

/-- Every bucket of the new P-List is free. -/
theorem Rehashed.lock (H : Rehashed P level count h₀ blocks rest src h bs) {b : ℕ}
    (hb : b < count * 2) : (bucketAt bs b).lock = .eUnlocked :=
  H.free b hb

theorem rehashed_init : Rehashed P level count h₀ blocks blocks [] h₀ (makePList (count * 2)) := by
  refine ⟨filled_init (by simp [makePList]) fun b hb => ?_, rfl⟩
  have hb' := bucketAt_makePList hb
  exact ⟨congrArg Bucket.base hb', congrArg Bucket.lock hb'⟩

theorem levelHash_lt_new (hc : 0 < count) (k : K) : levelHash P k level count < count * 2 := by
  have : levelHash P k level count < count := Nat.mod_lt _ hc
  omega

/-- The loop of `rehash` spreads the pairs, and touches no P-List. -/
theorem rehashLoop_eq : ∀ (src : List (K × V)) (fresh : List ℕ) (h : Heap K V) (bs : List Bucket),
    rehashLoop P level count src fresh h bs
      = (spreadLoop bucketPointing (fun k => levelHash P k level count) src fresh h.elist bs).map
        fun x => (⟨x.1, h.plist⟩, x.2)
  | [], _, _, _ => rfl
  | x :: src, fresh, h, bs => by
    unfold rehashLoop spreadLoop
    simp only []
    split_ifs with h1 h2 h2
    · rcases fresh with _ | ⟨e, fresh⟩
      · rfl
      · exact rehashLoop_eq src fresh _ _
    · exact absurd h1 h2
    · exact absurd h2 h1
    · exact rehashLoop_eq src fresh _ bs

theorem rehashLoop_eq_some {fresh : List ℕ} :
    rehashLoop P level count src fresh h bs = some (h', bs') ↔
      spreadLoop bucketPointing (fun k => levelHash P k level count) src fresh h.elist bs
        = some (h'.elist, bs') ∧ h'.plist = h.plist := by
  rw [rehashLoop_eq, Option.map_eq_some_iff]
  constructor
  · rintro ⟨⟨L, bs''⟩, h1, h2⟩
    obtain ⟨rfl, rfl⟩ := Prod.mk.inj h2
    exact ⟨h1, rfl⟩
  · rintro ⟨h1, h2⟩
    exact ⟨_, h1, by rw [← h2]⟩

theorem Heap.unused {fresh : List ℕ} (ha : h.allocatable fresh = true) :
    Unused 0 h.elist h.plist fresh := by
  simp only [Heap.allocatable, Bool.and_eq_true, List.all_eq_true, decide_eq_true_eq,
    Option.isNone_iff_eq_none] at ha
  refine ⟨ha.1, fun p hp => ?_⟩
  obtain ⟨⟨h1, h2⟩, h3⟩ := ha.2 p hp
  exact ⟨h1, h2, h3⟩

/-- What can be allocated while a bucket is locked can be before. -/
theorem Heap.unused_setBucket {p b : ℕ} {y : Bucket} {fresh : List ℕ} (hb : h.Has p b)
    (ha : (h.setBucket p b y).allocatable fresh = true) : Unused 0 h.elist h.plist fresh :=
  (Unused.set_iff hb).1 (Heap.unused ha)

/-- What `rehash` does to the memory. -/
theorem rehash_spec {parent pdepth pidx newP : ℕ} {fresh : List ℕ} (hc : 0 < count)
    (hsrc : h.elist (h.bucket parent pidx).base = some src) (ha : h.allocatable fresh = true)
    (hr : rehash P h parent count pdepth pidx fresh = some (h', newP)) :
    ∃ blocks rest h₁ bs, fresh = newP :: blocks
      ∧ Rehashed P (pdepth + 1) count h blocks rest src h₁ bs
      ∧ h' = (h₁.setPlist newP bs).setElist (h.bucket parent pidx).base none := by
  rcases fresh with _ | ⟨p, blocks⟩
  · simp [rehash] at hr
  have hfree := (Heap.unused ha).tail
  simp only [rehash, hsrc] at hr
  split at hr
  swap
  · cases hr
  rename_i h₁ bs hl
  obtain ⟨hl, hplist⟩ := rehashLoop_eq_some.1 hl
  obtain ⟨rest, hF⟩ := spreadLoop_spec (levelHash_lt_new hc) hfree.nil_notMem hfree.nodup
    rehashed_init.toFilled hl
  simp only [Option.some.injEq, Prod.mk.injEq] at hr
  obtain ⟨rfl, rfl⟩ := hr
  exact ⟨blocks, rest, h₁, bs, rfl, ⟨hF, hplist⟩, rfl⟩

end Rehash

section Replaced

variable {P : Params K} {h h₁ h₂ : Heap K V} {T : Trie ℕ K V} {p q b b' e newP d level count : ℕ}
  {blocks rest : List ℕ} {bs bs' : List Bucket} {src : List (K × V)} {lk : LockState}

/-- The P-List `bs` is at `newP`, where there was none, and the bucket `b` of `p` leads to it. -/
structure Replaced (h h₂ : Heap K V) (p b newP : ℕ) (bs : List Bucket) : Prop where
  has : h.Has p b
  none : h.plist newP = none
  old : ∀ q, q ≠ newP → h₂.plist q = (h.setBucket p b ⟨newP, .pUnlocked⟩).plist q
  new : h₂.plist newP = some bs

/-- The memory when the new P-List has taken the place of the E-List `e` in its bucket. -/
theorem Rehashed.replaced (hR : Rehashed P level count (h.setBucket p b ⟨e, lk⟩) blocks rest src h₁
      bs) (hhas : h.Has p b) (hnone : h.plist newP = none) :
    Replaced h (((h₁.setPlist newP bs).setElist e none).setBucket p b ⟨newP, .pUnlocked⟩) p b newP
      bs := by
  have hne : p ≠ newP := by
    rintro rfl
    obtain ⟨bs', h1, -⟩ := hhas
    rw [hnone] at h1
    cases h1
  refine ⟨hhas, hnone, fun q hq => ?_, ?_⟩
  · have hpl : ((h₁.setPlist newP bs).setElist e none).plist
        = Function.update (h.setBucket p b ⟨e, lk⟩).plist newP (some bs) := by
      rw [← hR.plist]
      rfl
    simp only [Heap.setBucket, Heap.setPlist] at hpl ⊢
    rw [hpl]
    by_cases hqp : q = p
    · subst hqp
      simp [Function.update_of_ne hne]
    · simp [Function.update_of_ne hqp, Function.update_of_ne hq]
  · simp [Heap.setBucket, Heap.setPlist, Heap.setElist, Function.update_of_ne hne.symm]

theorem Replaced.ne (H : Replaced h h₂ p b newP bs) (hq : h.Has q b') : q ≠ newP := by
  rintro rfl
  obtain ⟨bs', h1, -⟩ := hq
  rw [H.none] at h1
  cases h1

theorem Replaced.bucket_new (H : Replaced h h₂ p b newP bs) :
    h₂.bucket newP b' = bucketAt bs b' := by
  simp only [Heap.bucket, H.new, Option.getD_some]

theorem Replaced.bucket_self (H : Replaced h h₂ p b newP bs) :
    h₂.bucket p b = ⟨newP, .pUnlocked⟩ := by
  simp only [Heap.bucket, H.old _ (H.ne H.has)]
  exact Heap.bucket_setBucket_self H.has

theorem Replaced.bucket_old (H : Replaced h h₂ p b newP bs) (hq : q ≠ newP)
    (hpb : ¬ (q = p ∧ b' = b)) : h₂.bucket q b' = h.bucket q b' := by
  simp only [Heap.bucket, H.old _ hq]
  exact Heap.bucket_setBucket_ne hpb

theorem Replaced.has_old (H : Replaced h h₂ p b newP bs) (hq : q ≠ newP) :
    h₂.Has q b' ↔ h.Has q b' := by
  rw [← Heap.has_setBucket (x := ⟨newP, .pUnlocked⟩) H.has]
  simp only [Heap.Has, H.old q hq]

theorem Replaced.has_new (H : Replaced h h₂ p b newP bs) (hh : h₂.Has newP b') :
    b' < bs.length := by
  obtain ⟨bs', h1, h2⟩ := hh
  rw [H.new, Option.some.injEq] at h1
  rwa [h1]

/-- The P-Lists that were there keep their lengths. -/
theorem Replaced.plist_old (H : Replaced h h₂ p b newP bs) (hq : h.plist q = some bs') :
    ∃ bs'', h₂.plist q = some bs'' ∧ bs''.length = bs'.length := by
  have hne : q ≠ newP := by
    rintro rfl
    rw [H.none] at hq
    cases hq
  rw [H.old q hne]
  exact (Heap.plist_setBucket H.has).1 bs' hq

/-- The memory shows the trie with the P-List `newP` in the place of the E-List `e`. -/
theorem HeapRel.split {k₀ : K} (hS : Shape P.root T) (H : HeapRel P h T)
    (hp : OnPath (bucketOf P) P.root T k₀ p d) (hs : T.slot p (bucketOf P k₀ d) = .leaf e)
    (hR : Rehashed P (d + 1) (P.buckets d) (h.setBucket p (bucketOf P k₀ d) ⟨e, lk⟩) blocks rest
      (T.elems e) h₁ bs)
    (hnew : Unused 0 h.elist h.plist (newP :: blocks)) :
    HeapRel P (((h₁.setPlist newP bs).setElist e none).setBucket p (bucketOf P k₀ d)
        ⟨newP, .pUnlocked⟩)
      (T.split p (bucketOf P k₀ d) newP (fun b => slotOf 0 (bucketAt bs b).base)
        fun q => (h₁.elist q).getD []) := by
  have hhas := H.has_of_path hp
  have hnone := (hnew.free newP List.mem_cons_self).2.2
  have hF := hR.toFilled
  rw [← P.buckets_succ hp.one_le] at hF
  have hset : InMemory (bucketOf P) P.root 0 P.buckets h.elist h₁.plist T := by
    rw [hR.plist]
    exact H.toInMemory.same hhas
  have hfree : Unused 0 h.elist h₁.plist (newP :: blocks) := by
    rw [hR.plist]
    exact (Unused.set_iff hhas).2 hnew
  have hmem : InMemory (bucketOf P) P.root 0 P.buckets (Function.update h₁.elist e none)
      (Function.update h₁.plist newP (some bs)) (T.split p (bucketOf P k₀ d) newP
        (fun b => slotOf 0 (bucketAt bs b).base) fun q => (h₁.elist q).getD []) :=
    hset.split hS hp hs (bucketOf_lt P k₀ d) hF hfree fun a ha => Function.update_of_ne ha ..
  have hM := hR.replaced hhas hnone
  refine ⟨hmem.same (hmem.has p (bucketOf P k₀ d) (by simp [Trie.split])), fun p' b' hh => ?_⟩
  · simp only [Trie.split]
    split_ifs with h1 h2
    · rw [h1.1, h1.2]
      exact hM.bucket_self
    · subst h2
      have hb := hM.has_new hh
      rw [hR.length] at hb
      have hl := hR.lock hb
      rw [hM.bucket_new]
      simp only [slotOf]
      split_ifs with hbase
      · rw [bucketFor, ← hbase, ← hl]
      · rw [bucketFor, ← hl]
    · rw [hM.bucket_old h2 h1]
      exact H.bucket p' b' ((hM.has_old h2).1 hh)

end Replaced

end Rome.Carumap
