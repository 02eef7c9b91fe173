import Rome.Proofs.IhtDescend

/-!
# The steps of an operation's function

With its bucket locked a client reads the E-List its snapshot names, and returns, writes it, links a
new one or rehashes it. A call that only read is taken when it reads, one that wrote when it writes,
and an insert into an empty bucket when it links its E-List. Rehashing leaves the map as it is.
-/

namespace Rome

open HashTrie Lin

variable {ι K V : Type*}

section Memory

variable {P : IhtParams K} {root : RemotePtr} {h : Heap K V} {T : Trie RemotePtr K V}
  {mv : RemotePtr → ℕ → Prop}

theorem HeapRel.alloc (H : HeapRel P root h mv T) {ptr : RemotePtr} (hf : h.elist ptr = none)
    (l : List (K × V)) : HeapRel P root (h.setElist ptr (some l)) mv T where
  len := H.len
  has := H.has
  base := H.base
  lock := H.lock
  leaf p b e hs := by
    obtain ⟨h1, h2⟩ := H.leaf p b e hs
    refine ⟨h1, ?_⟩
    have hne : e ≠ ptr := by
      rintro rfl
      exact H.ne_leaf hf p b hs
    simp only [Heap.setElist, Function.update_of_ne hne, h2]
  node := H.node

theorem HeapRel.store (H : HeapRel P root h mv T) {e : RemotePtr} {l : List (K × V)} :
    HeapRel P root (h.setElist e (some l)) mv (T.setElems e l) where
  len k p d hp := H.len k p d (onPath_setElems.1 hp)
  has := H.has
  base := H.base
  lock := H.lock
  leaf p b e' hs := by
    obtain ⟨h1, h2⟩ := H.leaf p b e' hs
    refine ⟨h1, ?_⟩
    by_cases he : e' = e
    · subst he
      simp [Heap.setElist]
    · simp [Heap.setElist, Function.update_of_ne he, h2]
  node := H.node

end Memory

variable [DecidableEq ι] [DecidableEq K] {C : IhtCfg ι K} {s : IhtState ι K V}
  {T : Trie RemotePtr K V} {m : K → Option V} {st : ℕ → Status (Op K V) (Option V)} {i : ι} {n : ℕ}
  {op : Op K V} {ctx : Ctx}

/-- A client with its bucket locked goes from one phase to another, changing its own memory only. -/
theorem SimAt.hold (H : SimAt C s T m st) (n : ℕ) (ctx : Ctx) {st' : ℕ → Status (Op K V) (Option V)}
    {ph : Phase K V} (hA : Atomic mapSpec (fun _ => none) s.hist m st')
    (hst : ∀ k, k ≠ n → st' k = st k)
    (hph : (s.client i).phase.held = some (ctx.parent, ctx.bucket)
      ∧ (s.client i).phase.moving = none ∧ (s.client i).phase.made = none
      ∧ (s.client i).phase.call = some n)
    (hph' : ph.held = some (ctx.parent, ctx.bucket) ∧ ph.moving = none ∧ ph.made = none
      ∧ ph.call = some n)
    (hP : PhaseRel C.toIhtParams C.root s.heap T st' ph) :
    SimAt C (s.put i { heap := s.heap, client := { s.client i with phase := ph } }) T m st' := by
  rw [IhtState.put_client]
  obtain ⟨h1, h2, h3, h4⟩ := hph
  obtain ⟨h1', h2', h3', h4'⟩ := hph'
  refine H.client hA (fun k hk => hst k ?_) (h1'.trans h1.symm) (h2'.trans h2.symm)
    (h3'.trans h3.symm) (h4'.trans h4.symm) hP
  rintro rfl
  exact hk h4

omit [DecidableEq ι] in
/-- An E-List that is made and not linked is allocated and in no bucket. -/
theorem SimAt.made_elist (H : SimAt C s T m st) {ptr : RemotePtr}
    (hi : (s.client i).phase.made = some ptr) :
    (∃ l, s.heap.elist ptr = some l) ∧ ∀ p b, T.slot p b ≠ .leaf ptr := by
  have hP := H.phase i
  rcases hc : (s.client i).phase with _ | _ | _ | _ | _ | _ | _ | ⟨k, op', ctx', ptr', status⟩ |
    _ | _ <;> simp only [hc, Phase.made, reduceCtorEq] at hi
  split_ifs at hi with hs
  obtain rfl := Option.some.inj hi
  rw [hc] at hP
  obtain ⟨-, -, -, ⟨-, -, -, ⟨v', -, h1⟩, h2⟩ | ⟨h1, -⟩⟩ := hP
  · exact ⟨⟨_, h1⟩, h2⟩
  · rw [hs] at h1
    exact absurd h1 eUnlocked_ne_pUnlocked

theorem SimAt.locked_null (H : SimAt C s T m st) (hph : (s.client i).phase = .locked n op ctx)
    (hb : (bucketAt ctx.curr.buckets ctx.bucket).base = .null) {r : Option V}
    (hr : apply C.toIhtParams op none = .finish r) :
    ∃ st', SimAt C (s.put i { heap := s.heap, client :=
      { s.client i with phase := .unlock n op ctx eUnlocked r } }) T m st' := by
  have hP := H.phase i
  rw [hph] at hP
  obtain ⟨⟨seen, hn, hseen⟩, hrel, -, -, hnode⟩ := hP
  have hop : op.isInsert = false ∧ r = none := by
    cases op <;> simp_all [apply, Op.isInsert, eq_comm]
  obtain rfl := hseen hop.1 (by rw [← hrel.bucket]; exact hb)
  refine ⟨_, H.hold n ctx (H.atomic.answer hn) (fun k hk => Function.update_of_ne hk _ _)
    (by rw [hph]; exact ⟨rfl, rfl, rfl, rfl⟩) ⟨rfl, rfl, rfl, rfl⟩ ⟨hrel, .inl ⟨rfl, ?_, hnode⟩⟩⟩
  rw [hop.2, Function.update_self]

theorem SimAt.locked_finish (H : SimAt C s T m st) (hph : (s.client i).phase = .locked n op ctx)
    {e : RemotePtr} (hs : T.slot ctx.parent ctx.bucket = .leaf e) {r : Option V}
    (hr : apply C.toIhtParams op (some (T.elems e)) = .finish r) :
    ∃ st', SimAt C (s.put i { heap := s.heap, client :=
      { s.client i with phase := .unlock n op ctx eUnlocked r } }) T m st' := by
  have hP := H.phase i
  rw [hph] at hP
  obtain ⟨⟨seen, hn, -⟩, hrel, -, -, hnode⟩ := hP
  have hm := H.rep.leaf op.key ctx.parent ctx.depth e hrel.rel.path
    (by rw [← hrel.bucket]; exact hs)
  have hspec := apply_some_finish (H.rep.nodup _ _ _ hs) hm hr
  have hA := H.atomic.take hn
  rw [hspec] at hA
  refine ⟨_, H.hold n ctx hA (fun k hk => Function.update_of_ne hk _ _)
    (by rw [hph]; exact ⟨rfl, rfl, rfl, rfl⟩) ⟨rfl, rfl, rfl, rfl⟩ ⟨hrel, .inl ⟨rfl, ?_, hnode⟩⟩⟩
  rw [Function.update_self]

/-- The function of an insert makes an E-List for an empty bucket. -/
theorem SimAt.locked_link (H : SimAt C s T m st) (hph : (s.client i).phase = .locked n op ctx)
    (hb : (bucketAt ctx.curr.buckets ctx.bucket).base = .null) {e : List (K × V)} {ptr : RemotePtr}
    (he : apply C.toIhtParams op none = .link e)
    (hptr : s.heap.allocatable (C.self i) [ptr] = true) :
    SimAt C (s.put i { heap := s.heap.setElist ptr (some e), client :=
      { s.client i with phase := .link n op ctx ptr eUnlocked } }) T m st := by
  have hP := H.phase i
  rw [hph] at hP
  obtain ⟨⟨seen, hn, -⟩, hrel, -, hempty, hnode⟩ := hP
  obtain ⟨-, v, hop, rfl⟩ := apply_link he
  have hins : op.isInsert = true := by
    rw [hop]
    rfl
  have hnew : ptr ≠ .null ∧ s.heap.elist ptr = none := by
    simp only [Heap.allocatable, List.all_cons, List.all_nil, Bool.and_eq_true, decide_eq_true_eq,
      Option.isNone_iff_eq_none] at hptr
    exact ⟨hptr.2.1.1.1.1, hptr.2.1.1.2⟩
  have hmade : ∀ j, (s.client j).phase.made ≠ some ptr := by
    intro j hj
    obtain ⟨⟨l, hl⟩, -⟩ := H.made_elist hj
    rw [hnew.2] at hl
    cases hl
  rw [IhtState.put_heap]
  refine H.step H.rep H.atomic ?_ ?_ ?_ (Trie.Le.refl T) (fun _ _ _ _ _ => ⟨rfl, rfl⟩)
    (fun _ _ _ _ _ _ _ => rfl) (fun j _ ptr' hj => ⟨?_, ?_, id⟩) (fun _ _ => rfl) fun k hk => ?_
  · refine (H.heap.alloc hnew.2 _).congr fun p b hm => moving_update (by rw [hph]; rfl) hm
  · exact H.lock.keep (fun _ _ => id) (fun _ _ => rfl)
      fun j => phase_update Phase.held (by rw [hph]; rfl) j
  · refine ⟨⟨seen, hn⟩, hrel, hins, .inl ⟨rfl, hempty hb hins, hnew.1, ⟨v, hop, ?_⟩,
      H.heap.ne_leaf hnew.2⟩⟩
    simp [Heap.setElist]
  · have hne : ptr' ≠ ptr := by
      rintro rfl
      exact hmade j hj
    simp only [Heap.setElist, Function.update_of_ne hne]
  · simp only [Phase.made, if_true, ne_eq, Option.some.injEq]
    rintro rfl
    exact hmade j hj
  · rw [hph]
    exact hk

omit [DecidableEq ι] in
/-- Another client's bucket is not this one's. -/
theorem SimAt.other (H : SimAt C s T m st) {j : ι} {p p' : RemotePtr} {b b' : ℕ} (hji : j ≠ i)
    (hi : (s.client i).phase.held = some (p, b)) (hj : (s.client j).phase.held = some (p', b')) :
    ¬ (p' = p ∧ b' = b) := by
  rintro ⟨rfl, rfl⟩
  exact hji (H.lock.excl j i _ _ hj hi)

theorem SimAt.write (H : SimAt C s T m st) {e : List (K × V)} {r : Option V}
    (hph : (s.client i).phase = .write n op ctx e r) :
    ∃ m' st', SimAt C (s.put i
      { heap := s.heap.setElist (bucketAt ctx.curr.buckets ctx.bucket).base (some e)
        client := { s.client i with phase := .unlock n op ctx eUnlocked r } })
      (T.setElems (bucketAt ctx.curr.buckets ctx.bucket).base e) m' st' := by
  have hP := H.phase i
  rw [hph] at hP
  obtain ⟨⟨seen, hn⟩, hrel, hs, happ⟩ := hP
  set b := (bucketAt ctx.curr.buckets ctx.bucket).base with hbdef
  have hheld : (s.client i).phase.held = some (ctx.parent, ctx.bucket) := by
    rw [hph]
    rfl
  have hs' : T.slot ctx.parent (bucketOf C.toIhtParams op.key ctx.depth) = .leaf b := by
    rw [← hrel.bucket]
    exact hs
  have hm := H.rep.leaf op.key ctx.parent ctx.depth b hrel.rel.path hs'
  obtain ⟨hnd, hframe, hspec⟩ := apply_some_write (H.rep.nodup _ _ _ hs) hm happ
  have hA := H.atomic.take hn
  rw [hspec] at hA
  have hbuckets : ∀ j, j ≠ i → ∀ p' b' e', (s.client j).phase.held = some (p', b') →
      T.slot p' b' = .leaf e' → e' ≠ b := by
    rintro j hji p' b' e' hj hs₁ rfl
    exact H.other hji hheld hj (H.rep.leaf_inj _ _ _ _ _ hs₁ hs)
  refine ⟨Function.update m op.key (e.lookup op.key), Function.update st n (.taken op r), ?_⟩
  rw [IhtState.put_heap]
  refine H.step (H.rep.store hrel.rel.path hs' hnd hframe) hA ?_ ?_ ?_ (Trie.le_setElems _ _)
    (fun _ _ _ _ _ => ⟨rfl, rfl⟩) (fun j hji p' b' e' hj hs₁ => ?_)
    (fun j _ ptr hj => ⟨?_, by simp [Phase.made], id⟩)
    (fun k hk => Function.update_of_ne ?_ _ _) fun k hk => ?_
  · exact H.heap.store.congr fun p b hm => moving_update (by rw [hph]; rfl) hm
  · exact H.lock.keep (fun _ _ => id) (fun _ _ => rfl)
      fun j => phase_update Phase.held (by rw [hph]; rfl) j
  · refine ⟨hrel.mono (Trie.le_setElems _ _), .inl ⟨rfl, Function.update_self _ _ _, ?_⟩⟩
    rw [Trie.setElems_slot, hs]
    simp
  · rw [Trie.setElems_elems, Function.update_of_ne (hbuckets j hji p' b' e' hj hs₁)]
  · have hne : ptr ≠ b := by
      rintro rfl
      exact (H.made_elist hj).2 _ _ hs
    simp only [Heap.setElist, Function.update_of_ne hne]
  · rintro rfl
    exact hk (by rw [hph]; rfl)
  · rw [hph]
    exact hk

section Link

variable {ptr : RemotePtr}

omit [DecidableEq ι] [DecidableEq K] in
/-- Writing a bucket's pointer leaves every lock as it is. -/
theorem lock_setBase {h : Heap K V} {p p' : RemotePtr} {b b' : ℕ} (hhas : h.Has p b) :
    ((h.setBucket p b { h.bucket p b with base := ptr }).bucket p' b').lock
      = (h.bucket p' b').lock := by
  by_cases hpb : p' = p ∧ b' = b
  · rw [hpb.1, hpb.2, Heap.bucket_setBucket_self hhas]
  · rw [Heap.bucket_setBucket_ne hpb]

theorem SimAt.link_elist (H : SimAt C s T m st)
    (hph : (s.client i).phase = .link n op ctx ptr eUnlocked) :
    ∃ v m' st', op = .insert op.key v
      ∧ SimAt C (s.put i (doWithLink s.heap (s.client i) n op ctx ptr eUnlocked))
        ((T.setElems ptr [(op.key, v)]).setSlot ctx.parent ctx.bucket (.leaf ptr)) m' st' := by
  have hP := H.phase i
  rw [hph] at hP
  obtain ⟨⟨seen, hn⟩, hrel, -, ⟨-, hs, hnull, ⟨v, hop, hl⟩, hnew⟩ | ⟨h1, -⟩⟩ := hP
  swap
  · exact absurd h1 eUnlocked_ne_pUnlocked
  have hheld : (s.client i).phase.held = some (ctx.parent, ctx.bucket) := by
    rw [hph]
    rfl
  have hlock := H.lock.held i _ _ hheld
  have hhas : s.heap.Has ctx.parent ctx.bucket := Heap.has_of_isLock (.inl hlock)
  have hs' : T.slot ctx.parent (bucketOf C.toIhtParams op.key ctx.depth) = .empty := by
    rw [← hrel.bucket]
    exact hs
  have hm := H.rep.empty op.key ctx.parent ctx.depth hrel.rel.path hs'
  have hspec : mapSpec m op = (Function.update m op.key (some v), none) := by
    have hins : ∀ k, m k = none →
        mapSpec m (.insert k v) = (Function.update m k (some v), none) := by
      intro k hk
      simp only [mapSpec, hk]
    conv_lhs => rw [hop]
    exact hins _ hm
  have hA := H.atomic.take hn
  rw [hspec] at hA
  have hrep := H.rep.fill (v := v) hrel.rel.path hs' hnew
  rw [← hrel.bucket] at hrep
  have hle : T.Le ((T.setElems ptr [(op.key, v)]).setSlot ctx.parent ctx.bucket (.leaf ptr)) :=
    @Trie.le_setSlot_leaf _ _ _ (T.setElems ptr [(op.key, v)]) _ _ _ _ hs
  refine ⟨v, Function.update m op.key (some v), Function.update st n (.taken op none), hop, ?_⟩
  simp only [doWithLink, eUnlocked_ne_pUnlocked, if_false]
  rw [IhtState.put_heap]
  refine H.step hrep hA ?_ ?_ ?_ hle (fun j hji p b hj => ?_) (fun j hji p b e hj he => ?_)
    (fun j hji ptr' hj => ⟨rfl, by simp [Phase.made], fun hno p b => ?_⟩)
    (fun k hk => Function.update_of_ne ?_ _ _) fun k hk => ?_
  · refine H.heap.setBucket hhas (fun k p d hp => ?_) (fun p b hpb => ?_) (fun p b _ hm => ?_)
      (fun _ => ?_) (.inl hlock) (fun p b e he => ?_) fun q hq => ?_
    · rwa [onPath_setSlot_leaf (by exact hs), onPath_setElems] at hp
    · rw [Trie.setSlot_slot_ne hpb, Trie.setElems_slot]
    · exact moving_update (by rw [hph]; simp [Phase.moving, eUnlocked_ne_pUnlocked]) hm
    · rw [Trie.setSlot_slot_self]
      rfl
    · rw [Trie.setSlot_elems, Trie.setElems_elems]
      by_cases hpb : p = ctx.parent ∧ b = ctx.bucket
      · rw [hpb.1, hpb.2, Trie.setSlot_slot_self] at he
        obtain rfl := Slot.leaf.inj he
        exact ⟨hnull, by rw [hl, Function.update_self]⟩
      · rw [Trie.setSlot_slot_ne hpb, Trie.setElems_slot] at he
        have hne : e ≠ ptr := by
          rintro rfl
          exact hnew p b he
        rw [Function.update_of_ne hne]
        exact H.heap.leaf p b e he
    · rw [Trie.setSlot_slot_self] at hq
      cases hq
  · refine H.lock.keep (fun p b hl => ?_) (fun w hw => ?_)
      fun j => phase_update Phase.held (by rw [hph]; rfl) j
    · rw [lock_setBase hhas]
      exact hl
    · rw [Trie.setSlot_slot_ne, Trie.setElems_slot]
      rintro ⟨h1, h2⟩
      exact H.lock.apart i w hw (by rw [hheld, h1, h2])
  · refine ⟨hrel.mono hle, .inl ⟨rfl, Function.update_self _ _ _, fun q => ?_⟩⟩
    rw [Trie.setSlot_slot_self]
    simp
  · have hpb := H.other hji hheld hj
    rw [Trie.setSlot_slot_ne hpb, Trie.setElems_slot, Heap.bucket_setBucket_ne hpb]
    exact ⟨rfl, rfl⟩
  · have hne : e ≠ ptr := by
      rintro rfl
      exact hnew p b he
    rw [Trie.setSlot_elems, Trie.setElems_elems, Function.update_of_ne hne]
  · have hne : ptr ≠ ptr' := by
      rintro rfl
      exact hji (H.made j i ptr hj (by rw [hph]; simp [Phase.made]))
    by_cases hpb : p = ctx.parent ∧ b = ctx.bucket
    · rw [hpb.1, hpb.2, Trie.setSlot_slot_self]
      simpa using hne
    · rw [Trie.setSlot_slot_ne hpb, Trie.setElems_slot]
      exact hno p b
  · rintro rfl
    exact hk (by rw [hph]; rfl)
  · rw [hph]
    exact hk

theorem SimAt.link_plist (H : SimAt C s T m st)
    (hph : (s.client i).phase = .link n op ctx ptr pUnlocked) :
    SimAt C (s.put i (doWithLink s.heap (s.client i) n op ctx ptr pUnlocked)) T m st := by
  have hP := H.phase i
  rw [hph] at hP
  obtain ⟨⟨seen, hn⟩, ⟨hrel, hbk⟩, hop, ⟨h1, -⟩ | ⟨-, hs, -⟩⟩ := hP
  · exact absurd h1 eUnlocked_ne_pUnlocked.symm
  have hheld : (s.client i).phase.held = some (ctx.parent, ctx.bucket) := by
    rw [hph]
    rfl
  have hlock := H.lock.held i _ _ hheld
  have hhas : s.heap.Has ctx.parent ctx.bucket := Heap.has_of_isLock (.inl hlock)
  simp only [doWithLink, if_true]
  rw [IhtState.put_heap]
  refine H.step H.rep H.atomic ?_ ?_ ?_ (Trie.Le.refl T) (fun j hji p b hj => ⟨rfl, ?_⟩)
    (fun _ _ _ _ _ _ _ => rfl) (fun _ _ _ _ => ⟨rfl, by simp [Phase.made], id⟩) (fun _ _ => rfl)
    fun k hk => ?_
  · refine H.heap.setBucket_self hhas (fun p b hpb => ?_) (fun _ => by rw [hs]; rfl) (.inl hlock)
    rintro ⟨j, hj⟩
    have hji : j ≠ i := by
      rintro rfl
      have := Phase.held_of_moving hj
      rw [hheld, Option.some.injEq, Prod.mk.injEq] at this
      exact hpb ⟨this.1.symm, this.2.symm⟩
    exact ⟨j, by rwa [Function.update_of_ne hji]⟩
  · refine H.lock.keep (fun p b hl => ?_) (fun _ _ => rfl)
      fun j => phase_update Phase.held (by rw [hph]; rfl) j
    rw [lock_setBase hhas]
    exact hl
  · have hlt : ctx.bucket < ctx.curr.buckets.length := by
      rw [hrel.length, hrel.count, hbk]
      exact bucketOf_lt _ _ _
    refine ⟨⟨⟨hrel.path, hrel.count, ?_, fun b hb => ?_, fun b hb => ?_⟩, hbk⟩,
      .inr ⟨rfl, ⟨seen, hn⟩, hop, ptr, hs⟩⟩
    · simp only [List.length_set]
      exact hrel.length
    · by_cases hbb : ctx.bucket = b
      · subst hbb
        simp only [bucketAt_set_self hlt]
        exact hs
      · simp only [bucketAt_set_ne hbb] at hb ⊢
        exact hrel.down b hb
    · by_cases hbb : ctx.bucket = b
      · subst hbb
        exact .inr (.inr ⟨ptr, hs⟩)
      · simp only [bucketAt_set_ne hbb] at hb ⊢
        exact hrel.up b hb
  · rw [Heap.bucket_setBucket_ne (H.other hji hheld hj)]
  · rw [hph]
    exact hk

end Link

end Rome
