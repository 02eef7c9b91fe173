import Rome.Proofs.IhtLocalHeap

/-!
# The local table and the finite map

`rehash` places each pair by the parent's level and bucket count, and a call that comes to the new
P-List looks by its own, one level further and with twice the buckets. A pair for which the two
differ is never found again. While they agree for every pair of the E-Lists that are rehashed
(`Placed`) the table is a hash trie and its results are those of the map.
-/

namespace Rome.Carumap

open HashTrie Machine

variable {K V : Type*}

/-- The calls `cs` with the results the map gives them, from `m` on. -/
def mapResults [DecidableEq K] : (K → Option V) → List (Call K V) → List (Call K V × Option V)
  | _, [] => []
  | m, c :: cs => (c, (mapSpec m c.op).2) :: mapResults (mapSpec m c.op).1 cs

/-- The E-List an iteration is about to rehash, with the call under way. -/
def rehashes [DecidableEq K] (P : Params K) (s : State K V) : Option (Frame K V × List (K × V)) :=
  match s.frame with
  | some ⟨.insert key val, curr, depth, count⟩ =>
    let bucket := s.heap.bucket curr (levelHash P key (depth + 1) count)
    if bucket.lock = .eUnlocked ∧ bucket.base ≠ 0 then
      (s.heap.elist bucket.base).bind fun e =>
        if search key e = none ∧ P.elistSize ≤ e.length then
          some (⟨.insert key val, curr, depth, count⟩, e)
        else none
    else none
  | _ => none

/-- Each key of an E-List that is rehashed has the same bucket at its P-List's level and bucket
count and at the next. -/
def Placed [DecidableEq K] (P : Params K) (s : State K V) : Event K V → Prop
  | .iter _ => ∀ x ∈ rehashes P s, ∀ kv ∈ x.2,
    levelHash P kv.1 (x.1.depth + 2) (x.1.count * 2) = levelHash P kv.1 (x.1.depth + 1) x.1.count
  | .call _ => True

instance [DecidableEq K] (P : Params K) (s : State K V) :
    (e : Event K V) → Decidable (Placed P s e)
  | .iter _ => inferInstanceAs (Decidable (∀ x ∈ rehashes P s, ∀ kv ∈ x.2, _ = _))
  | .call _ => .isTrue trivial

section Sim

variable [DecidableEq K]

/-- The map after the calls `cs`. -/
def mapAfter : (K → Option V) → List (Call K V) → K → Option V
  | m, [] => m
  | m, c :: cs => mapAfter (mapSpec m c.op).1 cs

theorem mapResults_append (c : Call K V) : ∀ (m : K → Option V) (cs : List (Call K V)),
    mapResults m (cs ++ [c]) = mapResults m cs ++ [(c, (mapSpec (mapAfter m cs) c.op).2)]
  | _, [] => rfl
  | m, c' :: cs => by
    simp only [List.cons_append, mapResults, mapAfter]
    rw [mapResults_append c _ cs]

theorem mapAfter_append (c : Call K V) : ∀ (m : K → Option V) (cs : List (Call K V)),
    mapAfter m (cs ++ [c]) = (mapSpec (mapAfter m cs) c.op).1
  | _, [] => rfl
  | _, _ :: cs => mapAfter_append c _ cs

/-- The state shows the trie `T`, which stores the map that the calls so far leave. -/
structure SimAt (P : Params K) (s : State K V) (T : Trie ℕ K V) : Prop where
  rep : Represents (bucketOf P) P.root T (mapAfter (fun _ => none) (s.results.map Prod.fst))
  heap : HeapRel P s.heap T
  frame : ∀ f ∈ s.frame, OnPath (bucketOf P) P.root T f.call.key f.curr f.depth
    ∧ f.count = P.buckets f.depth
  results : s.results = mapResults (fun _ => none) (s.results.map Prod.fst)

variable {P : Params K} {s s' : State K V} {T T' : Trie ℕ K V} {f : Frame K V}

theorem SimAt.ret (H : SimAt P s T) {h : Heap K V} {r : Option V}
    {m : K → Option V}
    (hspec : mapSpec (mapAfter (fun _ => none) (s.results.map Prod.fst)) f.call.op
      = (m, r)) (hrep : Represents (bucketOf P) P.root T' m) (hheap : HeapRel P h T') :
    SimAt P ⟨h, none, s.results ++ [(f.call, r)]⟩ T' where
  rep := by
    simp only [List.map_append, List.map_cons, List.map_nil]
    rw [mapAfter_append, hspec]
    exact hrep
  heap := hheap
  frame := by simp
  results := by
    simp only [List.map_append, List.map_cons, List.map_nil]
    rw [mapResults_append, hspec, ← H.results]

section Locked

variable {h : Heap K V} {r : Option (Option V)} {fresh : List ℕ} {b : ℕ}

theorem SimAt.locked_empty (H : SimAt P s T) (hf : s.frame = some f)
    (hb : b = bucketOf P f.call.key f.depth) (hs : T.slot f.curr b = .empty)
    (ha : (s.heap.setBucket f.curr b ⟨0, .eLocked⟩).allocatable fresh = true)
    (hl : locked P (s.heap.setBucket f.curr b ⟨0, .eLocked⟩) f.call f.curr f.depth f.count b fresh
      = some (h, r)) :
    ∃ v, r = some v ∧ ∃ T', SimAt P ⟨h, none, s.results ++ [(f.call, v)]⟩ T' := by
  obtain ⟨hpath, -⟩ := H.frame f hf
  have hhas : s.heap.Has f.curr b := hb ▸ H.heap.has_of_path hpath
  have hm := H.rep.empty f.call.key f.curr f.depth hpath (hb ▸ hs)
  have hsame := H.heap.same hhas
  rw [hs] at hsame
  rcases hc : f.call with key | key | ⟨key, val⟩ <;>
    simp only [hc, locked, get, remove, insert, Heap.bucket_setBucket_self hhas, if_true,
      Heap.setLock_setBucket hhas, Option.map_some, Option.some.injEq, Prod.mk.injEq] at hl hm
  · obtain ⟨rfl, rfl⟩ := hl
    refine ⟨none, rfl, T, hc ▸ H.ret ?_ H.rep hsame⟩
    rw [hc]
    simp only [Call.key] at hm
    simp [Call.op, mapSpec, hm]
  · obtain ⟨rfl, rfl⟩ := hl
    refine ⟨none, rfl, T, hc ▸ H.ret ?_ H.rep hsame⟩
    rw [hc]
    exact mapSpec_remove_none hm
  · split at hl
    swap
    · cases hl
    rename_i e
    rw [Heap.setElist_setBucket, Heap.setBase_setBucket (by exact hhas),
      Heap.setLock_setBucket (by exact hhas)] at hl
    simp only [Option.some.injEq, Prod.mk.injEq] at hl
    obtain ⟨rfl, rfl⟩ := hl
    obtain ⟨he, hnone, -⟩ := (Heap.unused_setBucket hhas ha).free e List.mem_cons_self
    have hfree := H.heap.ne_leaf hnone
    have hrep := H.rep.fill (v := val) hpath (hb ▸ hs) hfree
    rw [← hb] at hrep
    have hk : f.call.key = key := by rw [hc]; rfl
    rw [hk] at hrep
    refine ⟨none, rfl, (T.setElems e [(key, val)]).setSlot f.curr b (.leaf e),
      hc ▸ H.ret ?_ hrep ?_⟩
    · rw [hc]
      simp only [Call.key] at hm
      simp [Call.op, mapSpec, hm]
    · have hset := H.heap.setBucket (U := (T.setElems e [(key, val)]).setSlot f.curr b (.leaf e))
        (E := Function.update s.heap.elist e (some [(key, val)])) hhas (fun k p d hp => ?_)
        (fun p' b' hpb => ?_) (fun p' b' e' he' => ?_) fun q hq => ?_
      · rw [Trie.setSlot_slot_self] at hset
        exact hset
      · rwa [onPath_setSlot_leaf (by exact hs), onPath_setElems] at hp
      · rw [Trie.setSlot_slot_ne hpb, Trie.setElems_slot]
      · rw [Trie.setSlot_elems, Trie.setElems_elems]
        by_cases hee : e' = e
        · subst hee
          simp [he]
        · have hpb : ¬ (p' = f.curr ∧ b' = b) := by
            rintro ⟨rfl, rfl⟩
            rw [Trie.setSlot_slot_self] at he'
            exact hee (Slot.leaf.inj he').symm
          rw [Trie.setSlot_slot_ne hpb, Trie.setElems_slot] at he'
          rw [Function.update_of_ne hee, Function.update_of_ne hee]
          exact H.heap.leaf p' b' e' he'
      · rw [Trie.setSlot_slot_self] at hq
        cases hq

theorem SimAt.store (H : SimAt P s T) (hf : s.frame = some f)
    (hb : b = bucketOf P f.call.key f.depth) {e : ℕ} (hs : T.slot f.curr b = .leaf e)
    {l : List (K × V)} {v : Option V} (hn : (l.map Prod.fst).Nodup)
    (hl : ∀ k, k ≠ f.call.key → l.lookup k = (T.elems e).lookup k)
    (hspec : mapSpec (mapAfter (fun _ => none) (s.results.map Prod.fst)) f.call.op
      = (Function.update (mapAfter (fun _ => none) (s.results.map Prod.fst)) f.call.key
        (l.lookup f.call.key), v)) :
    SimAt P ⟨(s.heap.setElist e (some l)).setBucket f.curr b ⟨e, .eUnlocked⟩, none,
      s.results ++ [(f.call, v)]⟩ (T.setElems e l) := by
  obtain ⟨hpath, -⟩ := H.frame f hf
  have hhas : s.heap.Has f.curr b := hb ▸ H.heap.has_of_path hpath
  refine H.ret hspec (H.rep.store hpath (hb ▸ hs) hn hl) ?_
  have hset := H.heap.setBucket (U := T.setElems e l)
    (E := Function.update s.heap.elist e (some l)) hhas (fun k p d hp => onPath_setElems.1 hp)
    (fun p' b' _ => rfl) (fun p' b' e' he' => ?_) fun q hq => hq
  · rw [Trie.setElems_slot, hs] at hset
    exact hset
  · rw [Trie.setElems_slot] at he'
    obtain ⟨h1, h2⟩ := H.heap.leaf p' b' e' he'
    refine ⟨h1, ?_⟩
    by_cases hee : e' = e
    · subst hee
      simp
    · simp [Function.update_of_ne hee, h2]

/-- A full E-List whose keys are placed where they are looked for is rehashed. -/
theorem SimAt.rehash (H : SimAt P s T) (hf : s.frame = some f)
    (hb : b = bucketOf P f.call.key f.depth) {e : ℕ} (hs : T.slot f.curr b = .leaf e)
    (hplaced : ∀ kv ∈ T.elems e, levelHash P kv.1 (f.depth + 2) (f.count * 2)
      = levelHash P kv.1 (f.depth + 1) f.count)
    (ha : (s.heap.setBucket f.curr b ⟨e, .eLocked⟩).allocatable fresh = true) {p : ℕ}
    (hr : Carumap.rehash P (s.heap.setBucket f.curr b ⟨e, .eLocked⟩) f.curr f.count f.depth b fresh
      = some (h, p)) :
    ∃ T', SimAt P { s with heap := (h.setBase f.curr b p).setLock f.curr b .pUnlocked } T' := by
  obtain ⟨hpath, hcount⟩ := H.frame f hf
  have hhas : s.heap.Has f.curr b := hb ▸ H.heap.has_of_path hpath
  obtain ⟨he, helems⟩ := H.heap.leaf _ _ _ hs
  have hbase : ((s.heap.setBucket f.curr b ⟨e, .eLocked⟩).bucket f.curr b).base = e := by
    rw [Heap.bucket_setBucket_self hhas]
  rw [hcount] at hr hplaced
  obtain ⟨blocks, rest, h₁, bs, rfl, hR, rfl⟩ := rehash_spec (P.buckets_pos f.depth)
    (by rw [hbase]; exact helems) ha hr
  rw [hbase]
  have hnew := Heap.unused_setBucket hhas ha
  have hnone := (hnew.free p List.mem_cons_self).2.2
  have hM := hR.replaced hhas hnone
  have hhas' : ((h₁.setPlist p bs).setElist e none).Has f.curr b := by
    obtain ⟨bs', h1, h2⟩ := (Heap.has_setBucket (x := ⟨e, .eLocked⟩) hhas).2 hhas
    refine ⟨bs', ?_, h2⟩
    change Function.update h₁.plist p (some bs) f.curr = some bs'
    rw [Function.update_of_ne (hM.ne hhas), hR.plist]
    exact h1
  have hspread : Spread (bucketOf P) T e f.depth (fun b => slotOf 0 (bucketAt bs b).base)
      fun q => (h₁.elist q).getD [] := by
    refine H.heap.spread hR.toFilled (H.rep.nodup _ _ _ hs) hnew.tail (fun k => ?_) fun k hk => ?_
    · rw [← P.buckets_succ hpath.one_le]
      exact bucketOf_lt P k (f.depth + 1)
    · obtain ⟨kv, hkv, rfl⟩ := List.mem_map.1 hk
      rw [bucketOf, P.buckets_succ hpath.one_le]
      exact (hplaced kv hkv).symm
  have hle := Trie.le_split (s := fun b => slotOf 0 (bucketAt bs b).base)
    (c := fun q => (h₁.elist q).getD []) hs (q := p) fun b' => by
      by_contra hb'
      exact hM.ne (H.heap.has p b' hb') rfl
  refine ⟨T.split f.curr b p (fun b => slotOf 0 (bucketAt bs b).base)
    fun q => (h₁.elist q).getD [], ?_, ?_, fun f' hf' => ?_, H.results⟩
  · rw [hb]
    exact H.rep.split hpath (hb ▸ hs) hspread
      ⟨H.heap.ne_root f.call.key hnone, H.heap.ne_node hnone⟩
  · simp only [Heap.setBase, Heap.setLock_setBucket hhas']
    rw [hb] at hR hs ⊢
    exact H.heap.split H.rep.toShape hpath hs hR hnew
  · exact ⟨(H.frame f' hf').1.mono hle, (H.frame f' hf').2⟩

theorem SimAt.locked_leaf (H : SimAt P s T) (hf : s.frame = some f)
    (hb : b = bucketOf P f.call.key f.depth) {e : ℕ} (hs : T.slot f.curr b = .leaf e)
    (hplaced : Placed P s (.iter fresh))
    (ha : (s.heap.setBucket f.curr b ⟨e, .eLocked⟩).allocatable fresh = true)
    (hl : locked P (s.heap.setBucket f.curr b ⟨e, .eLocked⟩) f.call f.curr f.depth f.count b fresh
      = some (h, r)) :
    (∃ v, r = some v ∧ ∃ T', SimAt P ⟨h, none, s.results ++ [(f.call, v)]⟩ T')
      ∨ r = none ∧ ∃ T', SimAt P { s with heap := h } T' := by
  obtain ⟨hpath, hcount⟩ := H.frame f hf
  have hhas : s.heap.Has f.curr b := hb ▸ H.heap.has_of_path hpath
  obtain ⟨he, helems⟩ := H.heap.leaf _ _ _ hs
  have helems' : (s.heap.setBucket f.curr b ⟨e, .eLocked⟩).elist e = some (T.elems e) := helems
  have hn := H.rep.nodup _ _ _ hs
  have hm := H.rep.leaf f.call.key f.curr f.depth e hpath (hb ▸ hs)
  have hsame := H.heap.same hhas
  rw [hs] at hsame
  rcases hc : f.call with key | key | ⟨key, val⟩ <;>
    simp only [hc, locked, get, remove, insert, Heap.bucket_setBucket_self hhas, he, if_false,
      helems', search_eq, Heap.setLock_setBucket hhas, Option.map_some, Option.some.injEq,
      Prod.mk.injEq] at hl hm
  · obtain ⟨rfl, rfl⟩ := hl
    refine .inl ⟨_, rfl, T, hc ▸ H.ret ?_ H.rep hsame⟩
    rw [hc]
    simp only [Call.key] at hm
    simp [Call.op, mapSpec, hm]
  · rcases removeFrom_perm key (T.elems e) with ⟨h1, h2⟩ | ⟨v, e', h1, h2, hperm⟩
    · simp only [h2, Option.map_some, Option.some.injEq, Prod.mk.injEq] at hl
      obtain ⟨rfl, rfl⟩ := hl
      refine .inl ⟨none, rfl, T, hc ▸ H.ret ?_ H.rep hsame⟩
      rw [hc]
      exact mapSpec_remove_none (hm.trans h1)
    · simp only [h2, Option.map_some, Option.some.injEq, Prod.mk.injEq, Heap.setElist_setBucket]
        at hl
      rw [Heap.setLock_setBucket (by exact hhas)] at hl
      obtain ⟨rfl, rfl⟩ := hl
      obtain ⟨h3, h4, h5⟩ := lookup_of_perm_cons hn hperm
      refine .inl ⟨some v, rfl, _, hc ▸ H.store hf hb hs h3 (by rw [hc]; exact h5) ?_⟩
      rw [hc]
      simp only [Call.key] at hm
      simp [Call.op, Call.key, mapSpec, hm, h1, h4]
  · rcases hlook : (T.elems e).lookup key with _ | v
    · simp only [hlook] at hl
      by_cases hroom : (T.elems e).length < P.elistSize
      · simp only [hroom, if_true, Option.some.injEq, Prod.mk.injEq, Heap.setElist_setBucket] at hl
        rw [Heap.setLock_setBucket (by exact hhas)] at hl
        obtain ⟨rfl, rfl⟩ := hl
        obtain ⟨h3, h4, h5⟩ := lookup_append_pair val hn hlook
        refine .inl ⟨none, rfl, _, hc ▸ H.store hf hb hs h3 (by rw [hc]; exact h5) ?_⟩
        rw [hc]
        simp only [Call.key] at hm
        simp [Call.op, Call.key, mapSpec, hm, hlook, h4]
      · simp only [hroom, if_false] at hl
        obtain ⟨⟨h', p⟩, hr, hh⟩ := Option.map_eq_some_iff.1 hl
        simp only [Prod.mk.injEq] at hh
        obtain ⟨rfl, rfl⟩ := hh
        refine .inr ⟨rfl, H.rehash hf hb hs (fun kv hkv => ?_) ha hr⟩
        obtain ⟨c, curr, depth, count⟩ := f
        simp only [] at hc
        subst hc
        have hbk : s.heap.bucket curr (levelHash P key (depth + 1) count) = ⟨e, .eUnlocked⟩ := by
          have hb' : b = levelHash P key (depth + 1) count := by
            rw [hb, bucketOf, ← hcount]
            rfl
          rw [← hb', H.heap.bucket curr b hhas, hs]
          rfl
        refine hplaced (⟨.insert key val, curr, depth, count⟩, T.elems e) ?_ kv hkv
        simp [rehashes, hf, hbk, he, helems, search_eq, hlook, not_lt.1 hroom]
    · simp only [hlook, Option.some.injEq, Prod.mk.injEq] at hl
      obtain ⟨rfl, rfl⟩ := hl
      refine .inl ⟨some v, rfl, T, hc ▸ H.ret ?_ H.rep hsame⟩
      rw [hc]
      simp only [Call.key] at hm
      simp [Call.op, mapSpec, hm, hlook]

end Locked

theorem SimAt.iter (H : SimAt P s T) (hf : s.frame = some f) {fresh : List ℕ}
    (hplaced : Placed P s (.iter fresh)) (hs : iter P s f fresh = some s') :
    ∃ T', SimAt P s' T' := by
  obtain ⟨hpath, hcount⟩ := H.frame f hf
  have hb : levelHash P f.call.key (f.depth + 1) f.count = bucketOf P f.call.key f.depth := by
    rw [bucketOf, hcount]
  have hhas := H.heap.has_of_path hpath
  have hbk := H.heap.bucket _ _ hhas
  rcases hslot : T.slot f.curr (bucketOf P f.call.key f.depth) with _ | e | q
  · simp only [Carumap.iter, hb, acquire, hbk, hslot, bucketFor, Heap.setLock] at hs
    split_ifs at hs with ha
    split at hs
    · cases hs
    · rename_i h hl
      obtain ⟨v, hv, -⟩ := H.locked_empty hf rfl hslot ha hl
      cases hv
    · rename_i h r hl
      obtain rfl := Option.some.inj hs
      obtain ⟨v, hv, hT'⟩ := H.locked_empty hf rfl hslot ha hl
      exact Option.some.inj hv ▸ hT'
  · simp only [Carumap.iter, hb, acquire, hbk, hslot, bucketFor, Heap.setLock] at hs
    split_ifs at hs with ha
    split at hs
    · cases hs
    · rename_i h hl
      obtain rfl := Option.some.inj hs
      rcases H.locked_leaf hf rfl hslot hplaced ha hl with ⟨v, hv, -⟩ | ⟨-, hT'⟩
      · cases hv
      · exact hT'
    · rename_i h r hl
      obtain rfl := Option.some.inj hs
      rcases H.locked_leaf hf rfl hslot hplaced ha hl with ⟨v, hv, hT'⟩ | ⟨hr, -⟩
      · exact Option.some.inj hv ▸ hT'
      · cases hr
  · simp only [Carumap.iter, hb, acquire, hbk, hslot, bucketFor, Option.some.injEq] at hs
    subst hs
    refine ⟨T, H.rep, H.heap, fun f' hf' => ?_, H.results⟩
    obtain rfl := Option.some.inj hf'
    refine ⟨.child hpath hslot, ?_⟩
    rw [hcount, P.buckets_succ hpath.one_le]

theorem simAt_init (P : Params K) : SimAt P (init P : State K V) Trie.init where
  rep := represents_init
  heap := by
    refine ⟨inMemory_init ⟨makePList P.plistSize, by simp [init], ?_⟩, ?_⟩
    · simp [makePList, P.buckets_one]
    · intro p b hb
      rw [(init_bucket hb).2]
      rfl
  frame := by simp [init]
  results := rfl

theorem SimAt.step (H : SimAt P s T) {ev : Event K V} (hplaced : Placed P s ev)
    (hs : step P s ev = some s') : ∃ T', SimAt P s' T' := by
  cases ev with
  | call c =>
    simp only [Carumap.step] at hs
    split at hs
    swap
    · cases hs
    obtain rfl := Option.some.inj hs
    refine ⟨T, H.rep, H.heap, fun f hf => ?_, H.results⟩
    obtain rfl := Option.some.inj hf
    exact ⟨.root, P.buckets_one.symm⟩
  | iter fresh =>
    simp only [Carumap.step] at hs
    split at hs
    · cases hs
    · rename_i f hf
      exact H.iter hf hplaced hs

/-- The calls that returned, and the one under way, are those that were made. -/
theorem step_called {ev : Event K V} (hs : step P s ev = some s') :
    s'.results.map Prod.fst ++ (s'.frame.map Frame.call).toList
      = s.results.map Prod.fst ++ (s.frame.map Frame.call).toList ++ ev.called.toList := by
  cases ev with
  | call c =>
    simp only [Carumap.step] at hs
    split at hs
    swap
    · cases hs
    rename_i hf
    obtain rfl := Option.some.inj hs
    simp [hf, Event.called]
  | iter fresh =>
    simp only [Carumap.step] at hs
    split at hs
    · cases hs
    rename_i f hf
    simp only [Carumap.iter] at hs
    split at hs
    · cases hs
    · obtain rfl := Option.some.inj hs
      simp [hf, Event.called]
    · split_ifs at hs
      split at hs
      · cases hs
      · obtain rfl := Option.some.inj hs
        simp [hf, Event.called]
      · obtain rfl := Option.some.inj hs
        simp [hf, Event.called]

theorem run_called : ∀ {es : List (Event K V)} {s s' : State K V}, run (step P) s es = some s' →
    s'.results.map Prod.fst ++ (s'.frame.map Frame.call).toList
      = s.results.map Prod.fst ++ (s.frame.map Frame.call).toList ++ es.filterMap Event.called
  | [], s, s', hr => by
    obtain rfl := run_nil_some hr
    simp
  | ev :: es, s, s', hr => by
    obtain ⟨s₁, h1, h2⟩ := run_cons_some hr
    rw [run_called h2, step_called h1, List.append_assoc]
    congr 1
    rcases hev : ev.called with _ | c <;> simp [hev]

end Sim

section Main

variable [DecidableEq K]

/-- Every run in which each E-List that is rehashed has its keys placed where they are looked for:
the calls that returned are those made, with at most one under way, and have the results the map
gives. -/
theorem carumap_refines (P : Params K) (es : List (Event K V)) (s : State K V)
    (hr : run (step P) (init P) es = some s) (hm : Meets (step P) (Placed P) (init P) es) :
    es.filterMap Event.called = s.results.map Prod.fst ++ (s.frame.map Frame.call).toList
      ∧ s.results = mapResults (fun _ => none) (s.results.map Prod.fst) := by
  have hsim : ∃ T, SimAt P s T :=
    run_inv (I := fun s => ∃ T, SimAt P s T) (fun _ _ _ ⟨_, H⟩ hok hs => H.step hok hs) hr hm
      ⟨_, simAt_init P⟩
  obtain ⟨T, H⟩ := hsim
  exact ⟨by simpa [init] using (run_called hr).symm, H.results⟩

/-- One pair to an E-List, and a root of one bucket. -/
def oneByOne : Params ℕ where
  elistSize := 1
  plistSize := 1
  hash k := .ofNat k
  root := 64
  elistSize_pos := by decide
  plistSize_pos := by decide
  root_ne := by decide

/-- `k` is inserted, then `k'`, for which the E-List of `k` is rehashed, and `k` is looked up. -/
def rehashRun (k k' : ℕ) : List (Event ℕ ℕ) :=
  [.call (.insert k 10), .iter [128], .call (.insert k' 20), .iter [192, 256], .iter [],
    .iter [320], .call (.get k), .iter [], .iter []]

theorem carumap_refines_rehashRun : ∃ s,
    run (step oneByOne) (init oneByOne) (rehashRun 0 1) = some s
    ∧ s.results = mapResults (fun _ => none) (s.results.map Prod.fst) := by
  obtain ⟨s, hs⟩ := Option.isSome_iff_exists.1
    (show (run (step oneByOne) (init oneByOne) (rehashRun 0 1)).isSome by decide +kernel)
  exact ⟨s, hs, (carumap_refines oneByOne (rehashRun 0 1) s hs (by decide +kernel)).2⟩

/-- The key 1 is placed in the first of the new P-List's two buckets and looked for in the
second. -/
theorem rehashRun_unreachable : ∃ s, run (step oneByOne) (init oneByOne) (rehashRun 1 4) = some s
    ∧ s.results = [(.insert 1 10, none), (.insert 4 20, none), (.get 1, none)]
    ∧ s.results ≠ mapResults (fun _ => none) (s.results.map Prod.fst) := by
  have hrun : (run (step oneByOne) (init oneByOne) (rehashRun 1 4)).map State.results
      = some [(.insert 1 10, none), (.insert 4 20, none), (.get 1, none)] := by decide +kernel
  obtain ⟨s, hs, hres⟩ := Option.map_eq_some_iff.1 hrun
  refine ⟨s, hs, hres, ?_⟩
  rw [hres]
  decide

end Main

end Rome.Carumap
