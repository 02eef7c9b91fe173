import Rome.Proofs.IhtRehash
import Rome.Proofs.IhtDepth

/-!
# The table is linearizable while no snapshot hides an E-List from an insert

A client acts on the pointer its snapshot has, and the snapshot is older than the lock. A pointer to
an E-List or a P-List that a snapshot has is still good when the lock is taken; that a bucket was
empty need not be so any more. A reader may answer as of its snapshot. An insert must not: it would
link its E-List over another that was linked since, and with it lose every pair there
(`lostRun_hist`). Where that does not happen (`FreshLock`) every run is linearizable.
-/

namespace Rome

open HashTrie Lin Machine

variable {ι K V : Type*}

/-- The operation and the context of a client at the head of the loop. -/
def Phase.atHead : Phase K V → Option (Op K V × Ctx)
  | .head _ op ctx => some (op, ctx)
  | _ => none

/-- No insert takes the lock of a bucket that its snapshot has empty and that has an E-List. -/
def FreshLock (C : IhtCfg ι K) (s : IhtState ι K V) : IhtEvent ι K V → Prop
  | .step i _ => ∀ x ∈ (s.client i).phase.atHead,
    let b := levelHash C.toIhtParams x.1.key x.2.depth x.2.count
    x.1.isInsert = true → (bucketAt x.2.curr.buckets b).base = .null →
      (s.heap.bucket x.2.parent b).lock = eUnlocked → (s.heap.bucket x.2.parent b).base = .null
  | _ => True

instance (C : IhtCfg ι K) (s : IhtState ι K V) : (e : IhtEvent ι K V) → Decidable (FreshLock C s e)
  | .step i _ => inferInstanceAs (Decidable (∀ x ∈ (s.client i).phase.atHead, _))
  | .invoke _ _ => .isTrue trivial
  | .deliver _ => .isTrue trivial

section Sim

variable [DecidableEq ι] [DecidableEq K] {C : IhtCfg ι K} {s s' : IhtState ι K V}
  {T : Trie RemotePtr K V} {m : K → Option V} {st : ℕ → Status (Op K V) (Option V)} {i : ι} {n : ℕ}
  {op : Op K V} {ctx : Ctx}

omit [DecidableEq ι] in
theorem simAt_init (C : IhtCfg ι K) :
    SimAt C (ihtInit C : IhtState ι K V) Trie.init (fun _ => none) fun _ => .fresh where
  rep := represents_init
  atomic := .init
  heap := by
    have hbucket : ∀ p b, ((ihtInit C : IhtState ι K V).heap.bucket p b).base = .null := by
      intro p b
      by_cases hp : p = C.root
      · subst hp
        by_cases hb : b < C.plistSize * 1
        · simp [Heap.bucket, ihtInit, bucketAt_initPList C.toIhtParams hb]
        · simp [Heap.bucket, ihtInit, bucketAt, initPList, PlistPair.junk,
            show ¬ b < C.plistSize by omega]
      · simp [Heap.bucket, ihtInit, Function.update_of_ne hp, bucketAt, PlistPair.junk]
    refine ⟨inMemory_init ⟨initPList C.toIhtParams 1, by simp [ihtInit], ?_⟩,
      fun p b _ => hbucket p b, fun p b hh => ?_⟩
    · simp [initPList_length, C.buckets_one]
    · refine .inr (.inl ⟨?_, by simp [Trie.init]⟩)
      rw [(ihtInit_bucket hh).2]
  lock := ⟨locks_init C, by simp [ihtInit]⟩
  phase _ := trivial
  call := ⟨by simp [ihtInit, Phase.call], by simp [ihtInit, Phase.call], fun _ _ => rfl⟩
  made _ _ _ h := by simp [ihtInit, Phase.made] at h

theorem SimAt.head (H : SimAt C s T m st) (hr : Reads C s i)
    (hph : (s.client i).phase = .head n op ctx)
    (hok : ∀ fresh, FreshLock C s (.step i fresh)) :
    ∃ st', SimAt C (s.put i (doWithHead C i s.heap (s.client i) n op ctx)) T m st' := by
  by_cases hdown : (bucketAt ctx.curr.buckets
      (levelHash C.toIhtParams op.key ctx.depth ctx.count)).lock = pUnlocked
  · exact H.descend hr hph hdown
  have hP := H.phase i
  rw [hph] at hP
  obtain ⟨hseen, hrel⟩ := hP
  have hok' := hok []
  simp only [FreshLock, hph, Phase.atHead, Option.mem_def, Option.some.injEq, forall_eq'] at hok'
  generalize hb : levelHash C.toIhtParams op.key ctx.depth ctx.count = b at hdown hok'
  rw [doWithHead_stay hb.symm hdown]
  generalize ctx.path.set (ctx.depth - 1) (b : ℤ) = path
  simp only []
  have hseen' : ∃ seen, st n = .pending op seen
      ∧ Seen C.toIhtParams op { ctx with bucket := b, path := path } seen := by
    obtain ⟨seen, h1, h2⟩ := hseen
    exact ⟨seen, h1, fun h3 h4 => h2 h3 h4⟩
  have hrel' : CtxRel C.toIhtParams C.root T op.key { ctx with bucket := b, path := path } :=
    ⟨hrel.path, hrel.count, hrel.length, hrel.down, hrel.up⟩
  have hrefetch : PhaseRel C.toIhtParams C.root s.heap T st
      (.refetch n op { ctx with bucket := b, path := path }) := ⟨hseen', hrel'⟩
  have hhead : PhaseRel C.toIhtParams C.root s.heap T st
      (.head n op { ctx with bucket := b, path := path }) := ⟨hseen', hrel'⟩
  split_ifs with h1 h2
  · rw [IhtState.put_client]
    refine ⟨st, H.client H.atomic (fun _ _ => rfl) ?_ ?_ ?_ ?_ hrefetch⟩
    · simp only [hph, Phase.held]
    · simp only [hph, Phase.moving]
    · simp only [hph, Phase.made]
    · simp only [hph, Phase.call]
  · rw [IhtState.put_heap]
    exact ⟨st, H.acquire hph hb.symm hdown h2 fun h3 h4 => hok' h3 h4 h2⟩
  · rw [IhtState.put_client]
    refine ⟨st, H.client H.atomic (fun _ _ => rfl) ?_ ?_ ?_ ?_ hhead⟩
    · simp only [hph, Phase.held]
    · simp only [hph, Phase.moving]
    · simp only [hph, Phase.made]
    · simp only [hph, Phase.call]

theorem SimAt.locked (H : SimAt C s T m st) (hph : (s.client i).phase = .locked n op ctx)
    {fresh : List RemotePtr} {e : Effect K V}
    (he : doWithLocked C i s.heap (s.client i) n op ctx fresh = some e) :
    ∃ st', SimAt C (s.put i e) T m st' := by
  have hP := H.phase i
  rw [hph] at hP
  obtain ⟨⟨seen, hn, -⟩, hrel, hleaf, -, -⟩ := hP
  simp only [doWithLocked] at he
  by_cases hb : (bucketAt ctx.curr.buckets ctx.bucket).base = .null
  · simp only [hb, true_or, if_true] at he
    split at he
    · rename_i r hr
      obtain rfl := Option.some.inj he
      exact H.locked_null hph hb hr
    · rename_i l ptr hl
      split_ifs at he with ha
      obtain rfl := Option.some.inj he
      exact ⟨st, H.locked_link hph hb hl ha⟩
    · cases he
    · rename_i hw
      exact absurd hw apply_none_ne_write
    · rename_i hw
      exact absurd hw apply_none_ne_rehash
  · have hs := hleaf hb
    have hl := (H.heap.leaf _ _ _ hs).2
    simp only [hb, hl, Option.isSome_some, or_true, if_true, if_false] at he
    split at he
    · rename_i r hr
      obtain rfl := Option.some.inj he
      exact H.locked_finish hph hs hr
    · rename_i hr
      exact absurd (apply_link hr).1 (by simp)
    · cases he
    · rename_i l r hw
      obtain rfl := Option.some.inj he
      exact ⟨st, H.hold n ctx H.atomic (fun _ _ => rfl)
        (by rw [hph]; exact ⟨rfl, rfl, rfl, rfl⟩) ⟨rfl, rfl, rfl, rfl⟩ ⟨⟨seen, hn⟩, hrel, hs, hw⟩⟩
    · rename_i hw
      obtain rfl := Option.some.inj he
      have hop : op.isInsert = true := by
        cases op with
        | insert key value => rfl
        | contains key => simp [apply] at hw
        | remove key =>
          simp only [apply] at hw
          split at hw <;> cases hw
      exact ⟨st, H.hold n ctx H.atomic (fun _ _ => rfl)
        (by rw [hph]; exact ⟨rfl, rfl, rfl, rfl⟩) ⟨rfl, rfl, rfl, rfl⟩ ⟨⟨seen, hn⟩, hrel, hs, hop⟩⟩

theorem SimAt.stepClient (H : SimAt C s T m st) (hread : Reads C s i)
    {fresh : List RemotePtr} (hok : ∀ fresh, FreshLock C s (.step i fresh)) {e : Effect K V}
    (he : Rome.stepClient C i s.heap (s.client i) fresh = some e) :
    ∃ T' m' st', SimAt C (s.put i e) T' m' st' := by
  rcases hph : (s.client i).phase with _ | ⟨n, op⟩ | ⟨n, op, ctx⟩ | ⟨n, op, ctx⟩ | ⟨n, op, ctx⟩ |
    ⟨n, op, ctx, l, r⟩ | ⟨n, op, ctx⟩ | ⟨n, op, ctx, ptr, status⟩ | ⟨n, op, ctx, status, r⟩ |
    ⟨n, op, r⟩ <;> simp only [Rome.stepClient, hph, Option.some.injEq, reduceCtorEq] at he
  · subst he
    exact ⟨T, m, H.start hread hph⟩
  · split_ifs at he
    cases he
    exact ⟨T, m, H.head hread hph hok⟩
  · subst he
    exact ⟨T, m, H.refetch hph⟩
  · exact ⟨T, m, H.locked hph he⟩
  · subst he
    exact ⟨_, H.write hph⟩
  · split_ifs at he with ha
    obtain ⟨⟨h', p⟩, hr, rfl⟩ := Option.map_eq_some_iff.1 he
    obtain ⟨bs, c, -, -, hT'⟩ := H.rehash hph ha hr
    exact ⟨_, m, st, hT'⟩
  · subst he
    have hP := H.phase i
    rw [hph] at hP
    obtain ⟨-, -, -, ⟨rfl, -⟩ | ⟨rfl, -⟩⟩ := hP
    · obtain ⟨v, m', st', -, hT'⟩ := H.link_elist hph
      exact ⟨_, m', st', hT'⟩
    · exact ⟨T, m, st, H.link_plist hph⟩
  · subst he
    exact ⟨T, m, st, H.unlock hph⟩
  · subst he
    exact ⟨T, m, _, H.ret hph⟩

/-- Every event of the table keeps the trie, the locks and what the clients know. -/
theorem SimAt.ihtStep (H : SimAt C s T m st) {ev : IhtEvent ι K V}
    (hread : ∀ i fresh, ev = .step i fresh → Reads C s i) (hok : FreshLock C s ev)
    (hs : ihtStep C s ev = some s') :
    ∃ T' m' st', SimAt C s' T' m' st' := by
  cases ev with
  | invoke i op =>
    simp only [Rome.ihtStep] at hs
    split at hs
    · rename_i hph
      obtain rfl := Option.some.inj hs
      exact ⟨T, m, _, H.invoke hph⟩
    · cases hs
  | step i fresh =>
    obtain ⟨e, he, rfl⟩ := Option.map_eq_some_iff.1 hs
    exact H.stepClient (hread i fresh rfl) (fun _ => hok) he
  | deliver n =>
    simp only [Rome.ihtStep] at hs
    split at hs
    · cases hs
    · rename_i w hw
      obtain rfl := Option.some.inj hs
      exact ⟨T, m, st, H.deliver hw⟩

theorem run_simAt (hc : ∀ i, C.cacheDepth i = .none) {es : List (IhtEvent ι K V)}
    (hr : run (Rome.ihtStep C) (ihtInit C) es = some s)
    (hm : Meets (Rome.ihtStep C) (FreshLock C) (ihtInit C) es) :
    ∃ T m st, SimAt C s T m st := by
  refine run_inv (I := fun s => ∃ T m st, SimAt C s T m st) ?_ hr hm ⟨_, _, _, simAt_init C⟩
  rintro s ev s' ⟨T, m, st, H⟩ hok hs
  exact H.ihtStep (fun i _ _ => reads_none (hc i) s) hok hs

end Sim

section Lost

/-- An insert that returned nullopt is found by every later contains, until a remove of its key
takes effect: a remove that returned a value, or has not returned, and neither returned before the
insert was called nor was called after the contains returned. -/
def NeverLost (h : List (Event ℕ (Op K V) (Option V))) : Prop :=
  ∀ i j k v r, .inv i (.insert k v) ∈ h → .res i none ∈ h → .inv j (.contains k) ∈ h →
    .res j r ∈ h → Precedes h i j →
    (∀ l, .inv l (.remove k) ∈ h → .res l none ∈ h ∨ Precedes h l i ∨ Precedes h j l) → r = some v

variable [DecidableEq K] {m m' : K → Option V} {k : K} {v : V}

theorem mapSpec_insert_none {value : V} (h : (mapSpec m (.insert k value)).2 = none) :
    (mapSpec m (.insert k value)).1 k = some value := by
  simp only [mapSpec] at h ⊢
  split at h
  · simp
  · cases h

/-- Only a remove that returns a value takes a key out. -/
theorem mapSpec_keeps (op : Op K V) (hm : m k = some v)
    (hop : op = .remove k → (mapSpec m op).2 = none) : (mapSpec m op).1 k = some v := by
  cases op with
  | contains key => exact hm
  | insert key value =>
    simp only [mapSpec]
    split
    · rename_i hkey
      have hne : k ≠ key := by
        rintro rfl
        rw [hm] at hkey
        cases hkey
      simp only [Function.update_of_ne hne, hm]
    · exact hm
  | remove key =>
    have hne : k ≠ key := by
      rintro rfl
      have := hop rfl
      simp [mapSpec, hm] at this
    simp only [mapSpec, Function.update_of_ne hne, hm]

/-- What calls without an effective remove of a key keep. -/
theorem legal_keeps : ∀ {l : List (ℕ × Op K V × Option V)} {m m' : K → Option V},
    Legal mapSpec m l m' → m k = some v → (∀ x ∈ l, x.2.1 = .remove k → x.2.2 = none) →
    m' k = some v
  | [], m, m', h, hm, _ => by rw [← h, hm]
  | x :: l, m, m', ⟨h1, h2⟩, hm, hl =>
    legal_keeps h2 (mapSpec_keeps x.2.1 hm fun hx => h1.trans (hl x List.mem_cons_self hx))
      fun y hy => hl y (List.mem_cons_of_mem _ hy)

theorem neverLost_of_linearizable {h : List (Event ℕ (Op K V) (Option V))}
    (hlin : Linearizable mapSpec (fun _ => none) h)
    (huniq : ∀ i o o', .inv i o ∈ h → .inv i o' ∈ h → o = o') : NeverLost h := by
  rintro i j k v r hi hri hj hrj hij hrem
  obtain ⟨l, ⟨m, hleg⟩, hn, hinv, hres, hw⟩ := hlin
  obtain ⟨oi, hil⟩ := hres i none hri
  obtain rfl := huniq i _ _ hi (hinv _ hil)
  obtain ⟨oj, hjl⟩ := hres j r hrj
  obtain rfl := huniq j _ _ hj (hinv _ hjl)
  obtain ⟨l₁, l₂, rfl⟩ := List.append_of_mem hil
  have hjl₂ : (j, Op.contains k, r) ∈ l₂ := by
    rcases List.mem_append.1 hjl with hjl | hjl
    · exact absurd hij ((List.pairwise_append.1 hw).2.2 _ hjl _ List.mem_cons_self)
    · rcases List.mem_cons.1 hjl with hjl | hjl
      · simp at hjl
      · exact hjl
  obtain ⟨l₃, l₄, rfl⟩ := List.append_of_mem hjl₂
  obtain ⟨m₁, -, h1, h2⟩ := legal_append.1 hleg
  obtain ⟨m₂, h3, h4, -⟩ := legal_append.1 h2
  have hfound : m₂ k = some v := by
    refine legal_keeps h3 (mapSpec_insert_none h1) fun x hx hop => ?_
    have hw₂ := (List.pairwise_append.1 hw).2.1
    have hxi := (List.pairwise_cons.1 hw₂).1 x (by simp [hx])
    have hjx := (List.pairwise_append.1 (List.pairwise_cons.1 hw₂).2).2.2 x hx _ List.mem_cons_self
    have hxl : x ∈ l₁ ++ (i, Op.insert k v, none) :: (l₃ ++ (j, Op.contains k, r) :: l₄) := by
      simp [hx]
    rcases hrem x.1 (hop ▸ hinv x hxl) with h5 | h5 | h5
    · obtain ⟨o, ho⟩ := hres x.1 none h5
      have := List.inj_on_of_nodup_map hn hxl ho rfl
      rw [this]
    · exact absurd h5 hxi
    · exact absurd h5 hjx
  simp only [mapSpec, hfound] at h4
  exact h4.symm

end Lost

section Main

variable [DecidableEq ι] [DecidableEq K]

/-- Every run in which no insert takes the lock of a bucket that its snapshot wrongly has empty, and
no E-List of a P-List at depth 8 is rehashed, is linearizable, and loses no insert. -/
theorem iht_linearizable (C : IhtCfg ι K) (hc : ∀ i, C.cacheDepth i = .none)
    (as : List (TableEvent ι K V)) (s : IhtState ι K V)
    (hr : run (tableStep C) (ihtInit C) as = some s)
    (hm : Meets (tableStep C) (onDefined (FreshLock C)) (ihtInit C) as)
    (hsh : Meets (tableStep C) (onDefined Shallow) (ihtInit C) as) :
    Linearizable mapSpec (fun _ => none) s.hist ∧ NeverLost s.hist := by
  obtain ⟨es, rfl, hr, -⟩ := run_shallow_init hr hsh
  obtain ⟨T, m, st, H⟩ := run_simAt hc hr ((meets_inl es).1 hm)
  have hlin := H.atomic.linearizable
  exact ⟨hlin, neverLost_of_linearizable hlin fun i o o' => H.atomic.inv_unique⟩

end Main

section Runs

/-- Two clients, on nodes 0 and 1, of a table on node 0 with one pair to an E-List. -/
def twoClients : IhtCfg Bool ℕ where
  toIhtParams := smallTable
  root := .of 0 64
  root_ne := smallRoot_ne
  self i := if i then 1 else 0
  cacheDepth _ := .none

/-- An insert of client `i` into an empty bucket, from the lock on. -/
def linkSteps (i : Bool) (ptr : RemotePtr) : List (IhtEvent Bool ℕ ℕ) :=
  [.step i [], .step i [ptr], .step i [], .step i [], .deliver 0, .step i []]

/-- A contains of client `i`, whose bucket is in the root. -/
def containsSteps (i : Bool) (key : ℕ) : List (IhtEvent Bool ℕ ℕ) :=
  [.invoke i (.contains key), .step i [], .step i [], .step i [], .step i [], .deliver 0,
    .step i []]

/-- Each client inserts, one after the other, and the first looks its key up. -/
def keptRun : List (IhtEvent Bool ℕ ℕ) :=
  .invoke false (.insert 0 10) :: .step false [] :: linkSteps false (.of 0 128)
    ++ .invoke true (.insert 1 20) :: .step true [] :: linkSteps true (.of 1 128)
    ++ containsSteps false 0

theorem iht_linearizable_keptRun : ∃ s,
    run (tableStep twoClients) (ihtInit twoClients) (keptRun.map .inl) = some s
    ∧ Linearizable mapSpec (fun _ => none) s.hist ∧ NeverLost s.hist := by
  obtain ⟨s, hs⟩ := Option.isSome_iff_exists.1
    (show (run (ihtStep twoClients) (ihtInit twoClients) keptRun).isSome by decide +kernel)
  have hr := (run_tableStep keptRun).trans hs
  exact ⟨s, hr, iht_linearizable twoClients (fun _ => rfl) (keptRun.map .inl) s hr
    ((meets_inl keptRun).2 (by decide +kernel)) ((meets_inl keptRun).2 (by decide +kernel))⟩

/-- Client 1 reads the root, client 0 inserts the key 0, client 1 links an E-List with the key 2 in
the same bucket, and client 0 looks its key up. -/
def lostRun : List (IhtEvent Bool ℕ ℕ) :=
  .invoke true (.insert 2 20) :: .step true []
    :: .invoke false (.insert 0 10) :: .step false [] :: linkSteps false (.of 0 128)
    ++ linkSteps true (.of 1 128) ++ containsSteps false 0

theorem lostRun_hist : (run (ihtStep twoClients) (ihtInit twoClients) lostRun).map IhtState.hist
    = some [.inv 0 (.insert 2 20), .inv 1 (.insert 0 10), .res 1 none, .res 0 none,
        .inv 2 (.contains 0), .res 2 none] := by
  decide +kernel

/-- The insert of the key 0 is lost. -/
theorem lostRun_not_linearizable : ∃ s,
    run (tableStep twoClients) (ihtInit twoClients) (lostRun.map .inl) = some s
      ∧ ¬ NeverLost s.hist ∧ ¬ Linearizable mapSpec (fun _ => none) s.hist := by
  obtain ⟨s, hs, hh⟩ := Option.map_eq_some_iff.1 lostRun_hist
  have hlost : ¬ NeverLost s.hist := by
    intro hn
    rw [hh] at hn
    have := hn 1 2 0 10 none (by simp) (by simp) (by simp) (by simp)
      ⟨[.inv 0 (.insert 2 20), .inv 1 (.insert 0 10)],
        [.res 0 none, .inv 2 (.contains 0), .res 2 none], none, rfl, .contains 0, by simp⟩ (by simp)
    simp at this
  refine ⟨s, (run_tableStep lostRun).trans hs, hlost,
    fun hlin => hlost (neverLost_of_linearizable hlin ?_)⟩
  rw [hh]
  intro i o o' ho ho'
  simp only [List.mem_cons, Event.inv.injEq, reduceCtorEq, List.not_mem_nil, or_false, false_or]
    at ho ho'
  rcases ho with ⟨rfl, rfl⟩ | ⟨rfl, rfl⟩ | ⟨rfl, rfl⟩ <;> simpa [eq_comm] using ho'

end Runs

end Rome
