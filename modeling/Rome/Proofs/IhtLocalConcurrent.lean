import Rome.Lib.Callers
import Rome.Proofs.IhtLocalInv

/-!
# The local table is linearizable while rehashes place their keys

Each turn on the settled memory is an iteration of the table of one thread, so the calls, in the
order of the turns in which they are done, have the results that table gives them; and these are the
map's as long as the E-Lists that are rehashed have their keys placed where they are looked for.
-/

namespace Rome.Carumap

open HashTrie Lin Machine

variable {ι K V : Type*} [DecidableEq K]

/-- Each key of an E-List that a thread rehashes has the same bucket at its P-List's level and
bucket count and at the next. -/
def ThreadsPlaced (P : Params K) (s : Threads ι K V) : ThreadEvent ι K V → Prop
  | .step t _ _ =>
    match s.phase t with
    | .rehash _ f => ∀ l ∈ s.heap.elist (s.heap.bucket f.curr (f.bucket P)).base, ∀ kv ∈ l,
      levelHash P kv.1 (f.depth + 2) (f.count * 2) = levelHash P kv.1 (f.depth + 1) f.count
    | _ => True
  | .invoke _ _ => True

instance (P : Params K) (s : Threads ι K V) : (e : ThreadEvent ι K V) →
    Decidable (ThreadsPlaced P s e)
  | .step t _ _ => by unfold ThreadsPlaced; simp only []; split <;> infer_instance
  | .invoke _ _ => .isTrue trivial

/-- The operation a thread is in, with its result when the table has it done. -/
def Phase.caller (ph : Phase K V) : Option (ℕ × Op K V × Option (Option V)) :=
  ph.work.map fun x => (x.1, x.2.1.op, x.2.2)

/-- The settled memory `q` has done the calls `rs`, in this order. -/
structure LinInv [DecidableEq ι] (P : Params K) (s : Threads ι K V) (q : Heap K V)
    (rs : List (Call K V × Option V)) : Prop where
  inv : ThreadsInv P s q
  sim : ∃ T, SimAt P ⟨q, none, rs⟩ T
  callers : Callers mapSpec (fun _ => none) s.hist (mapAfter (fun _ => none) (rs.map Prod.fst))
    s.calls fun t => (s.phase t).caller

section Sim

variable {P : Params K} {q q' : Heap K V} {T : Trie ℕ K V} {rs : List (Call K V × Option V)}
  {f : Frame K V} {fresh : List ℕ} {r : Option V}

omit [DecidableEq K] in
/-- The way of a key in the settled memory is its way in the trie. -/
theorem KeyPath.onPath (H : HeapRel P q T) {k : K} {p d : ℕ} (hp : KeyPath P q k p d) :
    OnPath (bucketOf P) P.root T k p d := by
  induction hp with
  | root => exact .root
  | @child p d _ hl ih =>
    have hb := H.bucket _ _ (H.has_of_path ih)
    refine .child ih ?_
    cases hs : T.slot p (bucketOf P k d) with
    | empty => rw [hb, hs] at hl; cases hl
    | leaf e => rw [hb, hs] at hl; cases hl
    | node n =>
      rw [hb, hs]
      rfl

theorem SimAt.enter (H : SimAt P ⟨q, none, rs⟩ T) (hf : FrameOk P q f) :
    SimAt P ⟨q, some f, rs⟩ T :=
  ⟨H.rep, H.heap, fun f' hf' => by
    obtain rfl := Option.some.inj hf'
    exact ⟨hf.path.onPath H.heap, hf.count⟩, H.results⟩

theorem SimAt.leave (H : SimAt P ⟨q, some f, rs⟩ T) : SimAt P ⟨q, none, rs⟩ T :=
  ⟨H.rep, H.heap, by simp, H.results⟩

/-- A call that is done in its turn has the result the map gives it. -/
theorem SimAt.done (H : SimAt P ⟨q, none, rs⟩ T) (hf : FrameOk P q f)
    (hp : Placed P ⟨q, some f, rs⟩ (.iter fresh))
    (hi : Carumap.iter P ⟨q, some f, rs⟩ f fresh = some ⟨q', none, rs ++ [(f.call, r)]⟩) :
    (∃ T', SimAt P ⟨q', none, rs ++ [(f.call, r)]⟩ T')
      ∧ mapSpec (mapAfter (fun _ => none) (rs.map Prod.fst)) f.call.op
        = (mapAfter (fun _ => none) ((rs ++ [(f.call, r)]).map Prod.fst), r) := by
  obtain ⟨T', H'⟩ := (H.enter hf).iter rfl hp hi
  refine ⟨⟨T', H'⟩, ?_⟩
  have hres := H'.results
  simp only [List.map_append, List.map_cons, List.map_nil] at hres ⊢
  rw [mapResults_append, ← H.results] at hres
  have hr := (Prod.mk.inj (List.singleton_inj.1 (List.append_cancel_left hres))).2
  rw [mapAfter_append, hr]

/-- An iteration that rehashes. -/
theorem SimAt.grow (H : SimAt P ⟨q, none, rs⟩ T) (hf : FrameOk P q f)
    (hp : Placed P ⟨q, some f, rs⟩ (.iter fresh))
    (hi : Carumap.iter P ⟨q, some f, rs⟩ f fresh = some ⟨q', some f, rs⟩) :
    ∃ T', SimAt P ⟨q', none, rs⟩ T' := by
  obtain ⟨T', H'⟩ := (H.enter hf).iter rfl hp hi
  exact ⟨T', H'.leave⟩

/-- The keys of the E-List in the bucket are placed. -/
theorem placed_iter (hp : ∀ l, q.elist (q.bucket f.curr (f.bucket P)).base = some l → ∀ kv ∈ l,
      levelHash P kv.1 (f.depth + 2) (f.count * 2) = levelHash P kv.1 (f.depth + 1) f.count)
    (rs : List (Call K V × Option V)) : Placed P ⟨q, some f, rs⟩ (.iter fresh) := by
  obtain ⟨c, curr, depth, count⟩ := f
  rintro ⟨f', l⟩ hx
  unfold rehashes at hx
  split at hx
  swap
  · cases hx
  rename_i key val curr' depth' count' heq
  simp only [Option.some.injEq, Frame.mk.injEq] at heq
  obtain ⟨rfl, rfl, rfl, rfl⟩ := heq
  simp only [] at hx
  split_ifs at hx
  · obtain ⟨l', h1, h2⟩ := Option.bind_eq_some_iff.1 hx
    split_ifs at h2
    obtain ⟨rfl, rfl⟩ := Prod.mk.inj (Option.some.inj h2)
    exact hp l' h1
  · cases hx

end Sim

section Steps

variable [DecidableEq ι] {P : Params K} {s s' : Threads ι K V} {q : Heap K V}
  {rs : List (Call K V × Option V)} {t : ι}

omit [DecidableEq K] in
theorem caller_update (ph : ι → Phase K V) (t : ι) (ph' : Phase K V) :
    (fun t' => (Function.update ph t ph' t').caller)
      = Function.update (fun t' => (ph t').caller) t ph'.caller := by
  funext t'
  by_cases ht : t' = t
  · subst ht
    simp
  · simp [Function.update_of_ne ht]

theorem LinInv.init (P : Params K) : LinInv P (threadsInit P : Threads ι K V) (init P).heap [] :=
  ⟨threadsInv_init P, ⟨_, simAt_init P⟩, .init⟩

omit [DecidableEq K] in
theorem returns_eq_nil {ph : Phase K V} (h : ∀ n c r, ph ≠ .ret n c r) : ph.returns = [] := by
  cases ph with
  | ret n c r => exact absurd rfl (h n c r)
  | _ => rfl

/-- A step of a thread. -/
theorem LinInv.threadStep (H : LinInv P s q rs) {fresh : List ℕ} {spurious : Bool} {h' : Heap K V}
    {ph' : Phase K V} (hok : ThreadsPlaced P s (.step t fresh spurious))
    (hs : Carumap.threadStep P s.heap fresh spurious (s.phase t) = some (h', ph')) :
    ∃ q' rs', LinInv P ⟨h', Function.update s.phase t ph', s.calls,
      s.hist ++ (s.phase t).returns⟩ q' rs' := by
  obtain ⟨q', hS⟩ := H.inv.threadStep hs
  have hinv := hS.inv H.inv s.calls (s.hist ++ (s.phase t).returns)
  obtain ⟨T, hT⟩ := H.sim
  have hturn := hS.turn
  generalize hph : s.phase t = ph at hturn hs hok hinv
  cases hturn with
  | walk hw =>
    refine ⟨_, rs, hinv, H.sim, ?_⟩
    have hret : ph.returns = [] := returns_eq_nil fun n c r hr => by
      subst hr
      obtain ⟨-, rfl⟩ := Prod.mk.inj (Option.some.inj hs)
      cases hw
    have hsame : ph'.caller = (s.phase t).caller := by rw [Phase.caller, hw, hph, Phase.caller]
    rw [hret, List.append_nil, caller_update, hsame, Function.update_eq_self]
    exact H.callers
  | @done _ _ n f fresh' r _ hw hw' hf hp hi =>
    obtain ⟨hsim, hspec⟩ := hT.done hf (hp rs) (hi rs)
    refine ⟨q', rs ++ [(f.call, r)], hinv, hsim, ?_⟩
    have hret : ph.returns = [] := returns_eq_nil fun n c r hr => by
      subst hr
      cases hw
    have htake := H.callers.take (t := t) (k := n) (o := f.call.op) (by
      rw [hph, Phase.caller, hw]
      rfl)
    rw [hspec] at htake
    rw [hret, List.append_nil, caller_update, show ph'.caller = some (n, f.call.op, some r) by
      rw [Phase.caller, hw']
      rfl]
    exact htake
  | @grow n f fresh' p _ hf hi =>
    obtain ⟨hlock, hset⟩ := H.inv.settled.held t f.curr (f.bucket P) (by rw [hph]; rfl)
    rw [hph] at hset
    have hplaced : Placed P ⟨q, some f, rs⟩ (.iter fresh') := by
      refine placed_iter (fun l hl kv hkv => ?_) rs
      rw [hset, H.inv.settled.elist] at hl
      simp only [ThreadsPlaced, hph] at hok
      exact hok l hl kv hkv
    refine ⟨q', rs, hinv, hT.grow hf hplaced (hi rs), ?_⟩
    have hsame : (Phase.link n f p .pUnlocked none).caller = (s.phase t).caller := by
      rw [hph]
      rfl
    rw [show (Phase.rehash n f).returns = [] from rfl, List.append_nil, caller_update, hsame,
      Function.update_eq_self]
    exact H.callers
  | @ret n c r =>
    refine ⟨_, rs, hinv, H.sim, ?_⟩
    rw [caller_update]
    exact H.callers.respond (by rw [hph]; rfl)
  | call => cases hs

theorem LinInv.step (H : LinInv P s q rs) {ev : ThreadEvent ι K V} (hok : ThreadsPlaced P s ev)
    (hs : threadsStep P s ev = some s') : ∃ q' rs', LinInv P s' q' rs' := by
  cases ev with
  | invoke t c =>
    simp only [threadsStep] at hs
    split at hs
    · rename_i hph
      obtain rfl := Option.some.inj hs
      refine ⟨q, rs, (H.inv.invoke hph s.calls c).inv H.inv _ _, H.sim, ?_⟩
      rw [caller_update]
      exact H.callers.invoke c.op (by rw [hph]; rfl)
    · cases hs
  | step t fresh spurious =>
    obtain ⟨⟨h', ph'⟩, hstep, rfl⟩ := Option.map_eq_some_iff.1 hs
    exact H.threadStep hok hstep

/-- Threads on one table, in any interleaving in which each E-List that is rehashed has its keys
placed where they are looked for: the history of their calls is linearizable. -/
theorem carumap_linearizable (P : Params K) (es : List (ThreadEvent ι K V)) (s : Threads ι K V)
    (hr : run (threadsStep P) (threadsInit P) es = some s)
    (hm : Meets (threadsStep P) (ThreadsPlaced P) (threadsInit P) es) :
    Linearizable mapSpec (fun _ => none) s.hist := by
  obtain ⟨q, rs, H⟩ : ∃ q rs, LinInv P s q rs :=
    run_inv (I := fun s => ∃ q rs, LinInv P s q rs)
      (fun _ _ _ ⟨_, _, H⟩ hok hs => H.step hok hs) hr hm ⟨_, _, .init P⟩
  exact H.callers.linearizable

end Steps

theorem carumap_linearizable_twoInserts : ∃ s,
    run (threadsStep oneByOne) (threadsInit oneByOne) twoInserts = some s
    ∧ Linearizable mapSpec (fun _ => none) s.hist := by
  obtain ⟨s, hs⟩ := Option.isSome_iff_exists.1
    (show (run (threadsStep oneByOne) (threadsInit oneByOne) twoInserts).isSome by decide +kernel)
  exact ⟨s, hs, carumap_linearizable oneByOne twoInserts s hs (by decide +kernel)⟩

end Rome.Carumap
