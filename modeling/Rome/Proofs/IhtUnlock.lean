import Rome.IhtUnlock
import Rome.Proofs.IhtLock

/-!
# What the unlocks write

A client polls a completion of the node of a lock, that of its compare-and-swap, before it unlocks;
so an unlock before on the same node has been read by then. One on another node may not have been:
then the card reads a `temp_lock` that is zeroed already, or holds the status of the later unlock.
-/

namespace Rome

open Machine

section Unlock

variable {ι K V : Type*}

/-- Where a client is in an unlock, or that it is in none, with what holds of `temp_lock` then. -/
inductive Writing (temp : UInt64) (pending : List Posted) : List Verb → Prop
  | rest (h : ∀ p ∈ pending, temp = p.status) : Writing temp pending []
  | request (q : UInt64) (h : ∀ p ∈ pending, temp = p.status) : Writing temp pending [.complete q]
  | begin (w : Posted) (h : ∀ p ∈ pending, temp = p.status)
      (hnode : ∀ p ∈ pending, p.node ≠ w.node) : Writing temp pending (unlockVerbs w)
  | zeroed (w : Posted) (h : pending = []) : Writing temp pending [.assign w.status, .post w]
  | assigned (w : Posted) (h : pending = []) (ht : temp = w.status) : Writing temp pending [.post w]

theorem Writing.status {temp : UInt64} {pending : List Posted} {todo : List Verb}
    (h : Writing temp pending todo) : ∀ p ∈ pending, temp = p.status := by
  cases h with
  | rest h | request q h | begin w h => exact h
  | zeroed w h | assigned w h => simp [h]

theorem Writing.mono {temp : UInt64} {pending pending' : List Posted} {todo : List Verb}
    (h : Writing temp pending todo) (hsub : ∀ p ∈ pending', p ∈ pending) :
    Writing temp pending' todo := by
  cases h with
  | rest h => exact .rest fun p hp => h p (hsub p hp)
  | request q h => exact .request q fun p hp => h p (hsub p hp)
  | begin w h hnode =>
    exact .begin w (fun p hp => h p (hsub p hp)) fun p hp => hnode p (hsub p hp)
  | zeroed w h =>
    subst h
    exact .zeroed w (List.eq_nil_iff_forall_not_mem.2 fun p hp => by simpa using hsub p hp)
  | assigned w h ht =>
    subst h
    exact .assigned w (List.eq_nil_iff_forall_not_mem.2 fun p hp => by simpa using hsub p hp) ht

/-- Every unlock written wrote its status, and so far `temp_lock` is as each pending one needs
it. -/
structure UnlockInv (s : UnlockState K V) : Prop where
  written : ∀ x ∈ s.written, x.2 = x.1.status
  writing : Writing s.temp s.pending s.todo
  held : ∀ ptr b, s.client.phase.held = some (ptr, b) →
    s.todo = [.complete ptr.id] ∨ (∀ p ∈ s.pending, p.node ≠ ptr.id) ∧ ∀ w, .post w ∉ s.todo

theorem unlockInv_init (P : IhtParams K) (temp : UInt64) :
    UnlockInv (V := V) (unlockInit P temp) where
  written := by simp [unlockInit]
  writing := .rest (by simp [unlockInit])
  held := by simp [unlockInit, Phase.held]

variable {C : IhtCfg ι K} {i : ι} {s s' : UnlockState K V}

/-- A client gets a lock with a compare-and-swap on the node of the lock. -/
theorem doWithHead_acquire {h : Heap K V} {c : Client K V} {call : ℕ} {op : Op K V} {ctx : Ctx}
    {ptr : RemotePtr} {b : ℕ} (hph : c.phase = .head call op ctx)
    (hheld : (doWithHead C i h c call op ctx).client.phase.held = some (ptr, b)) :
    clientVerbs C i c = [.complete ptr.id] := by
  obtain ⟨n, hn⟩ : ∃ n, n = levelHash C.toIhtParams op.key ctx.depth ctx.count := ⟨_, rfl⟩
  by_cases hdown : (bucketAt ctx.curr.buckets n).lock = pUnlocked
  · rw [doWithHead_down hn hdown] at hheld
    cases hheld
  · have hptr : ptr = ctx.parent := by
      rw [doWithHead_stay hn hdown] at hheld
      simp only [] at hheld
      split_ifs at hheld
      · cases hheld
      · simp only [Phase.held, Option.some.injEq, Prod.mk.injEq] at hheld
        exact hheld.1.symm
      · cases hheld
    unfold clientVerbs
    simp only [hph]
    rw [← hn, if_neg hdown, hptr]

/-- The verbs of a step are those of an unlock of the lock that the client holds, or at most one
request. -/
theorem clientVerbs_cases (C : IhtCfg ι K) (i : ι) (c : Client K V) :
    (∃ call op ctx status result, c.phase = .unlock call op ctx status result ∧
      clientVerbs C i c = unlockVerbs ⟨ctx.parent, ctx.bucket, status⟩) ∨
      clientVerbs C i c = [] ∨ ∃ q, clientVerbs C i c = [.complete q] := by
  have hread : ∀ cached ptr, readVerbs cached ptr = [] ∨
      ∃ q, readVerbs cached ptr = [.complete q] := by
    intro cached ptr
    unfold readVerbs
    split_ifs
    · exact .inl rfl
    · exact .inr ⟨_, rfl⟩
  have hremote : ∀ self ptr, remoteVerbs self ptr = [] ∨
      ∃ q, remoteVerbs self ptr = [.complete q] := by
    intro self ptr
    unfold remoteVerbs
    split_ifs
    · exact .inl rfl
    · exact .inr ⟨_, rfl⟩
  unfold clientVerbs
  cases hph : c.phase with
  | idle | ret => exact .inr (.inl rfl)
  | start => exact .inr (hread _ _)
  | head call op ctx =>
    simp only []
    split_ifs
    · exact .inr (hread _ _)
    · exact .inr (.inr ⟨_, rfl⟩)
  | refetch => exact .inr (.inr ⟨_, rfl⟩)
  | locked =>
    simp only []
    split_ifs
    · exact .inr (.inl rfl)
    · exact .inr (hremote _ _)
  | write | rehash | link => exact .inr (hremote _ _)
  | unlock call op ctx status result => exact .inl ⟨call, op, ctx, status, result, rfl, rfl⟩

variable [DecidableEq K]

/-- A step keeps the lock that the client holds, gives it back, or gets one. -/
theorem stepClient_held {h : Heap K V} {c : Client K V} {fresh : List RemotePtr} {e : Effect K V}
    (hs : stepClient C i h c fresh = some e) {ptr : RemotePtr} {b : ℕ}
    (hheld : e.client.phase.held = some (ptr, b)) :
    c.phase.held = some (ptr, b) ∨ clientVerbs C i c = [.complete ptr.id] := by
  have H := stepClient_effect hs
  generalize e.posted = w at H
  cases H with
  | same hp hh => exact .inl (hh ▸ hheld)
  | grow hn hc hp hh => exact .inl (hh ▸ hheld)
  | link hh hc hp hh' => exact .inl (hh.trans (hh'.symm.trans hheld))
  | post hh hp hh' =>
    rw [hh'] at hheld
    cases hheld
  | acquire hl hh hp hh' =>
    rw [stepClient] at hs
    cases hph : c.phase with
    | head call op ctx =>
      simp only [hph] at hs
      split_ifs at hs
      cases hs
      exact .inr (doWithHead_acquire hph hheld)
    | idle => simp [hph] at hs
    | start call op | refetch call op ctx | ret call op result =>
      simp only [hph, Option.some.injEq] at hs
      subst hs
      cases hheld
    | _ =>
      rw [hph] at hh
      cases hh

/-- The client no longer holds the lock that it unlocks. -/
theorem stepClient_unlock {h : Heap K V} {c : Client K V} {fresh : List RemotePtr} {e : Effect K V}
    {call : ℕ} {op : Op K V} {ctx : Ctx} {status : UInt64} {result : Option V}
    (hph : c.phase = .unlock call op ctx status result)
    (hs : stepClient C i h c fresh = some e) : e.client.phase.held = none := by
  rw [stepClient] at hs
  simp only [hph, Option.some.injEq] at hs
  subst hs
  simp only [doWithUnlock]
  split_ifs <;> rfl

/-- When the client begins an unlock, no unlock of it on another node is pending. -/
def SameNode (s : UnlockState K V) : UnlockEvent K V → Prop
  | .verb =>
    match s.todo with
    | [.zero, .assign _, .post w] => ∀ p ∈ s.pending, p.node = w.node
    | _ => True
  | _ => True

instance (s : UnlockState K V) (e : UnlockEvent K V) : Decidable (SameNode s e) := by
  unfold SameNode
  split
  · split <;> infer_instance
  · infer_instance

theorem UnlockInv.step (H : UnlockInv s) {h : Heap K V} {fresh : List RemotePtr}
    (hs : unlockStep C i s (.step h fresh) = some s') : UnlockInv s' := by
  simp only [unlockStep] at hs
  split at hs
  · rename_i htodo
    obtain ⟨e, he, rfl⟩ := Option.map_eq_some_iff.1 hs
    have hfree : ∀ ptr b, s.client.phase.held = some (ptr, b) →
        ∀ p ∈ s.pending, p.node ≠ ptr.id := by
      intro ptr b hheld
      rcases H.held ptr b hheld with h1 | h1
      · simp [htodo] at h1
      · exact h1.1
    refine ⟨H.written, ?_, fun ptr b hheld => ?_⟩
    · rcases clientVerbs_cases C i s.client with ⟨_, _, ctx, status, _, hph, h1⟩ | h1 | ⟨q, h1⟩ <;>
        simp only [h1]
      · exact .begin _ H.writing.status (hfree ctx.parent ctx.bucket (by rw [hph]; rfl))
      · exact .rest H.writing.status
      · exact .request q H.writing.status
    · simp only [] at hheld ⊢
      rcases stepClient_held he hheld with h1 | h1
      · refine .inr ⟨hfree ptr b h1, fun w hw => ?_⟩
        rcases clientVerbs_cases C i s.client with ⟨_, _, ctx, status, _, hph, h2⟩ | h2 | ⟨q, h2⟩
        · rw [stepClient_unlock hph he] at hheld
          cases hheld
        · simp [h2] at hw
        · simp [h2] at hw
      · exact .inl h1
  · cases hs

theorem UnlockInv.verb (H : UnlockInv s) (hok : SameNode s .verb)
    (hs : unlockStep C i s .verb = some s') : UnlockInv s' := by
  have hwriting := H.writing
  simp only [unlockStep] at hs
  cases htodo : s.todo with
  | nil => simp [htodo] at hs
  | cons v vs =>
    rw [htodo] at hwriting
    cases hwriting with
    | request q h =>
      simp only [htodo] at hs
      split_ifs at hs with hnone
      obtain rfl := Option.some.inj hs
      refine ⟨H.written, .rest h, fun ptr b hheld => .inr ⟨?_, by simp⟩⟩
      rcases H.held ptr b hheld with h1 | h1
      · simp only [htodo, List.cons.injEq, Verb.complete.injEq, and_true] at h1
        intro p hp hnode
        exact hnone ⟨p, hp, hnode.trans h1.symm⟩
      · exact h1.1
    | begin w h hnode =>
      have hpending : s.pending = [] := by
        simp only [SameNode, htodo] at hok
        exact List.eq_nil_iff_forall_not_mem.2 fun p hp => hnode p hp (hok p hp)
      simp only [htodo, Option.some.injEq] at hs
      subst hs
      refine ⟨H.written, .zeroed w hpending, fun ptr b hheld => ?_⟩
      rcases H.held ptr b hheld with h1 | ⟨-, h1⟩
      · simp [htodo] at h1
      · exact absurd (by simp [htodo]) (h1 w)
    | zeroed w h =>
      simp only [htodo, Option.some.injEq] at hs
      subst hs
      refine ⟨H.written, .assigned w h rfl, fun ptr b hheld => ?_⟩
      rcases H.held ptr b hheld with h1 | ⟨-, h1⟩
      · simp [htodo] at h1
      · exact absurd (by simp [htodo]) (h1 w)
    | assigned w h ht =>
      simp only [htodo, Option.some.injEq] at hs
      subst hs
      refine ⟨H.written, .rest ?_, fun ptr b hheld => ?_⟩
      · simpa [h] using ht
      · rcases H.held ptr b hheld with h1 | ⟨-, h1⟩
        · simp [htodo] at h1
        · exact absurd (by simp [htodo]) (h1 w)

theorem UnlockInv.read (H : UnlockInv s) {k : ℕ} (hs : unlockStep C i s (.read k) = some s') :
    UnlockInv s' := by
  simp only [unlockStep] at hs
  split at hs
  · cases hs
  · rename_i w hw
    split_ifs at hs
    obtain rfl := Option.some.inj hs
    have hsub : ∀ p ∈ s.pending.eraseIdx k, p ∈ s.pending := fun p hp => List.mem_of_mem_eraseIdx hp
    refine ⟨fun x hx => ?_, H.writing.mono hsub, fun ptr b hheld => ?_⟩
    · rcases List.mem_append.1 hx with hx | hx
      · exact H.written x hx
      · obtain rfl := List.mem_singleton.1 hx
        exact H.writing.status w (List.mem_of_getElem? hw)
    · rcases H.held ptr b hheld with h1 | ⟨h1, h2⟩
      · exact .inl h1
      · exact .inr ⟨fun p hp => h1 p (hsub p hp), h2⟩

theorem UnlockInv.event {e : UnlockEvent K V} (H : UnlockInv s) (hok : SameNode s e)
    (hs : unlockStep C i s e = some s') : UnlockInv s' := by
  cases e with
  | invoke op =>
    simp only [unlockStep] at hs
    split at hs
    · obtain rfl := Option.some.inj hs
      exact ⟨H.written, H.writing, by simp [Phase.held]⟩
    · cases hs
  | step h fresh => exact H.step hs
  | verb => exact H.verb hok hs
  | read k => exact H.read hs

end Unlock

/-- In a run in which no unlock begins while one on another node is pending, every unlock written
wrote its own status, and each pending one would. -/
theorem unlock_fidelity {ι K V : Type*} [DecidableEq K] (C : IhtCfg ι K) (i : ι) (temp : UInt64)
    (es : List (UnlockEvent K V)) (s : UnlockState K V)
    (hr : run (unlockStep C i) (unlockInit C.toIhtParams temp) es = some s)
    (hm : Meets (unlockStep C i) SameNode (unlockInit C.toIhtParams temp) es) :
    (∀ x ∈ s.written, x.2 = x.1.status) ∧ ∀ w ∈ s.pending, s.temp = w.status := by
  have H : UnlockInv s :=
    run_inv (fun _ _ _ H hok hs => H.event hok hs) hr hm (unlockInv_init C.toIhtParams temp)
  exact ⟨H.written, H.writing.status⟩

/-- A client on node 3 of a table with its root on node 0. -/
def remoteClient : IhtCfg Unit ℕ where
  toIhtParams := smallTable
  root := .of 0 64
  root_ne := smallRoot_ne
  self _ := 3
  cacheDepth _ := .none

/-- The root has a P-List on node 1, with nothing in it, and one on node 2, with a full E-List. -/
def twoNodes : Heap ℕ ℕ where
  elist := Function.update (fun _ => none) (.of 2 256) (some [(11, 11)])
  plist := Function.update (Function.update (Function.update (fun _ => none)
    (.of 0 64) (some [⟨.of 1 128, pUnlocked⟩, ⟨.of 2 128, pUnlocked⟩, ⟨.null, eUnlocked⟩,
      ⟨.null, eUnlocked⟩]))
    (.of 1 128) (some (initPList remoteClient.toIhtParams 2)))
    (.of 2 128) (some ((initPList remoteClient.toIhtParams 2).set 2 ⟨.of 2 256, eUnlocked⟩))

/-- A search in the P-List on node 1. -/
def searchSteps : List (UnlockEvent ℕ ℕ) :=
  [.invoke (.contains 1), .step twoNodes [], .verb, .step twoNodes [], .verb,
    .step twoNodes [], .verb, .step twoNodes [], .step twoNodes [], .verb, .verb, .verb,
    .step twoNodes []]

/-- An insert that rehashes the E-List on node 2, up to its unlock. -/
def rehashSteps : List (UnlockEvent ℕ ℕ) :=
  [.invoke (.insert 4 4), .step twoNodes [], .verb, .step twoNodes [], .verb,
    .step twoNodes [], .verb, .step twoNodes [], .verb,
    .step twoNodes [.of 3 64, .of 3 192], .verb, .step twoNodes [], .verb, .step twoNodes []]

theorem unlock_fidelity_rehashSteps : ∃ s, run (unlockStep remoteClient ())
    (unlockInit remoteClient.toIhtParams 0)
      (searchSteps ++ [.read 0] ++ rehashSteps ++ [.verb, .verb, .verb, .read 0]) = some s ∧
    s.written.map (fun x => (x.1.node, x.1.status)) = [(1, eUnlocked), (2, pUnlocked)] ∧
    ∀ x ∈ s.written, x.2 = x.1.status := by
  obtain ⟨s, hs, hg⟩ := Option.map_eq_some_iff.1
    (show (run (unlockStep remoteClient ()) (unlockInit remoteClient.toIhtParams 0)
      (searchSteps ++ [.read 0] ++ rehashSteps ++ [.verb, .verb, .verb, .read 0])).map
      (fun s => s.written.map fun x => (x.1.node, x.1.status)) =
        some [(1, eUnlocked), (2, pUnlocked)] by decide +kernel)
  exact ⟨s, hs, hg, (unlock_fidelity remoteClient () 0 _ s hs (by decide +kernel)).1⟩

/-- The unlock on node 1 is still pending when that on node 2 begins: it writes zero, or the status
of the other, which makes an E-List one that is taken for a P-List. -/
theorem unlock_overwritten :
    (∃ s, run (unlockStep remoteClient ()) (unlockInit remoteClient.toIhtParams 0)
        (searchSteps ++ rehashSteps ++ [.verb, .read 0]) = some s ∧
      s.written.map (fun x => (x.1.node, x.1.status, x.2)) = [(1, eUnlocked, 0)]) ∧
    ∃ s, run (unlockStep remoteClient ()) (unlockInit remoteClient.toIhtParams 0)
        (searchSteps ++ rehashSteps ++ [.verb, .verb, .read 0]) = some s ∧
      s.written.map (fun x => (x.1.node, x.1.status, x.2)) = [(1, eUnlocked, pUnlocked)] := by
  constructor
  · exact Option.map_eq_some_iff.1
      (show (run (unlockStep remoteClient ()) (unlockInit remoteClient.toIhtParams 0)
        (searchSteps ++ rehashSteps ++ [.verb, .read 0])).map
        (fun s => s.written.map fun x => (x.1.node, x.1.status, x.2)) = some [(1, eUnlocked, 0)] by
        decide +kernel)
  · exact Option.map_eq_some_iff.1
      (show (run (unlockStep remoteClient ()) (unlockInit remoteClient.toIhtParams 0)
        (searchSteps ++ rehashSteps ++ [.verb, .verb, .read 0])).map
        (fun s => s.written.map fun x => (x.1.node, x.1.status, x.2)) =
          some [(1, eUnlocked, pUnlocked)] by
        decide +kernel)

end Rome
