import Rome.IhtClient
import Rome.Proofs.IhtRoom
import Rome.Proofs.IhtDepth

/-!
# Where the values of the table come from

In any interleaving, also one that loses an insert, a value that a call returns for its key is one
that an insert of this key was called with before. So a client whose table is filled with the keys
as values never gets another value than the key.
-/

namespace Rome

open Lin Machine

variable {ι K V : Type*}

/-- What a client in a call of the table knows: its call was made, and the pairs it will write and
the value it will return are `G`. -/
def Phase.Valued (G : K → V → Prop) (made : ℕ → Op K V → Prop) : Phase K V → Prop
  | .idle => True
  | .start n op => made n op
  | .head n op _ => made n op
  | .refetch n op _ => made n op
  | .locked n op _ => made n op
  | .write n op _ e r => made n op ∧ (∀ kv ∈ e, G kv.1 kv.2) ∧ ∀ v ∈ r, G op.key v
  | .rehash n op _ => made n op
  | .link n op _ _ _ => made n op
  | .unlock n op _ _ r => made n op ∧ ∀ v ∈ r, G op.key v
  | .ret n op r => made n op ∧ ∀ v ∈ r, G op.key v

/-- The pairs of every E-List are `G`. -/
def Heap.Valued (G : K → V → Prop) (h : Heap K V) : Prop :=
  ∀ p e, h.elist p = some e → ∀ kv ∈ e, G kv.1 kv.2

section Data

variable {G : K → V → Prop} {P : IhtParams K} {h h' : Heap K V}

theorem Phase.Valued.mono {G' : K → V → Prop} {made made' : ℕ → Op K V → Prop} {ph : Phase K V}
    (H : ph.Valued G made) (hG : ∀ k v, G k v → G' k v) (hm : ∀ n op, made n op → made' n op) :
    ph.Valued G' made' := by
  cases ph with
  | idle => trivial
  | write n op ctx e r =>
    exact ⟨hm _ _ H.1, fun kv hkv => hG _ _ (H.2.1 kv hkv), fun v hv => hG _ _ (H.2.2 v hv)⟩
  | unlock n op ctx status r => exact ⟨hm _ _ H.1, fun v hv => hG _ _ (H.2 v hv)⟩
  | ret n op r => exact ⟨hm _ _ H.1, fun v hv => hG _ _ (H.2 v hv)⟩
  | _ => exact hm _ _ H

theorem Heap.Valued.setElist (H : h.Valued G) {p : RemotePtr} {e : List (K × V)}
    (he : ∀ kv ∈ e, G kv.1 kv.2) : (h.setElist p (some e)).Valued G :=
  Heap.forall_setElist H he

theorem Heap.Valued.getD (H : h.Valued G) (p : RemotePtr) :
    ∀ kv ∈ (h.elist p).getD [], G kv.1 kv.2 := by
  intro kv hkv
  rcases he : h.elist p with _ | e
  · simp [he] at hkv
  · rw [he, Option.getD_some] at hkv
    exact H p e he kv hkv

/-- The loop of `rehash` moves pairs and makes none. -/
theorem rehashLoop_valued {level count : ℕ} {src : List (K × V)} {fresh : List RemotePtr}
    {bs bs' : List PlistPair} (H : h.Valued G) (hsrc : ∀ kv ∈ src, G kv.1 kv.2)
    (hr : rehashLoop P level count src fresh h bs = some (h', bs')) : h'.Valued G := by
  refine (rehashLoop_rule (I := fun todo L _ => todo ⊆ src
    ∧ Heap.Valued G (⟨L, h.plist⟩ : Heap K V)) hr ⟨fun _ hx => hx, H⟩ ?_ ?_).2
  · rintro x todo _ _ e ⟨hsub, H⟩ _
    rw [List.cons_subset] at hsub
    exact ⟨hsub.2, H.setElist (by simpa using hsrc x hsub.1)⟩
  · rintro x todo _ _ ⟨hsub, H⟩ _
    rw [List.cons_subset] at hsub
    refine ⟨hsub.2, H.setElist fun kv hm => ?_⟩
    rcases List.mem_append.1 hm with hm | hm
    · exact H.getD _ kv hm
    · rw [List.mem_singleton.1 hm]
      exact hsrc x hsub.1

theorem rehash_valued {self : UInt16} {base newP : RemotePtr} {pcount pdepth : ℕ}
    {fresh : List RemotePtr} (H : h.Valued G)
    (hr : rehash P self h base pcount pdepth fresh = some (h', newP)) : h'.Valued G :=
  Heap.forall_rehash hr fun _ source _ _ hb hl => rehashLoop_valued H (H base source hb) hl

variable [DecidableEq K]

theorem search_valued {key : K} {v : V} : ∀ {e : List (K × V)}, (∀ kv ∈ e, G kv.1 kv.2) →
    v ∈ search key e → G key v
  | [], _, hv => by cases hv
  | kv :: e, he, hv => by
    unfold search at hv
    split_ifs at hv with hk
    · obtain rfl := Option.some.inj hv
      exact hk ▸ he kv List.mem_cons_self
    · exact search_valued (fun kv' hm => he kv' (List.mem_cons_of_mem _ hm)) hv

/-- `remove` keeps pairs of the E-List, and returns the value of one of the key. -/
theorem removeLoop_valued {key : K} : ∀ {fuel i : ℕ} {e : List (K × V)} {r : Option V},
    (∀ kv ∈ e, G kv.1 kv.2) → (∀ v ∈ r, G key v) →
    (∀ kv ∈ (removeLoop key fuel i e r).1, G kv.1 kv.2)
      ∧ ∀ v ∈ (removeLoop key fuel i e r).2, G key v
  | 0, _, _, _, he, hr => ⟨he, hr⟩
  | fuel + 1, i, e, r, he, hr => by
    unfold removeLoop
    split
    · exact ⟨he, hr⟩
    rename_i kv hi
    have hkv := he kv (List.mem_of_getElem? hi)
    split_ifs with hk hlen
    · refine removeLoop_valued (fun kv' hm => ?_) (by simpa [← hk] using hkv)
      rcases List.mem_or_eq_of_mem_set (List.mem_of_mem_dropLast hm) with hm | rfl
      · exact he kv' hm
      · rcases hlast : e.getLast? with _ | x
        · rwa [List.getLastD_eq_getLast?, hlast]
        · rw [List.getLastD_eq_getLast?, hlast]
          exact he x (List.mem_of_getLast? hlast)
    · exact removeLoop_valued (fun kv' hm => he kv' (List.mem_of_mem_dropLast hm))
        (by simpa [← hk] using hkv)
    · exact removeLoop_valued he hr

/-- What an operation's function does with an E-List of pairs that are `G`. -/
theorem apply_valued {op : Op K V} {x : Option (List (K × V))} (hx : ∀ e ∈ x, ∀ kv ∈ e, G kv.1 kv.2)
    (hop : ∀ k v, op = .insert k v → G k v) :
    match apply P op x with
    | .finish r => ∀ v ∈ r, G op.key v
    | .link e => ∀ kv ∈ e, G kv.1 kv.2
    | .write e r => (∀ kv ∈ e, G kv.1 kv.2) ∧ ∀ v ∈ r, G op.key v
    | .rehash => True := by
  cases op with
  | contains key =>
    cases x with
    | none => simp [apply]
    | some e => exact fun v hv => search_valued (hx e rfl) hv
  | insert key value =>
    have hnew := hop key value rfl
    cases x with
    | none => simpa [apply] using hnew
    | some e =>
      simp only [apply]
      rcases hs : search key e with _ | v
      · simp only []
        split_ifs
        · refine ⟨fun kv hm => ?_, fun v hv => by cases hv⟩
          rcases List.mem_append.1 hm with hm | hm
          · exact hx e rfl kv hm
          · rw [List.mem_singleton.1 hm]
            exact hnew
        · trivial
      · exact fun v' hv' => search_valued (hx e rfl) (hs ▸ hv')
  | remove key =>
    cases x with
    | none => simp [apply]
    | some e =>
      have hloop : (∀ kv ∈ (removeLoop key e.length 0 e none).1, G kv.1 kv.2)
          ∧ ∀ v ∈ (removeLoop key e.length 0 e none).2, G key v :=
        removeLoop_valued (hx e rfl) fun v hv => by cases hv
      simp only [apply]
      rcases hrem : removeLoop key e.length 0 e none with ⟨e', _ | v⟩
      · exact fun v hv => by cases hv
      · rw [hrem] at hloop
        exact hloop

end Data

section Step

variable [DecidableEq K] {C : IhtCfg ι K} {s s' : IhtState ι K V} {G : K → V → Prop}
  {made : ℕ → Op K V → Prop}

omit [DecidableEq K] in
/-- The head of the loop moves no pair and returns nothing. -/
theorem doWithHead_goes {i : ι} {h : Heap K V} {c : Client K V} {n : ℕ} {op : Op K V} {ctx : Ctx} :
    (doWithHead C i h c n op ctx).heap.elist = h.elist
      ∧ (doWithHead C i h c n op ctx).result = none
      ∧ ∃ ctx', (doWithHead C i h c n op ctx).client.phase = .head n op ctx'
        ∨ (doWithHead C i h c n op ctx).client.phase = .refetch n op ctx'
        ∨ (doWithHead C i h c n op ctx).client.phase = .locked n op ctx' := by
  unfold doWithHead
  simp only []
  split_ifs
  · exact ⟨rfl, rfl, _, .inl rfl⟩
  · exact ⟨rfl, rfl, _, .inr (.inl rfl)⟩
  · exact ⟨rfl, rfl, _, .inr (.inr rfl)⟩
  · exact ⟨rfl, rfl, _, .inl rfl⟩

/-- A client's step moves pairs that are `G`, and returns a value that is `G` for its key. -/
theorem stepClient_valued {i : ι} {fresh : List RemotePtr} {eff : Effect K V}
    (hh : s.heap.Valued G) (hc : (s.client i).phase.Valued G made)
    (hmade : ∀ n op, made n op → ∀ k v, op = .insert k v → G k v)
    (hs : stepClient C i s.heap (s.client i) fresh = some eff) :
    eff.heap.Valued G ∧ eff.client.phase.Valued G made
      ∧ ∀ x ∈ eff.result, ∃ op, made x.1 op ∧ ∀ v ∈ x.2, G op.key v := by
  unfold stepClient at hs
  split at hs <;> rename_i hph <;> rw [hph] at hc
  next => cases hs
  next =>
    cases hs
    exact ⟨hh, hc, fun _ h => by cases h⟩
  next =>
    split_ifs at hs
    cases hs
    obtain ⟨h1, h2, ctx', h3⟩ := doWithHead_goes (C := C) (i := i) (h := s.heap) (c := s.client i)
    refine ⟨fun p e he => hh p e (h1 ▸ he), ?_, fun x hx => ?_⟩
    · rcases h3 with h3 | h3 | h3 <;> rw [h3] <;> exact hc
    · rw [h2] at hx
      cases hx
  next =>
    cases hs
    exact ⟨hh, hc, fun _ h => by cases h⟩
  next n op ctx =>
    have hact := apply_valued (P := C.toIhtParams) (x := if (bucketAt ctx.curr.buckets
        ctx.bucket).base = .null then none else s.heap.elist (bucketAt ctx.curr.buckets
        ctx.bucket).base) (fun e he => ?_) (hmade n op hc)
    · cases doWithLocked_cases hs with
      | finish r ha =>
        rw [ha] at hact
        exact ⟨hh, ⟨hc, hact⟩, fun _ h => by cases h⟩
      | link el ptr ha =>
        rw [ha] at hact
        exact ⟨hh.setElist hact, hc, fun _ h => by cases h⟩
      | write el r ha =>
        rw [ha] at hact
        exact ⟨hh, ⟨hc, hact⟩, fun _ h => by cases h⟩
      | rehash => exact ⟨hh, hc, fun _ h => by cases h⟩
    · split_ifs at he
      · cases he
      · exact hh _ _ he
  next =>
    cases hs
    exact ⟨hh.setElist hc.2.1, ⟨hc.1, hc.2.2⟩, fun _ h => by cases h⟩
  next =>
    split_ifs at hs
    obtain ⟨⟨h', newP⟩, hr, rfl⟩ := Option.map_eq_some_iff.1 hs
    exact ⟨rehash_valued hh hr, hc, fun _ h => by cases h⟩
  next =>
    cases hs
    exact ⟨hh, ⟨hc, fun _ h => by cases h⟩, fun _ h => by cases h⟩
  next =>
    cases hs
    refine ⟨hh, ?_, fun _ h => by cases h⟩
    simp only [doWithUnlock]
    split_ifs
    · exact hc
    · exact hc.1
  next n op r =>
    cases hs
    refine ⟨hh, trivial, fun x hx => ?_⟩
    obtain rfl := Option.some.inj hx
    exact ⟨op, hc⟩

/-- The pair was given to an insert that the history has. -/
def Put (hist : List (Lin.Event ℕ (Op K V) (Option V))) (k : K) (v : V) : Prop :=
  ∃ m, .inv m (.insert k v) ∈ hist

/-- Every pair in memory was given to an insert, and so was every value that has been returned,
before it was. -/
structure ValuesInv (s : IhtState ι K V) : Prop where
  heap : s.heap.Valued (Put s.hist)
  client : ∀ i, (s.client i).phase.Valued (Put s.hist) fun n op => .inv n op ∈ s.hist
  results : ∀ h₁ h₂ n r, s.hist = h₁ ++ .res n r :: h₂ →
    ∃ op, .inv n op ∈ h₁ ∧ ∀ v ∈ r, Put h₁ op.key v
  calls : ∀ n op, .inv n op ∈ s.hist → n < s.calls ∧ ∀ op', .inv n op' ∈ s.hist → op' = op

omit [DecidableEq K] in
/-- The responses of a longer history. -/
theorem results_append {hist : List (Lin.Event ℕ (Op K V) (Option V))}
    (H : ∀ h₁ h₂ n r, hist = h₁ ++ .res n r :: h₂ →
      ∃ op, .inv n op ∈ h₁ ∧ ∀ v ∈ r, Put h₁ op.key v)
    {x : Lin.Event ℕ (Op K V) (Option V)}
    (hx : ∀ n r, x = .res n r → ∃ op, .inv n op ∈ hist ∧ ∀ v ∈ r, Put hist op.key v) :
    ∀ h₁ h₂ n r, hist ++ [x] = h₁ ++ .res n r :: h₂ →
      ∃ op, .inv n op ∈ h₁ ∧ ∀ v ∈ r, Put h₁ op.key v := by
  intro h₁ h₂ n r heq
  rcases List.eq_nil_or_concat h₂ with rfl | ⟨h₂, y, rfl⟩
  · obtain ⟨rfl, hxy⟩ := List.append_inj' heq rfl
    exact hx n r (List.singleton_inj.1 hxy)
  · rw [List.concat_eq_append, ← List.cons_append, ← List.append_assoc] at heq
    exact H h₁ h₂ n r (List.append_inj' heq rfl).1

omit [DecidableEq K] in
theorem ValuesInv.init (C : IhtCfg ι K) : ValuesInv (ihtInit C : IhtState ι K V) where
  heap p e h := by simp [ihtInit] at h
  client _ := trivial
  results h₁ h₂ n r h := by simp [ihtInit] at h
  calls n op h := by simp [ihtInit] at h

variable [DecidableEq ι]

theorem ValuesInv.ihtStep (H : ValuesInv s) {ev : IhtEvent ι K V}
    (hs : Rome.ihtStep C s ev = some s') : ValuesInv s' := by
  rcases ihtStep_cases hs with ⟨i, op, -, hph, rfl⟩ | ⟨i, fresh, eff, -, h1, rfl⟩ |
    ⟨n, w, -, hw, rfl⟩
  · have hput : ∀ k v, Put s.hist k v → Put (s.hist ++ [.inv s.calls op]) k v :=
      fun k v ⟨m, hm⟩ => ⟨m, List.mem_append_left _ hm⟩
    refine ⟨fun p e he kv hkv => hput _ _ (H.heap p e he kv hkv), fun j => ?_,
      results_append H.results (fun n r h => nomatch h), fun n op' hn => ?_⟩
    · by_cases hji : j = i
      · subst hji
        simp only [Function.update_self]
        exact List.mem_append_right _ List.mem_cons_self
      · simp only [Function.update_of_ne hji]
        exact (H.client j).mono hput fun n op' hn => List.mem_append_left _ hn
    · have hnew : ∀ m op'', .inv m op'' ∈ s.hist ++ [.inv s.calls op] →
          .inv m op'' ∈ s.hist ∨ m = s.calls ∧ op'' = op := fun m op'' hm => by
        simpa using hm
      rcases hnew n op' hn with h2 | ⟨rfl, rfl⟩
      · refine ⟨(H.calls n op' h2).1.trans (Nat.lt_succ_self _), fun op'' hn' => ?_⟩
        rcases hnew n op'' hn' with h3 | ⟨rfl, -⟩
        · exact (H.calls n op' h2).2 op'' h3
        · exact absurd (H.calls _ op' h2).1 (lt_irrefl _)
      · refine ⟨Nat.lt_succ_self _, fun op'' hn' => ?_⟩
        rcases hnew _ op'' hn' with h3 | ⟨-, h3⟩
        · exact absurd (H.calls _ op'' h3).1 (lt_irrefl _)
        · exact h3
  · obtain ⟨h2, h3, h4⟩ := stepClient_valued H.heap (H.client i)
      (fun n op hn k v hop => ⟨n, hop ▸ hn⟩) h1
    obtain ⟨hist, hhist⟩ : ∃ hist, hist = s.hist ++ (eff.result.map fun r => .res r.1 r.2).toList :=
      ⟨_, rfl⟩
    have hput : ∀ k v, Put s.hist k v → Put hist k v :=
      fun k v ⟨m, hm⟩ => ⟨m, hhist ▸ List.mem_append_left _ hm⟩
    have hinv : ∀ n op, .inv n op ∈ hist ↔ .inv n op ∈ s.hist := fun n op => by
      rw [hhist]
      cases eff.result <;> simp
    simp only [IhtState.put, ← hhist]
    refine ⟨fun p e he kv hkv => hput _ _ (h2 p e he kv hkv), fun j => ?_, ?_, fun n op hn => ?_⟩
    · by_cases hji : j = i
      · subst hji
        simp only [Function.update_self]
        exact h3.mono hput fun n op hn => (hinv n op).2 hn
      · simp only [Function.update_of_ne hji]
        exact (H.client j).mono hput fun n op hn => (hinv n op).2 hn
    · rw [hhist]
      cases hres : eff.result with
      | none => simpa using H.results
      | some x =>
        refine results_append H.results fun n r hx => ?_
        obtain ⟨rfl, rfl⟩ := Event.res.inj hx
        exact h4 x hres
    · refine ⟨(H.calls n op ((hinv n op).1 hn)).1, fun op' hn' => ?_⟩
      exact (H.calls n op ((hinv n op).1 hn)).2 op' ((hinv n op').1 hn')
  · exact ⟨H.heap, H.client, H.results, H.calls⟩

theorem ValuesInv.run {es : List (IhtEvent ι K V)}
    (hr : Machine.run (Rome.ihtStep C) (ihtInit C) es = some s) : ValuesInv s :=
  run_inv' (fun _ _ _ H hs => ValuesInv.ihtStep H hs) hr (.init C)

end Step

section Clients

variable [DecidableEq ι]

/-- What clients insert for a key is the key. -/
theorem Issued.insert {k v : ℤ} (h : Issued (.insert k v)) : v = k := by
  rcases h with ⟨contains, insert, rng, k', h⟩ | ⟨ks, h⟩
  · unfold generator at h
    split_ifs at h
    · simp [IhtOp.call] at h
    · simp only [IhtOp.call, opInsert, opContains, one_ne_zero, if_false, if_true,
        Option.some.injEq, Op.insert.injEq] at h
      rw [← h.1, ← h.2]
    · simp [IhtOp.call, opRemove, opContains, opInsert] at h
  · obtain ⟨k', -, h⟩ := List.mem_map.1 h
    obtain ⟨rfl, rfl⟩ := Op.insert.inj h
    rfl

end Clients

end Rome
