import Rome.Proofs.IhtRehash
import Rome.Proofs.IhtProtocol

/-!
# Room in the E-Lists and owners of the locks

In any interleaving no E-List has more pairs than it has places (`Room`): an insert appends to one
it has found with room, and a rehash spreads no more pairs than the full E-List had. And a locked
bucket is one that a client has locked or that a posted unlock is on its way to (`Owned`).
-/

namespace Rome

variable {ι K V : Type*}

section Room

/-- No E-List, and none that is about to be written, has more pairs than it has places. -/
structure Room (N : ℕ) (s : IhtState ι K V) : Prop where
  lists : ∀ p e, s.heap.elist p = some e → e.length ≤ N
  writes : ∀ i n op ctx e r, (s.client i).phase = .write n op ctx e r → e.length ≤ N

/-- What holds of every E-List still does when one that it holds of is written. -/
theorem Heap.forall_setElist {Q : List (K × V) → Prop} {h : Heap K V} {p : RemotePtr}
    {e : List (K × V)} (H : ∀ p e, h.elist p = some e → Q e) (he : Q e) :
    ∀ p' e', (h.setElist p (some e)).elist p' = some e' → Q e' := by
  intro p' e' h'
  unfold Heap.setElist at h'
  by_cases hp : p' = p
  · subst hp
    simp only [Function.update_self, Option.some.injEq] at h'
    rw [← h']
    exact he
  · simp only [Function.update_of_ne hp] at h'
    exact H p' e' h'

/-- What holds of every E-List after the loop of a rehash holds of every E-List after the rehash. -/
theorem Heap.forall_rehash {Q : List (K × V) → Prop} {P : IhtParams K} {self : UInt16}
    {h h' : Heap K V} {base newP : RemotePtr} {pcount pdepth : ℕ} {fresh : List RemotePtr}
    (hr : rehash P self h base pcount pdepth fresh = some (h', newP))
    (H : ∀ blocks source h₁ bs, h.elist base = some source →
      rehashLoop P (pdepth + 1) (pcount * 2) source blocks h
        (initPList P (pcount * 2 / P.plistSize)) = some (h₁, bs) →
      ∀ p e, h₁.elist p = some e → Q e) :
    ∀ p e, h'.elist p = some e → Q e := by
  obtain ⟨blocks, source, h₁, bs, -, hb, hl, rfl⟩ := rehash_cases hr
  have hloop := H blocks source h₁ bs hb hl
  intro p e hp
  split_ifs at hp
  · by_cases hpb : p = base
    · simp [Heap.setElist, hpb] at hp
    · simp only [Heap.setElist, Heap.setPlist, Function.update_of_ne hpb] at hp
      exact hloop p e hp
  · exact hloop p e hp

/-- The loop of `rehash` overfills no E-List: each of the new P-List has at most the pairs that have
been moved. -/
theorem rehashLoop_room {P : IhtParams K} {level count N : ℕ} {src : List (K × V)}
    {fresh : List RemotePtr} {h h' : Heap K V} {bs bs' : List PlistPair}
    (H : ∀ p e, h.elist p = some e → e.length ≤ N) (hlen : src.length ≤ N)
    (hbs : ∀ b, (bucketAt bs b).base ≠ .null →
      ((h.elist (bucketAt bs b).base).getD []).length + src.length ≤ N)
    (hr : rehashLoop P level count src fresh h bs = some (h', bs')) :
    ∀ p e, h'.elist p = some e → e.length ≤ N := by
  refine (rehashLoop_rule (I := fun todo L bs => (∀ p e, L p = some e → e.length ≤ N)
    ∧ todo.length ≤ N ∧ ∀ b, (bucketAt bs b).base ≠ .null →
      ((L (bucketAt bs b).base).getD []).length + todo.length ≤ N) hr ⟨H, hlen, hbs⟩ ?_ ?_).1
  · rintro x todo L bs e ⟨H, hlen, hbs⟩ hb
    rw [List.length_cons] at hlen
    refine ⟨Heap.forall_setElist (h := ⟨L, h.plist⟩) H (by simp; omega), by omega, fun b hne => ?_⟩
    by_cases hpe : (bucketAt (bs.set (levelHash P x.1 level count) ⟨e, eUnlocked⟩) b).base = e
    · rw [hpe]
      simp only [Function.update_self, Option.getD_some, List.length_singleton]
      omega
    · have hbb : levelHash P x.1 level count ≠ b := by
        rintro rfl
        by_cases hlt : levelHash P x.1 level count < bs.length
        · rw [bucketAt_set_self hlt] at hpe
          exact hpe rfl
        · rw [List.set_eq_of_length_le (not_lt.1 hlt)] at hne
          exact hne hb
      rw [bucketAt_set_ne hbb] at hne hpe ⊢
      rw [Function.update_of_ne hpe]
      have := hbs b hne
      rw [List.length_cons] at this
      omega
  · rintro x todo L bs ⟨H, hlen, hbs⟩ hb
    have hold := hbs _ hb
    rw [List.length_cons] at hlen hold
    refine ⟨Heap.forall_setElist (h := ⟨L, h.plist⟩) H (by simp; omega), by omega, fun b hne => ?_⟩
    by_cases hpe : (bucketAt bs b).base = (bucketAt bs (levelHash P x.1 level count)).base
    · rw [hpe]
      simp only [Function.update_self, Option.getD_some, List.length_append, List.length_singleton]
      omega
    · rw [Function.update_of_ne hpe]
      have := hbs b hne
      rw [List.length_cons] at this
      omega

theorem rehash_room {P : IhtParams K} {self : UInt16} {h h' : Heap K V} {base newP : RemotePtr}
    {pcount pdepth N : ℕ} {fresh : List RemotePtr}
    (H : ∀ p e, h.elist p = some e → e.length ≤ N)
    (hr : rehash P self h base pcount pdepth fresh = some (h', newP)) :
    ∀ p e, h'.elist p = some e → e.length ≤ N := by
  refine Heap.forall_rehash hr fun blocks source h₁ bs hb hl => ?_
  refine rehashLoop_room H (H base source hb) (fun b hne => absurd ?_ hne) hl
  rcases Nat.lt_or_ge b (P.plistSize * (pcount * 2 / P.plistSize)) with hlt | hge
  · rw [bucketAt_initPList P hlt]
  · rw [bucketAt_of_le (by rw [initPList_length]; exact hge)]
    rfl

variable [DecidableEq K]

theorem removeLoop_length (key : K) : ∀ (fuel i : ℕ) (e : List (K × V)) (r : Option V),
    (removeLoop key fuel i e r).1.length ≤ e.length
  | 0, _, _, _ => le_rfl
  | fuel + 1, i, e, r => by
    unfold removeLoop
    split
    · exact le_rfl
    · split_ifs
      · refine (removeLoop_length key fuel (i + 1) _ _).trans ?_
        simp
      · refine (removeLoop_length key fuel (i + 1) _ _).trans ?_
        simp
      · exact removeLoop_length key fuel (i + 1) e r

/-- What an operation writes back has room. -/
theorem apply_room {P : IhtParams K} {op : Op K V} {x : Option (List (K × V))} {e : List (K × V)}
    {r : Option V} (hx : ∀ l, x = some l → l.length ≤ P.elistSize)
    (h : apply P op x = .write e r) : e.length ≤ P.elistSize := by
  cases x with
  | none => exact absurd h apply_none_ne_write
  | some l =>
    have hl := hx l rfl
    cases op with
    | contains key => simp [apply] at h
    | insert key value =>
      simp only [apply] at h
      split at h
      · cases h
      · split_ifs at h with hlt
        simp only [Action.write.injEq] at h
        rw [← h.1, List.length_append, List.length_singleton]
        omega
    | remove key =>
      have hlen := removeLoop_length key l.length 0 l none
      simp only [apply] at h
      split at h
      · cases h
      · rename_i e' v heq
        simp only [Action.write.injEq] at h
        rw [heq] at hlen
        rw [← h.1]
        exact hlen.trans hl

variable [DecidableEq ι] {C : IhtCfg ι K} {s s' : IhtState ι K V} {ev : IhtEvent ι K V}

omit [DecidableEq ι] in
theorem Room.stepClient {i : ι} {fresh : List RemotePtr} {eff : Effect K V}
    (H : Room C.elistSize s) (hs : Rome.stepClient C i s.heap (s.client i) fresh = some eff) :
    (∀ p e, eff.heap.elist p = some e → e.length ≤ C.elistSize)
      ∧ ∀ n op ctx e r, eff.client.phase = .write n op ctx e r → e.length ≤ C.elistSize := by
  have h1 := C.elistSize_pos
  unfold Rome.stepClient at hs
  split at hs
  next => cases hs
  next n op hph =>
    cases hs
    exact ⟨H.lists, fun _ _ _ _ _ h => by cases h⟩
  next n op ctx hph =>
    split_ifs at hs
    cases hs
    unfold doWithHead
    simp only []
    split_ifs <;> exact ⟨H.lists, fun _ _ _ _ _ h => by cases h⟩
  next n op ctx hph =>
    cases hs
    exact ⟨H.lists, fun _ _ _ _ _ h => by cases h⟩
  next n op ctx hph =>
    cases doWithLocked_cases hs with
    | link el ptr hact =>
      obtain ⟨-, v, -, rfl⟩ := apply_link hact
      exact ⟨Heap.forall_setElist H.lists (by simpa using h1), fun _ _ _ _ _ h => by cases h⟩
    | write el r hact =>
      refine ⟨H.lists, fun _ _ _ _ _ h => ?_⟩
      cases h
      refine apply_room (fun l hl => ?_) hact
      split_ifs at hl
      exact H.lists _ _ hl
    | finish | rehash => exact ⟨H.lists, fun _ _ _ _ _ h => by cases h⟩
  next n op ctx l r hph =>
    cases hs
    exact ⟨Heap.forall_setElist H.lists (H.writes i n op ctx l r hph),
      fun _ _ _ _ _ h => by cases h⟩
  next n op ctx hph =>
    split_ifs at hs
    obtain ⟨⟨h', newP⟩, hr, rfl⟩ := Option.map_eq_some_iff.1 hs
    exact ⟨rehash_room H.lists hr, fun _ _ _ _ _ h => by cases h⟩
  next n op ctx ptr status hph =>
    cases hs
    exact ⟨H.lists, fun _ _ _ _ _ h => by cases h⟩
  next n op ctx status r hph =>
    cases hs
    refine ⟨H.lists, fun _ _ _ _ _ h => ?_⟩
    simp only [doWithUnlock] at h
    split_ifs at h
  next n op r hph =>
    cases hs
    exact ⟨H.lists, fun _ _ _ _ _ h => by cases h⟩

theorem Room.ihtStep (H : Room C.elistSize s) (hs : Rome.ihtStep C s ev = some s') :
    Room C.elistSize s' := by
  rcases ihtStep_cases hs with ⟨i, op, -, hph, rfl⟩ | ⟨i, fresh, eff, -, h1, rfl⟩ |
    ⟨n, w, -, hw, rfl⟩
  · refine ⟨H.lists, fun j n op ctx e r h => ?_⟩
    by_cases hji : j = i
    · subst hji
      simp at h
    · simp only [Function.update_of_ne hji] at h
      exact H.writes j n op ctx e r h
  · obtain ⟨h2, h3⟩ := H.stepClient h1
    refine ⟨h2, fun j n op ctx e r h => ?_⟩
    by_cases hji : j = i
    · subst hji
      simp only [IhtState.put, Function.update_self] at h
      exact h3 n op ctx e r h
    · simp only [IhtState.put, Function.update_of_ne hji] at h
      exact H.writes j n op ctx e r h
  · exact ⟨H.lists, H.writes⟩

end Room

section Owned

/-- A locked bucket is one that a client holds, or that a posted unlock is to free. -/
def Owned (s : IhtState ι K V) : Prop :=
  ∀ p b, (s.heap.bucket p b).lock = eLocked →
    (∃ i, (s.client i).phase.held = some (p, b)) ∨ ∃ w ∈ s.posted, w.ptr = p ∧ w.bucket = b

variable [DecidableEq ι] [DecidableEq K] {C : IhtCfg ι K} {s s' : IhtState ι K V}
  {ev : IhtEvent ι K V}

omit [DecidableEq K] in
/-- The owner of a bucket that a client's step leaves locked. -/
theorem Owned.put {i : ι} {eff : Effect K V} (H : Owned s)
    (heff : BucketEffect s.heap (s.client i).phase eff.heap eff.client.phase eff.posted) :
    Owned (s.put i eff) := by
  unfold Owned IhtState.put
  simp only []
  generalize eff.posted = po at heff ⊢
  have hold : ∀ p b, (s.heap.bucket p b).lock = eLocked →
      ((s.client i).phase.held = some (p, b) →
        (∃ j, (Function.update s.client i eff.client j).phase.held = some (p, b))
          ∨ ∃ w ∈ s.posted ++ po.toList, w.ptr = p ∧ w.bucket = b) →
      (∃ j, (Function.update s.client i eff.client j).phase.held = some (p, b))
        ∨ ∃ w ∈ s.posted ++ po.toList, w.ptr = p ∧ w.bucket = b := by
    intro p b hl hi
    rcases H p b hl with ⟨j, hj⟩ | ⟨w, hw, h1⟩
    · by_cases hji : j = i
      · subst hji
        exact hi hj
      · exact .inl ⟨j, by rw [Function.update_of_ne hji]; exact hj⟩
    · exact .inr ⟨w, List.mem_append_left _ hw, h1⟩
  intro p b hl
  cases heff with
  | same hp hh hc =>
    simp only [Heap.bucket, hp] at hl
    exact hold p b hl fun hi => .inl ⟨i, by rw [Function.update_self, hh]; exact hi⟩
  | @acquire p' b' _ _ hl' hh hp hh' =>
    by_cases heq : p = p' ∧ b = b'
    · obtain ⟨rfl, rfl⟩ := heq
      exact .inl ⟨i, by rw [Function.update_self, hh']⟩
    · rw [hp, Heap.bucket_setBucket_ne heq] at hl
      refine hold p b hl fun hi => ?_
      rw [hh] at hi
      cases hi
  | @link p' b' ptr _ _ hh hc hp hh' =>
    refine hold p b ?_ fun hi => .inl ⟨i, by rw [Function.update_self, hh', ← hh]; exact hi⟩
    by_cases heq : p = p' ∧ b = b'
    · obtain ⟨rfl, rfl⟩ := heq
      by_cases hhas : s.heap.Has p b
      · rwa [hp, Heap.bucket_setBucket_self hhas] at hl
      · rw [hp] at hl
        have hhas' := Heap.has_of_isLock (h := s.heap.setBucket p b
          { s.heap.bucket p b with base := ptr }) (.inl hl)
        obtain ⟨bs, h1, h2⟩ := hhas'
        simp only [Heap.setBucket, Heap.setPlist, Function.update_self, Option.some.injEq] at h1
        rw [← h1, List.length_set] at h2
        rcases hpl : s.heap.plist p with _ | bs'
        · simp [hpl] at h2
        · rw [hpl] at h2
          exact absurd ⟨bs', hpl, h2⟩ hhas
    · rwa [hp, Heap.bucket_setBucket_ne heq] at hl
  | @grow newP bs _ _ hn hc hp hh hb hs =>
    by_cases hpp : p = newP
    · subst hpp
      simp only [Heap.bucket, hp, Function.update_self, Option.getD_some] at hl
      exact absurd hl (bucketAt_lock_ne hb (.inl rfl) eLocked_ne_eUnlocked.symm b)
    · simp only [Heap.bucket, hp, Function.update_of_ne hpp] at hl
      exact hold p b hl fun hi => .inl ⟨i, by rw [Function.update_self, hh]; exact hi⟩
  | @post w _ _ hh hp hh' hc hst hs =>
    rw [hp] at hl
    refine hold p b hl fun hi => .inr ⟨w, by simp, ?_⟩
    rw [hh, Option.some.injEq, Prod.mk.injEq] at hi
    exact hi

theorem Owned.ihtStep (hL : s.Locks) (hW : LockWords s) (H : Owned s)
    (hs : Rome.ihtStep C s ev = some s') : Owned s' := by
  rcases ihtStep_cases hs with ⟨i, op, -, hph, rfl⟩ | ⟨i, fresh, eff, -, h1, rfl⟩ |
    ⟨n, w, -, hw, rfl⟩
  · intro p b hl
    rcases H p b hl with ⟨j, hj⟩ | h1
    · have hji : j ≠ i := by
        rintro rfl
        rw [hph] at hj
        cases hj
      exact .inl ⟨j, by simpa only [Function.update_of_ne hji] using hj⟩
    · exact .inr h1
  · exact H.put (stepClient_effect h1)
  · have hmem := List.mem_of_getElem? hw
    have hhas : s.heap.Has w.ptr w.bucket := Heap.has_of_isLock (.inl (hL.sent w hmem))
    intro p b hl
    by_cases heq : p = w.ptr ∧ b = w.bucket
    · obtain ⟨rfl, rfl⟩ := heq
      simp only [Heap.bucket_setBucket_self hhas] at hl
      rcases hW.posted w hmem with h1 | h1 <;> rw [h1] at hl
      · exact absurd hl eLocked_ne_eUnlocked.symm
      · exact absurd hl eLocked_ne_pUnlocked.symm
    · simp only [Heap.bucket_setBucket_ne heq] at hl
      rcases H p b hl with h1 | ⟨w', hw', h1⟩
      · exact .inl h1
      · refine .inr ⟨w', List.mem_eraseIdx_iff_getElem?.2 ?_, h1⟩
        obtain ⟨k, hk⟩ := List.mem_iff_getElem?.1 hw'
        refine ⟨k, ?_, hk⟩
        rintro rfl
        rw [hw, Option.some.injEq] at hk
        subst hk
        exact heq ⟨h1.1.symm, h1.2.symm⟩

end Owned

end Rome
