import Rome.ConnectionManager
import Rome.Lib.Machine

/-!
# Who holds the lock of a connection manager

A call that honours what `Acquire` returns touches the connections between its `Acquire` and its
`Release` only, and no other call is then between its own. `OnDisconnect` does not honour it, and
`Connect`, `ConnectLoopback` and `OnConnectRequest` have paths that go back to the connections after
the `Release`.
-/

namespace Rome

open Machine

/-- The call is between a successful `Acquire` and its `Release`. -/
def Call.holds : Call → Bool
  | connectFind _ | connectFoundRelease _ | connectEndpoint _ | connectWait _ _ | connectRecheck _ _
  | connectDupRelease _ | connectEmplace _ _ | connectGet _ _ | connectRelease _ _
  | connectErrorRelease _ | loopbackEmplace _ | loopbackRelease | getFind _ | getRelease _
  | requestFind _ _ | requestReject _ _ | requestRejectRelease | requestEmplace _ _
  | requestAccept _ _ | requestRelease | disconnectFind _ _ | disconnectErase _
  | disconnectRelease => true
  | _ => false

/-- The peer that the call has not found among the established connections. -/
def Call.absent (my : ℕ) : Call → Option ℕ
  | connectEndpoint peer | connectWait peer _ | connectRecheck peer _ | connectEmplace peer _
  | requestEmplace peer _ => some peer
  | loopbackEmplace _ => some my
  | _ => none

/-- The entry that the call has just made. -/
def Call.present : Call → Option (ℕ × ℕ)
  | connectGet peer c => some (peer, c)
  | _ => none

/-- What a step of a call at `pc` can do. -/
inductive CmEffect (my : ℕ) (s : CmState) (t : ℕ) (pc : Call) : CmState → Prop
  | spin : CmEffect my s t pc s
  | goto (pc' : Call) (backoff : ℕ) (hholds : pc'.holds → pc.holds)
      (habsent : ∀ p, pc'.absent my = some p →
        pc.absent my = some p ∨ s.established.lookup p = none)
      (hpresent : pc'.present = none) :
      CmEffect my s t pc { s.goto t pc' with backoffUs := backoff }
  | acquire (id : ℕ) (pc' : Call) (hmu : s.mu = kUnlocked) (habsent : pc'.absent my = none)
      (hpresent : pc'.present = none) :
      CmEffect my s t pc { s.goto t pc' with mu := id, holder := some t }
  | release (pc' : Call) (hpc : pc.holds) (hholds : pc'.holds = false)
      (habsent : pc'.absent my = none) (hpresent : pc'.present = none) :
      CmEffect my s t pc (s.release t pc')
  | emplace (p c : ℕ) (pc' : Call) (hpc : pc.holds) (hp : pc.absent my = some p)
      (habsent : pc'.absent my = none)
      (hpresent : ∀ x, pc'.present = some x → x = (p, c)) :
      CmEffect my s t pc ((s.emplace p c).goto t pc')
  | erase (p : ℕ) (pc' : Call) (hpc : pc.holds) (habsent : pc'.absent my = none)
      (hpresent : pc'.present = none) :
      CmEffect my s t pc ((s.erase p).goto t pc')

section Effect

variable {my t : ℕ} {s s' : CmState} {pc : Call} {o : Outcome}

theorem CmEffect.goto' (pc' : Call) (hholds : pc'.holds → pc.holds)
    (habsent : ∀ p, pc'.absent my = some p → pc.absent my = some p ∨ s.established.lookup p = none)
    (hpresent : pc'.present = none) : CmEffect my s t pc (s.goto t pc') :=
  .goto pc' s.backoffUs hholds habsent hpresent

theorem acquire_effect {id : ℕ} {won lost : Call} (hwon : won.absent my = none)
    (hwon' : won.present = none) (hlost : s.mu = my → lost.holds = false)
    (hlost' : lost.absent my = none) (hlost'' : lost.present = none) :
    CmEffect my s t pc (s.acquire my t id won lost) := by
  unfold CmState.acquire
  split_ifs with h1 h2
  · exact .acquire id won h1 hwon hwon'
  · refine .goto' lost ?_ ?_ hlost''
    · rw [hlost h2]
      simp
    · rw [hlost']
      simp
  · exact .spin

theorem release_effect {pc' : Call} (h : some (s.release t pc') = some s') (hpc : pc.holds)
    (hholds : pc'.holds = false) (habsent : pc'.absent my = none) (hpresent : pc'.present = none) :
    CmEffect my s t pc s' := by
  obtain rfl := Option.some.inj h
  exact .release pc' hpc hholds habsent hpresent

theorem goto_effect {pc' : Call} (h : some (s.goto t pc') = some s') (hholds : pc'.holds → pc.holds)
    (habsent : ∀ p, pc'.absent my = some p → pc.absent my = some p ∨ s.established.lookup p = none)
    (hpresent : pc'.present = none) : CmEffect my s t pc s' := by
  obtain rfl := Option.some.inj h
  exact .goto' pc' hholds habsent hpresent

theorem connectStep_effect (h : connectStep my s t pc o = some s') : CmEffect my s t pc s' := by
  unfold connectStep at h
  split at h
  · obtain rfl := Option.some.inj h
    exact acquire_effect rfl rfl (fun _ => rfl) rfl rfl
  · split at h
    · exact goto_effect h (by simp [Call.holds]) (by simp [Call.absent]) rfl
    · rename_i hnone
      refine goto_effect h (by simp [Call.holds]) ?_ rfl
      intro p hp
      obtain rfl := Option.some.inj hp
      exact .inr hnone
  · exact release_effect h rfl rfl rfl rfl
  · exact goto_effect h (by simp [Call.holds]) (by simp [Call.absent]) rfl
  · split_ifs at h with hmy
    · refine goto_effect h (by simp [Call.holds]) ?_ rfl
      intro p hp
      rw [hmy]
      exact .inl hp
    · exact goto_effect h (by simp [Call.holds]) (fun p hp => .inl hp) rfl
  · split_ifs at h
    · exact goto_effect h (by simp [Call.holds]) (by simp [Call.absent]) rfl
    · exact goto_effect h (by simp [Call.holds]) (by simp [Call.absent]) rfl
  · exact goto_effect h (by simp [Call.holds]) (fun p hp => .inl hp) rfl
  · obtain rfl := Option.some.inj h
    exact .spin
  · obtain rfl := Option.some.inj h
    exact .goto _ _ (by simp [Call.holds]) (by simp [Call.absent]) rfl
  · obtain rfl := Option.some.inj h
    exact .goto _ _ (by simp [Call.holds]) (by simp [Call.absent]) rfl
  · exact goto_effect h (by simp [Call.holds]) (by simp [Call.absent]) rfl
  · split at h
    · exact goto_effect h (by simp [Call.holds]) (by simp [Call.absent]) rfl
    · exact goto_effect h (by simp [Call.holds]) (fun p hp => .inl hp) rfl
  · exact release_effect h rfl rfl rfl rfl
  · exact goto_effect h (by simp [Call.holds]) (by simp [Call.absent]) rfl
  · exact goto_effect h (by simp [Call.holds]) (by simp [Call.absent]) rfl
  · obtain rfl := Option.some.inj h
    exact .emplace _ _ _ rfl rfl rfl (by simp [Call.present])
  · exact goto_effect h (by simp [Call.holds]) (by simp [Call.absent]) rfl
  · obtain ⟨c, -, rfl⟩ := Option.map_eq_some_iff.1 h
    exact .goto' _ (by simp [Call.holds]) (by simp [Call.absent]) rfl
  · exact release_effect h rfl rfl rfl rfl
  · exact release_effect h rfl rfl rfl rfl
  · obtain rfl := Option.some.inj h
    exact .emplace _ _ _ rfl rfl rfl (by simp [Call.present])
  · exact goto_effect h (by simp [Call.holds]) (by simp [Call.absent]) rfl
  · exact release_effect h rfl rfl rfl rfl
  · exact goto_effect h (by simp [Call.holds]) (by simp [Call.absent]) rfl
  · cases h

theorem getStep_effect (h : getStep my s t pc = some s') : CmEffect my s t pc s' := by
  unfold getStep at h
  split at h
  · obtain rfl := Option.some.inj h
    exact acquire_effect rfl rfl (fun _ => rfl) rfl rfl
  · split at h
    · exact goto_effect h (by simp [Call.holds]) (by simp [Call.absent]) rfl
    · exact goto_effect h (by simp [Call.holds]) (by simp [Call.absent]) rfl
  · exact release_effect h rfl rfl rfl rfl
  · cases h

theorem requestStep_effect (h : requestStep my s t pc = some s') : CmEffect my s t pc s' := by
  unfold requestStep at h
  split at h
  · obtain rfl := Option.some.inj h
    exact acquire_effect rfl rfl (fun _ => rfl) rfl rfl
  · exact goto_effect h (by simp [Call.holds]) (by simp [Call.absent]) rfl
  · split_ifs at h with hfound
    · exact goto_effect h (by simp [Call.holds]) (by simp [Call.absent]) rfl
    · refine goto_effect h (by simp [Call.holds]) ?_ rfl
      intro p hp
      obtain rfl := Option.some.inj hp
      rw [not_or, Bool.not_eq_true, Option.isSome_eq_false_iff, Option.isNone_iff_eq_none] at hfound
      exact .inr hfound.1
  · exact goto_effect h (by simp [Call.holds]) (by simp [Call.absent]) rfl
  · exact release_effect h rfl rfl rfl rfl
  · exact goto_effect h (by simp [Call.holds]) (by simp [Call.absent]) rfl
  · obtain rfl := Option.some.inj h
    exact .emplace _ _ _ rfl rfl rfl (by simp [Call.present])
  · exact goto_effect h (by simp [Call.holds]) (by simp [Call.absent]) rfl
  · exact release_effect h rfl rfl rfl rfl
  · cases h

/-- `OnDisconnect` keeps to the others' rules if its `Acquire` does not give up. -/
theorem disconnectStep_effect (h : disconnectStep my s t pc = some s')
    (hmu : ∀ peer c, pc = .disconnectAcquire peer c → s.mu ≠ my) : CmEffect my s t pc s' := by
  unfold disconnectStep at h
  split at h
  · obtain rfl := Option.some.inj h
    exact acquire_effect rfl rfl (fun h' => absurd h' (hmu _ _ rfl)) rfl rfl
  · split_ifs at h
    · exact goto_effect h (by simp [Call.holds]) (by simp [Call.absent]) rfl
    · exact goto_effect h (by simp [Call.holds]) (by simp [Call.absent]) rfl
  · obtain rfl := Option.some.inj h
    exact .erase _ _ rfl rfl rfl
  · exact release_effect h rfl rfl rfl rfl
  · cases h

/-- The thread of an event. -/
def CmEvent.thread : CmEvent → ℕ
  | .connect t _ | .getConnection t _ | .onConnectRequest t _ _ | .onDisconnect t _ _ => t
  | .step t _ => t

/-- The event is not that `OnDisconnect` gives up to acquire the lock. -/
def NoGiveUp (my : ℕ) (s : CmState) : CmEvent → Prop
  | .step t _ => ∀ peer c, s.calls t = .disconnectAcquire peer c → s.mu ≠ my
  | _ => True

theorem cmStep_step {t : ℕ} (h : cmStep my s (.step t o) = some s') :
    connectStep my s t (s.calls t) o = some s' ∨ o = .ok ∧
      (getStep my s t (s.calls t) = some s' ∨ requestStep my s t (s.calls t) = some s' ∨
        disconnectStep my s t (s.calls t) = some s') := by
  simp only [cmStep] at h
  split at h
  · rename_i hc
    exact .inl (hc.trans h)
  · split_ifs at h with ho
    rw [Option.orElse_eq_some, Option.orElse_eq_some] at h
    rw [not_not] at ho
    rcases h with h | ⟨-, h | ⟨-, h⟩⟩
    · exact .inr ⟨ho, .inl h⟩
    · exact .inr ⟨ho, .inr (.inl h)⟩
    · exact .inr ⟨ho, .inr (.inr h)⟩

theorem cmStep_effect {e : CmEvent} (h : cmStep my s e = some s') (hok : NoGiveUp my s e) :
    CmEffect my s e.thread (s.calls e.thread) s' := by
  cases e with
  | connect t peer =>
    simp only [cmStep] at h
    split_ifs at h
    exact goto_effect h (by simp [Call.holds]) (by simp [Call.absent]) rfl
  | getConnection t peer =>
    simp only [cmStep] at h
    split_ifs at h
    exact goto_effect h (by simp [Call.holds]) (by simp [Call.absent]) rfl
  | onConnectRequest t peer c =>
    simp only [cmStep] at h
    split_ifs at h
    · exact goto_effect h (by simp [Call.holds]) (by simp [Call.absent]) rfl
    · exact goto_effect h (by simp [Call.holds]) (by simp [Call.absent]) rfl
  | onDisconnect t peer c =>
    simp only [cmStep] at h
    split_ifs at h
    exact goto_effect h (by simp [Call.holds]) (by simp [Call.absent]) rfl
  | step t o =>
    rcases cmStep_step h with h | ⟨-, h | h | h⟩
    · exact connectStep_effect h
    · exact getStep_effect h
    · exact requestStep_effect h
    · exact disconnectStep_effect h hok

end Effect

/-! ## The lock -/

theorem Call.holds_of_absent {my p : ℕ} {pc : Call} (h : pc.absent my = some p) : pc.holds := by
  cases pc <;> first | rfl | simp [Call.absent] at h

theorem Call.holds_of_present {pc : Call} {x : ℕ × ℕ} (h : pc.present = some x) : pc.holds := by
  cases pc <;> first | rfl | simp [Call.present] at h

/-- The calls between their `Acquire` and their `Release` are those of the holder, and what such a
call knows of the connections stays so. -/
structure CmInv (my : ℕ) (s : CmState) : Prop where
  held : ∀ t, (s.calls t).holds → s.holder = some t
  locked : s.mu = kUnlocked → s.holder = none
  nodup : (s.established.map Prod.fst).Nodup
  absent : ∀ t p, (s.calls t).absent my = some p → s.established.lookup p = none
  present : ∀ t x, (s.calls t).present = some x → s.established.lookup x.1 = some x.2

theorem cmInv_init (my : ℕ) : CmInv my cmInit where
  held := by simp [cmInit, Call.holds]
  locked := by simp [cmInit]
  nodup := by simp [cmInit]
  absent := by simp [cmInit]
  present := by simp [cmInit, Call.present]

section Inv

variable {my t : ℕ} {s s' : CmState}

/-- While a call is at `pc`, no other is between its `Acquire` and its `Release`. -/
theorem CmInv.other_not_holds (H : CmInv my s) (hpc : (s.calls t).holds) {t' : ℕ} (hne : t' ≠ t) :
    (s.calls t').holds = false := by
  rw [Bool.eq_false_iff]
  intro h
  have h1 := H.held t hpc
  rw [H.held t' h, Option.some.injEq] at h1
  exact hne h1

theorem CmEffect.calls_of_ne {pc : Call} (h : CmEffect my s t pc s') {t' : ℕ} (hne : t' ≠ t) :
    s'.calls t' = s.calls t' := by
  cases h with
  | spin => rfl
  | goto pc' b => exact Function.update_of_ne hne _ _
  | acquire id pc' => exact Function.update_of_ne hne _ _
  | release pc' => exact Function.update_of_ne hne _ _
  | emplace p c pc' =>
    simp only [CmState.goto, CmState.emplace, Function.update_of_ne hne]
    split_ifs <;> rfl
  | erase p pc' => exact Function.update_of_ne hne _ _

theorem CmEffect.accepting_eq {pc : Call} (h : CmEffect my s t pc s') :
    s'.accepting = s.accepting := by
  cases h with
  | emplace p c pc' =>
    simp only [CmState.goto, CmState.emplace]
    split_ifs <;> rfl
  | _ => rfl

theorem established_emplace (p c : ℕ) (h : s.established.lookup p = none) :
    (s.emplace p c).established = (p, c) :: s.established := by
  unfold CmState.emplace
  rw [if_neg (by simp [h])]

theorem emplace_calls (p c : ℕ) : (s.emplace p c).calls = s.calls := by
  unfold CmState.emplace
  split_ifs <;> rfl

theorem emplace_mu (p c : ℕ) : (s.emplace p c).mu = s.mu := by
  unfold CmState.emplace
  split_ifs <;> rfl

theorem emplace_holder (p c : ℕ) : (s.emplace p c).holder = s.holder := by
  unfold CmState.emplace
  split_ifs <;> rfl

theorem not_mem_of_lookup_none {l : List (ℕ × ℕ)} {p : ℕ} (h : l.lookup p = none) :
    p ∉ l.map Prod.fst := by
  rw [List.lookup_eq_none_iff] at h
  intro hp
  obtain ⟨x, hx, rfl⟩ := List.mem_map.1 hp
  simpa using h x hx

/-- What a call at `pc` that goes on at `pc'` has to know for the invariant to stay. -/
theorem CmInv.goto (H : CmInv my s) {pc' : Call} (hholds : pc'.holds → s.holder = some t)
    (habsent : ∀ p, pc'.absent my = some p → s.established.lookup p = none)
    (hpresent : ∀ x, pc'.present = some x → s.established.lookup x.1 = some x.2) :
    CmInv my (s.goto t pc') where
  held t' := by
    rcases eq_or_ne t' t with rfl | hne
    · simpa only [CmState.goto, Function.update_self] using hholds
    · simpa only [CmState.goto, Function.update_of_ne hne] using H.held t'
  locked := H.locked
  nodup := H.nodup
  absent t' := by
    rcases eq_or_ne t' t with rfl | hne
    · simpa only [CmState.goto, Function.update_self] using habsent
    · simpa only [CmState.goto, Function.update_of_ne hne] using H.absent t'
  present t' := by
    rcases eq_or_ne t' t with rfl | hne
    · simpa only [CmState.goto, Function.update_self] using hpresent
    · simpa only [CmState.goto, Function.update_of_ne hne] using H.present t'

/-- The holder changes the lock and the connections, provided no other call is in between. -/
theorem CmInv.alone {k : Call} (hcalls : s'.calls = Function.update s.calls t k)
    (hother : ∀ t' ≠ t, (s.calls t').holds = false) (hholds : k.holds → s'.holder = some t)
    (hlocked : s'.mu = kUnlocked → s'.holder = none) (hnodup : (s'.established.map Prod.fst).Nodup)
    (habsent : k.absent my = none)
    (hpresent : ∀ x, k.present = some x → s'.established.lookup x.1 = some x.2) : CmInv my s' where
  held t' h := by
    rw [hcalls] at h
    rcases eq_or_ne t' t with rfl | hne
    · rw [Function.update_self] at h
      exact hholds h
    · rw [Function.update_of_ne hne, hother t' hne] at h
      cases h
  locked := hlocked
  nodup := hnodup
  absent t' p h := by
    rw [hcalls] at h
    rcases eq_or_ne t' t with rfl | hne
    · rw [Function.update_self, habsent] at h
      cases h
    · rw [Function.update_of_ne hne] at h
      have h1 := Call.holds_of_absent h
      rw [hother t' hne] at h1
      cases h1
  present t' x h := by
    rw [hcalls] at h
    rcases eq_or_ne t' t with rfl | hne
    · rw [Function.update_self] at h
      exact hpresent x h
    · rw [Function.update_of_ne hne] at h
      have h1 := Call.holds_of_present h
      rw [hother t' hne] at h1
      cases h1

theorem CmInv.effect (H : CmInv my s) (h : CmEffect my s t (s.calls t) s') : CmInv my s' := by
  cases h with
  | spin => exact H
  | goto pc' b hholds habsent hpresent =>
    have h1 : CmInv my (s.goto t pc') := by
      refine H.goto (fun h => H.held t (hholds h)) (fun p hp => ?_) fun x hx => ?_
      · rcases habsent p hp with h1 | h1
        · exact H.absent t p h1
        · exact h1
      · rw [hpresent] at hx
        cases hx
    exact ⟨h1.held, h1.locked, h1.nodup, h1.absent, h1.present⟩
  | acquire id pc' hmu habsent hpresent =>
    refine CmInv.alone (t := t) rfl (fun t' _ => ?_) (fun _ => rfl) (fun h => ?_) H.nodup habsent
      fun x hx => ?_
    · rw [Bool.eq_false_iff]
      intro h
      have h1 := H.held t' h
      rw [H.locked hmu] at h1
      cases h1
    · simp only [kUnlocked] at h
      omega
    · rw [hpresent] at hx
      cases hx
  | release pc' hpc hholds habsent hpresent =>
    refine CmInv.alone (t := t) rfl (fun t' hne => H.other_not_holds hpc hne) (fun h => ?_)
      (fun _ => rfl) H.nodup habsent fun x hx => ?_
    · rw [hholds] at h
      cases h
    · rw [hpresent] at hx
      cases hx
  | emplace p c pc' hpc hp habsent hpresent =>
    have h1 := H.absent t p hp
    refine CmInv.alone (t := t) (k := pc') ?_ (fun t' hne => H.other_not_holds hpc hne)
      (fun _ => ?_) (fun h => ?_) ?_ habsent fun x hx => ?_
    · simp only [CmState.goto, emplace_calls]
    · simp only [CmState.goto, emplace_holder]
      exact H.held t hpc
    · simp only [CmState.goto, emplace_holder, emplace_mu] at h ⊢
      exact H.locked h
    · simp only [CmState.goto, established_emplace p c h1, List.map_cons]
      exact List.nodup_cons.2 ⟨not_mem_of_lookup_none h1, H.nodup⟩
    · rw [hpresent x hx]
      simp only [CmState.goto, established_emplace p c h1, List.lookup_cons_self]
  | erase p pc' hpc habsent hpresent =>
    refine CmInv.alone (t := t) rfl (fun t' hne => H.other_not_holds hpc hne)
      (fun _ => H.held t hpc) H.locked ?_ habsent fun x hx => ?_
    · exact H.nodup.sublist (List.filter_sublist.map Prod.fst)
    · rw [hpresent] at hx
      cases hx

theorem CmInv.step {e : CmEvent} (H : CmInv my s) (hok : NoGiveUp my s e)
    (h : cmStep my s e = some s') : CmInv my s' :=
  H.effect (cmStep_effect h hok)

end Inv

/-! ## Accesses without the lock -/

/-- The call is not on a path that goes back to the connections after its `Release`. -/
def Call.clean : Call → Bool
  | connectFoundRelease _ | connectFoundGet _ | connectDupRelease _ | connectDupGet _
  | loopbackRelease | loopbackGet | requestReject _ _ | requestRejectRelease | requestTrace => false
  | _ => true

/-- The step does not begin such a path, nor does `OnDisconnect` give up to acquire the lock: the
peer of `Connect` and of a connect request is not connected yet, and the node does not connect to
itself. -/
def LockKept (my : ℕ) (s : CmState) : CmEvent → Prop
  | .step t o =>
    match s.calls t with
    | .connectFind peer => s.established.lookup peer = none
    | .loopbackEmplace _ => o ≠ .ok
    | .requestFind peer _ => s.established.lookup peer = none ∧ peer ∉ s.requested
    | .disconnectAcquire _ _ => s.mu ≠ my
    | _ => True
  | _ => True

instance (my : ℕ) (s : CmState) (e : CmEvent) : Decidable (LockKept my s e) := by
  unfold LockKept
  split
  · split <;> infer_instance
  · infer_instance

section Clean

variable {my t : ℕ} {s s' : CmState} {o : Outcome}

theorem LockKept.noGiveUp {e : CmEvent} (h : LockKept my s e) : NoGiveUp my s e := by
  cases e with
  | step t o =>
    intro peer c hpc
    simp only [LockKept, hpc] at h
    exact h
  | _ => trivial

theorem acquire_clean {id : ℕ} {won lost : Call} (hpc : (s.calls t).clean) (hwon : won.clean)
    (hlost : lost.clean) : ((s.acquire my t id won lost).calls t).clean := by
  unfold CmState.acquire
  split_ifs
  · simpa only [CmState.goto, Function.update_self] using hwon
  · simpa only [CmState.goto, Function.update_self] using hlost
  · exact hpc

theorem connectStep_clean {pc : Call} (H : CmInv my s) (hpc : s.calls t = pc)
    (hkept : LockKept my s (.step t o)) (hclean : pc.clean)
    (h : connectStep my s t pc o = some s') : (s'.calls t).clean := by
  simp only [LockKept, hpc] at hkept
  unfold connectStep at h
  split at h
  · obtain rfl := Option.some.inj h
    exact acquire_clean (by rw [hpc]; exact hclean) rfl rfl
  · simp only [hkept, Option.some.injEq] at h
    subst h
    simp [CmState.goto, Call.clean]
  case h_12 peer c =>
    have h1 := H.absent t peer (by rw [hpc]; rfl)
    simp only [h1, Option.some.injEq] at h
    subst h
    simp [CmState.goto, Call.clean]
  case h_5 | h_6 =>
    obtain rfl := Option.some.inj h
    simp only [CmState.goto, Function.update_self]
    split_ifs <;> rfl
  case h_8 =>
    obtain rfl := Option.some.inj h
    rw [hpc]
    exact hclean
  case h_18 =>
    obtain ⟨c, -, rfl⟩ := Option.map_eq_some_iff.1 h
    simp [CmState.goto, Call.clean]
  case h_21 => simp at hkept
  case h_25 => cases h
  all_goals first
    | exact absurd hclean Bool.false_ne_true
    | (obtain rfl := Option.some.inj h
       simp [CmState.goto, CmState.release, Call.clean])

theorem getStep_clean {pc : Call} (hpc : s.calls t = pc) (hclean : pc.clean)
    (h : getStep my s t pc = some s') : (s'.calls t).clean := by
  unfold getStep at h
  split at h
  · obtain rfl := Option.some.inj h
    exact acquire_clean (by rw [hpc]; exact hclean) rfl rfl
  · split at h <;> obtain rfl := Option.some.inj h <;> simp [CmState.goto, Call.clean]
  · obtain rfl := Option.some.inj h
    simp [CmState.goto, CmState.release, Call.clean]
  · cases h

theorem requestStep_clean {pc : Call} (hpc : s.calls t = pc) (hkept : LockKept my s (.step t o))
    (hclean : pc.clean) (h : requestStep my s t pc = some s') : (s'.calls t).clean := by
  simp only [LockKept, hpc] at hkept
  unfold requestStep at h
  split at h
  · obtain rfl := Option.some.inj h
    exact acquire_clean (by rw [hpc]; exact hclean) rfl rfl
  case h_3 =>
    rw [if_neg (by simp [hkept])] at h
    obtain rfl := Option.some.inj h
    simp [CmState.goto, Call.clean]
  case h_10 => cases h
  all_goals first
    | exact absurd hclean Bool.false_ne_true
    | (obtain rfl := Option.some.inj h
       simp [CmState.goto, CmState.release, Call.clean])

theorem disconnectStep_clean {pc : Call} (hpc : s.calls t = pc) (hclean : pc.clean)
    (h : disconnectStep my s t pc = some s') : (s'.calls t).clean := by
  unfold disconnectStep at h
  split at h
  · obtain rfl := Option.some.inj h
    exact acquire_clean (by rw [hpc]; exact hclean) rfl rfl
  · obtain rfl := Option.some.inj h
    simp only [CmState.goto, Function.update_self]
    split_ifs <;> rfl
  · obtain rfl := Option.some.inj h
    simp [CmState.goto, Call.clean]
  · obtain rfl := Option.some.inj h
    simp [CmState.goto, CmState.release, Call.clean]
  · cases h

theorem cmStep_clean {e : CmEvent} (H : CmInv my s) (hkept : LockKept my s e)
    (hclean : ∀ t, (s.calls t).clean) (h : cmStep my s e = some s') (t : ℕ) :
    (s'.calls t).clean := by
  rcases eq_or_ne t e.thread with rfl | hne
  · cases e with
    | step t o =>
      rcases cmStep_step h with h | ⟨-, h | h | h⟩
      · exact connectStep_clean H rfl hkept (hclean t) h
      · exact getStep_clean rfl (hclean t) h
      · exact requestStep_clean rfl hkept (hclean t) h
      · exact disconnectStep_clean rfl (hclean t) h
    | _ =>
      simp only [cmStep] at h
      split_ifs at h <;> obtain rfl := Option.some.inj h <;>
        simp [CmState.goto, CmEvent.thread, Call.clean]
  · rw [(cmStep_effect h hkept.noGiveUp).calls_of_ne hne]
    exact hclean t

theorem Call.holds_of_touches {pc : Call} (hclean : pc.clean) (h : pc.touches) : pc.holds := by
  cases pc <;> first | rfl | exact absurd hclean Bool.false_ne_true | cases h

theorem Call.holds_of_releases {pc : Call} (h : pc.releases) : pc.holds := by
  cases pc <;> first | rfl | cases h

end Clean

/-- In a run whose steps keep to the lock, whoever reads or modifies the established connections, or
releases the lock, holds it. -/
theorem established_guarded (my : ℕ) (es : List CmEvent) (s : CmState)
    (hr : run (cmStep my) cmInit es = some s) (hm : Meets (cmStep my) (LockKept my) cmInit es)
    (t : ℕ) : ((s.calls t).touches ∨ (s.calls t).releases) → s.holder = some t := by
  have H : CmInv my s ∧ ∀ t, (s.calls t).clean := by
    refine run_inv (I := fun s => CmInv my s ∧ ∀ t, (s.calls t).clean) (fun s e s' H hok hs => ?_)
      hr hm ⟨cmInv_init my, fun t => rfl⟩
    exact ⟨H.1.step hok.noGiveUp hs, cmStep_clean H.1 hok H.2 hs⟩
  intro h
  rcases h with h | h
  · exact H.1.held t (Call.holds_of_touches (H.2 t) h)
  · exact H.1.held t (Call.holds_of_releases h)

/-- Node 1 accepts a connect request of node 3. -/
def acceptRun : List CmEvent :=
  [.onConnectRequest 0 3 7, .step 0 .ok, .step 0 .ok, .step 0 .ok, .step 0 .ok, .step 0 .ok]

theorem established_guarded_acceptRun : ∃ s, run (cmStep 1) cmInit
    (acceptRun ++ [.onDisconnect 0 3 7, .connect 1 2, .step 0 .ok, .step 1 .ok]) = some s ∧
    s.calls 0 = .disconnectFind 3 7 ∧ s.calls 1 = .connectAcquire 2 ∧ s.holder = some 0 := by
  obtain ⟨s, hs, hg⟩ := Option.map_eq_some_iff.1
    (show (run (cmStep 1) cmInit
      (acceptRun ++ [.onDisconnect 0 3 7, .connect 1 2, .step 0 .ok, .step 1 .ok])).map
      (fun s => (s.calls 0, s.calls 1)) = some (.disconnectFind 3 7, .connectAcquire 2) by
      decide +kernel)
  simp only [Prod.mk.injEq] at hg
  refine ⟨s, hs, hg.1, hg.2, established_guarded 1 _ s hs (by decide +kernel) 0 (.inl ?_)⟩
  rw [hg.1]
  rfl

/-- While a call of `Connect` on node 1 has the lock, node 3 disconnects: `OnDisconnect` goes to the
connections without the lock, and releases that of the other call. -/
theorem disconnect_unguarded : (∃ s, run (cmStep 1) cmInit
      (acceptRun ++ [.connect 1 2, .step 1 .ok, .onDisconnect 0 3 7, .step 0 .ok]) = some s ∧
      (s.calls 0).touches ∧ s.holder = some 1) ∧
    ∃ s, run (cmStep 1) cmInit
      (acceptRun ++ [.connect 1 2, .step 1 .ok, .onDisconnect 0 3 7, .step 0 .ok, .step 0 .ok,
        .step 0 .ok]) = some s ∧ (s.calls 0).releases ∧ s.holder = some 1 := by
  constructor
  · obtain ⟨s, hs, hg⟩ := Option.map_eq_some_iff.1
      (show (run (cmStep 1) cmInit
        (acceptRun ++ [.connect 1 2, .step 1 .ok, .onDisconnect 0 3 7, .step 0 .ok])).map
        (fun s => ((s.calls 0).touches, s.holder)) = some (true, some 1) by decide +kernel)
    simp only [Prod.mk.injEq] at hg
    exact ⟨s, hs, hg⟩
  · obtain ⟨s, hs, hg⟩ := Option.map_eq_some_iff.1
      (show (run (cmStep 1) cmInit
        (acceptRun ++ [.connect 1 2, .step 1 .ok, .onDisconnect 0 3 7, .step 0 .ok, .step 0 .ok,
          .step 0 .ok])).map
        (fun s => ((s.calls 0).releases, s.holder)) = some (true, some 1) by decide +kernel)
    simp only [Prod.mk.injEq] at hg
    exact ⟨s, hs, hg⟩

end Rome
