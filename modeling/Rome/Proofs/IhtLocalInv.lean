import Rome.Proofs.IhtLocalTurn

/-!
# What holds of the local table while threads share it

In every state there is a settled memory that is sound, and each thread stands on the way of its
key. A step of a thread is a turn on the settled memory, and changes it in the thread's own bucket.
-/

namespace Rome.Carumap

open Machine

variable {ι K V : Type*} [DecidableEq K]

/-- What a thread's step from `ph` to `ph'` does to the settled memory: nothing; what an iteration
does with which the call returns, or rehashes; or nothing, when the thread leaves its call or makes
one. -/
inductive Turn (P : Params K) (q : Heap K V) : Phase K V → Phase K V → Heap K V → Prop
  | walk {ph ph' : Phase K V} (hw : ph'.work = ph.work) : Turn P q ph ph' q
  | done {ph ph' : Phase K V} {n : ℕ} {f : Frame K V} {fresh : List ℕ} {r : Option V}
    {q' : Heap K V} (hw : ph.work = some (n, f.call, none))
    (hw' : ph'.work = some (n, f.call, some r)) (hf : FrameOk P q f)
    (hp : ∀ rs, Placed P ⟨q, some f, rs⟩ (.iter fresh))
    (hi : ∀ rs, iter P ⟨q, some f, rs⟩ f fresh = some ⟨q', none, rs ++ [(f.call, r)]⟩) :
    Turn P q ph ph' q'
  | grow {n : ℕ} {f : Frame K V} {fresh : List ℕ} {p : ℕ} {q' : Heap K V} (hf : FrameOk P q f)
    (hi : ∀ rs, iter P ⟨q, some f, rs⟩ f fresh = some ⟨q', some f, rs⟩) :
    Turn P q (.rehash n f) (.link n f p .pUnlocked none) q'
  | ret {n : ℕ} {c : Call K V} {r : Option V} : Turn P q (.ret n c r) .idle q
  | call {n : ℕ} {f : Frame K V} : Turn P q .idle (.load n f) q

section Turns

variable {P : Params K} {h h' q q' : Heap K V} {f : Frame K V} {fresh : List ℕ} {e p b : ℕ}
  {l₀ : List (K × V)} {ph : Phase K V}

/-- An iteration of a call that has nothing to rehash. -/
theorem placed_of_not_full (hl : q.bucket f.curr (f.bucket P) = ⟨e, .eUnlocked⟩)
    (he : e = 0 ∨ ∃ l₀, q.elist e = some l₀ ∧ f.call.onElist P l₀ ≠ .full)
    (rs : List (Call K V × Option V)) : Placed P ⟨q, some f, rs⟩ (.iter fresh) := by
  obtain ⟨c, curr, depth, count⟩ := f
  rintro x hx
  unfold rehashes at hx
  split at hx
  swap
  · cases hx
  rename_i key val curr' depth' count' heq
  simp only [Option.some.injEq, Frame.mk.injEq] at heq
  obtain ⟨rfl, rfl, rfl, rfl⟩ := heq
  rw [show q.bucket curr (levelHash P key (depth + 1) count) = ⟨e, .eUnlocked⟩ from hl] at hx
  rcases he with rfl | ⟨l₀, h1, h2⟩
  · simp at hx
  · simp only [h1, Option.bind_some] at hx
    split_ifs at hx with h3 h4
    · exact absurd (by simp [Call.onElist, h4.1, not_lt.2 h4.2]) h2
    all_goals cases hx

omit [DecidableEq K] in
theorem SafeAt.of_frame (H : Sound P q) (hf : FrameOk P q f) :
    SafeAt P (⟨q, some f, []⟩ : State K V) :=
  ⟨H, fun f' hf' => by
    obtain rfl := Option.some.inj hf'
    exact ⟨hf.path.reached H, hf.count⟩⟩

/-- What a thread knows stays while another writes a bucket that leads to no P-List. -/
theorem PhaseOk.keeps (H : Sound P q) (hph : PhaseOk P h q ph) (hk : Keeps h h')
    (hhas : ∀ p b, h.Has p b ↔ q.Has p b) : PhaseOk P h' q ph := by
  cases ph with
  | down n f =>
    obtain ⟨h1, h2⟩ := hph
    exact ⟨h1, by rw [(hk _ _ ((hhas _ _).2 (h1.has H)) h2).2]; exact h2⟩
  | _ => exact hph

/-- What a thread knows stays while another changes what its own bucket leads to. -/
theorem PhaseOk.mono (H : Sound P q) (hph : PhaseOk P h q ph) (hL : Local q q' p b)
    (hne : ph.held P ≠ some (p, b)) : PhaseOk P h q' ph := by
  have hout : ∀ {f : Frame K V}, some (f.curr, f.bucket P) ≠ some (p, b) →
      ¬ (f.curr = p ∧ f.bucket P = b) := by
    rintro f h1 ⟨rfl, rfl⟩
    exact h1 rfl
  cases ph with
  | idle => trivial
  | load n f => exact FrameOk.mono H hL hph
  | cas n f => exact FrameOk.mono H hL hph
  | down n f => exact ⟨hph.1.mono H hL, hph.2⟩
  | locked n f =>
    obtain ⟨h1, h2⟩ := hph
    refine ⟨h1.mono H hL, ?_⟩
    rw [(hL.bucket _ _ (hout hne) (h1.has H)).2]
    exact h2
  | write n f e l r =>
    obtain ⟨h1, h2, h3, l₀, h4, h5⟩ := hph
    have hE := hL.elist _ _ (hout hne) (h1.has H) (by rw [h2]) (by rw [h2]; exact h3)
    rw [h2] at hE
    exact ⟨h1.mono H hL, ((hL.bucket _ _ (hout hne) (h1.has H)).2).trans h2, h3, l₀,
      hE.trans h4, h5⟩
  | rehash n f =>
    obtain ⟨h1, e, l₀, h2, h3, h4, h5⟩ := hph
    have hE := hL.elist _ _ (hout hne) (h1.has H) (by rw [h2]) (by rw [h2]; exact h3)
    rw [h2] at hE
    exact ⟨h1.mono H hL, e, l₀, ((hL.bucket _ _ (hout hne) (h1.has H)).2).trans h2, h3,
      hE.trans h4, h5⟩
  | link n f base lock r =>
    obtain ⟨h1, h2, h3⟩ := hph
    exact ⟨h1.mono H hL, ((hL.bucket _ _ (hout hne) (h1.has H)).2).trans h2, h3⟩
  | unlock n f lock r =>
    obtain ⟨h1, h2, h3⟩ := hph
    refine ⟨h1.mono H hL, ?_, h3⟩
    rw [(hL.bucket _ _ (hout hne) (h1.has H)).2]
    exact h2
  | ret n c r => trivial

omit [DecidableEq K] in
theorem Local.fill (H : Sound P q) (hb : q.Has p b) (hl : (q.bucket p b).lock = .eUnlocked)
    (he : q.elist e = none) (l : List (K × V)) (x : Bucket) :
    Local q ((q.setElist e (some l)).setBucket p b x) p b := by
  refine Local.setBucket (E := Function.update q.elist e (some l)) hb hl x
    fun p' b' _ hh hl' hne => Function.update_of_ne ?_ ..
  rintro heq
  obtain ⟨l', h1, -⟩ := H.leaf p' b' hh hl' hne
  rw [heq, he] at h1
  cases h1

omit [DecidableEq K] in
theorem Local.store (H : Sound P q) (hb : q.Has p b) (hl : q.bucket p b = ⟨e, .eUnlocked⟩)
    (l : List (K × V)) (x : Bucket) : Local q ((q.setElist e (some l)).setBucket p b x) p b := by
  refine Local.setBucket (E := Function.update q.elist e (some l)) hb (by rw [hl]) x
    fun p' b' hpb hh hl' hne => Function.update_of_ne ?_ ..
  rintro heq
  exact hpb (H.own p' b' p b hh hb hl' (by rw [hl]) hne (by rw [heq, hl]))

omit [DecidableEq K] in
theorem Local.grow (H : Sound P q) (hb : q.Has f.curr (f.bucket P)) (hc : 0 < f.count)
    (hl : q.bucket f.curr (f.bucket P) = ⟨e, .eUnlocked⟩) (h1 : q.elist e = some l₀)
    (ha : q.allocatable fresh = true)
    (hr : rehash P q f.curr f.count f.depth (f.bucket P) fresh = some (h', p)) (x : Bucket) :
    Local q (h'.setBucket f.curr (f.bucket P) x) f.curr (f.bucket P) := by
  obtain ⟨blocks, rest, h₁, bs, rfl, hR, rfl⟩ := rehash_spec hc (by rw [hl]; exact h1) ha hr
  have hnone : q.plist p = none := ((Heap.unused ha).free _ List.mem_cons_self).2.2
  have hnot : ∀ {p' b'}, q.Has p' b' → p' ≠ p := by
    rintro p' b' ⟨bs', h2, -⟩ rfl
    rw [hnone] at h2
    cases h2
  set h₂ := (h₁.setPlist p bs).setElist (q.bucket f.curr (f.bucket P)).base none with hh₂
  have hpl : ∀ {p'}, p' ≠ p → h₂.plist p' = q.plist p' := fun hne => by
    rw [hh₂]
    change Function.update h₁.plist p (some bs) _ = _
    rw [Function.update_of_ne hne, hR.plist]
  have hhas : ∀ {p' b'}, q.Has p' b' → h₂.Has p' b' := fun hh => by
    unfold Heap.Has
    rw [hpl (hnot hh)]
    exact hh
  refine ⟨by rw [hl], fun p' b' hne hh => ⟨(Heap.has_setBucket (hhas hb)).2 (hhas hh), ?_⟩,
    fun p' b' hpb hh hl' hne => ?_⟩
  · rw [Heap.bucket_setBucket_ne hne]
    simp only [Heap.bucket, hpl (hnot hh)]
  · obtain ⟨l', h2, -⟩ := H.leaf p' b' hh hl' hne
    change Function.update h₁.elist (q.bucket f.curr (f.bucket P)).base none _ = _
    rw [Function.update_of_ne, hR.frame]
    · intro hm
      rw [((Heap.unused ha).tail.free _ hm).2.1] at h2
      cases h2
    · rintro heq
      exact hpb (H.own p' b' _ _ hh hb hl' (by rw [hl]) hne heq)

end Turns

/-- What holds in every state, the settled memory being `q`. -/
structure ThreadsInv (P : Params K) (s : Threads ι K V) (q : Heap K V) : Prop where
  settled : Settled P s.heap s.phase q
  sound : Sound P q
  phase : ∀ t, PhaseOk P s.heap q (s.phase t)

variable [DecidableEq ι]

/-- The thread `t` is at `ph'` after a step, the memory is `h'` and the settled one `q'`. -/
structure Stepped (P : Params K) (s : Threads ι K V) (t : ι) (q h' : Heap K V) (ph' : Phase K V)
    (q' : Heap K V) : Prop where
  settled : Settled P h' (Function.update s.phase t ph') q'
  sound : Sound P q'
  ok : PhaseOk P h' q' ph'
  turn : Turn P q (s.phase t) ph' q'
  keeps : Keeps s.heap h'
  change : q' = q ∨ ∃ p b, (∀ t', t' ≠ t → (s.phase t').held P ≠ some (p, b)) ∧ Local q q' p b

section Steps

variable {P : Params K} {s : Threads ι K V} {q : Heap K V} {t : ι} {n : ℕ} {f : Frame K V}
  {ph' : Phase K V} {e : ℕ} {l : List (K × V)} {r : Option V}

/-- A thread that has no lock goes on without one. -/
theorem ThreadsInv.walk (H : ThreadsInv P s q) (h0 : (s.phase t).held P = none)
    (h1 : ph'.held P = none) (hok : PhaseOk P s.heap q ph')
    (hturn : Turn P q (s.phase t) ph' q) : Stepped P s t q s.heap ph' q :=
  ⟨H.settled.walk h0 h1, H.sound, hok, hturn, Keeps.refl _, .inl rfl⟩

/-- A thread that has locked its bucket goes on with it, and changes no memory. -/
theorem ThreadsInv.stay (H : ThreadsInv P s q) {p b : ℕ} (h0 : (s.phase t).held P = some (p, b))
    (h1 : ph'.held P = some (p, b)) (hs : q.bucket p b = ph'.settle (s.heap.bucket p b))
    (hok : PhaseOk P s.heap q ph') (hturn : Turn P q (s.phase t) ph' q) :
    Stepped P s t q s.heap ph' q where
  settled := by
    refine H.settled.own H.settled.elist H.settled.plist (fun x hx => ?_) (fun x hx => ?_)
      (fun t' ht hx => ht (H.settled.excl t' t _ hx h0)) (fun c d _ => .inl ⟨rfl, rfl⟩)
      (fun _ => ⟨(H.settled.held t p b h0).1, hs⟩) fun h2 => ?_
    · exact (Option.some.inj (h0.symm.trans hx)).symm
    · exact (Option.some.inj (h1.symm.trans hx)).symm
    · rw [h1] at h2
      cases h2
  sound := H.sound
  ok := hok
  turn := hturn
  keeps := Keeps.refl _
  change := .inl rfl

/-- A thread that takes the lock of its bucket, or has it, writes the bucket. -/
theorem ThreadsInv.put (H : ThreadsInv P s q) {p b : ℕ} {x : Bucket} (hb : q.Has p b)
    (hl : (s.heap.bucket p b).lock ≠ .pUnlocked)
    (h0 : (s.phase t).held P = some (p, b) ∨ (s.phase t).held P = none
      ∧ (s.heap.bucket p b).lock ≠ .eLocked)
    (h1 : ph'.held P = some (p, b) ∧ x.lock = .eLocked ∧ q.bucket p b = ph'.settle x
      ∨ ph'.held P = none ∧ q.bucket p b = x)
    (hok : PhaseOk P (s.heap.setBucket p b x) q ph') (hturn : Turn P q (s.phase t) ph' q) :
    Stepped P s t q (s.heap.setBucket p b x) ph' q where
  settled := by
    have hb' := H.settled.has.2 hb
    refine H.settled.own (p := p) (b := b) H.settled.elist (fun c => ?_) (fun y hy => ?_)
      (fun y hy => ?_) (fun t' ht hy => ?_)
      (fun c d hcd => .inl ⟨Heap.bucket_setBucket_ne hcd, rfl⟩) (fun h2 => ?_) fun h2 => ?_
    · rw [Heap.map_length_setBucket hb']
      exact H.settled.plist c
    · rcases h0 with h0 | ⟨h0, -⟩ <;> rw [h0] at hy
      · exact (Option.some.inj hy).symm
      · cases hy
    · rcases h1 with ⟨h1, -⟩ | ⟨h1, -⟩ <;> rw [h1] at hy
      · exact (Option.some.inj hy).symm
      · cases hy
    · rcases h0 with h0 | ⟨-, h0⟩
      · exact ht (H.settled.excl t' t _ hy h0)
      · exact H.settled.not_held h0 t' hy
    · rw [Heap.bucket_setBucket_self hb']
      rcases h1 with ⟨-, h3, h4⟩ | ⟨h1, -⟩
      · exact ⟨h3, h4⟩
      · rw [h1] at h2
        cases h2
    · rw [Heap.bucket_setBucket_self hb']
      rcases h1 with ⟨h1, -⟩ | ⟨-, h3⟩
      · rw [h1] at h2
        cases h2
      · exact h3
  sound := H.sound
  ok := hok
  turn := hturn
  keeps := Keeps.setBucket (E := s.heap.elist) (H.settled.has.2 hb) hl x
  change := .inl rfl

theorem ThreadsInv.load (H : ThreadsInv P s q) (hph : s.phase t = .load n f) :
    Stepped P s t q s.heap (acquireFrom n f (s.heap.bucket f.curr (f.bucket P)).lock) q := by
  have hf := H.phase t
  rw [hph] at hf
  cases hl : (s.heap.bucket f.curr (f.bucket P)).lock with
  | eLocked => exact H.walk (by rw [hph]; rfl) rfl hf (.walk (by rw [hph]; rfl))
  | eUnlocked => exact H.walk (by rw [hph]; rfl) rfl hf (.walk (by rw [hph]; rfl))
  | pUnlocked => exact H.walk (by rw [hph]; rfl) rfl ⟨hf, hl⟩ (.walk (by rw [hph]; rfl))

theorem ThreadsInv.cas_take (H : ThreadsInv P s q) (hph : s.phase t = .cas n f)
    (hl : (s.heap.bucket f.curr (f.bucket P)).lock = .eUnlocked) :
    Stepped P s t q (s.heap.setLock f.curr (f.bucket P) .eLocked) (.locked n f) q := by
  have hf : FrameOk P q f := by
    have := H.phase t
    rwa [hph] at this
  have hq := H.settled.bucket_eq (by rw [hl]; decide)
  refine H.put (hf.has H.sound) (by rw [hl]; decide)
    (.inr ⟨by rw [hph]; rfl, by rw [hl]; decide⟩) (.inl ⟨rfl, rfl, ?_⟩) ⟨hf, ?_⟩
    (.walk (by rw [hph]; rfl))
  · change q.bucket f.curr (f.bucket P) = ⟨(s.heap.bucket f.curr (f.bucket P)).base, .eUnlocked⟩
    rw [hq, ← hl]
  · rw [hq, hl]

theorem ThreadsInv.cas_miss (H : ThreadsInv P s q) (hph : s.phase t = .cas n f) :
    Stepped P s t q s.heap (if (s.heap.bucket f.curr (f.bucket P)).lock = .pUnlocked
      then .down n f else .load n f) q := by
  have hf := H.phase t
  rw [hph] at hf
  split_ifs with hl
  · exact H.walk (by rw [hph]; rfl) rfl ⟨hf, hl⟩ (.walk (by rw [hph]; rfl))
  · exact H.walk (by rw [hph]; rfl) rfl hf (.walk (by rw [hph]; rfl))

theorem ThreadsInv.down (H : ThreadsInv P s q) (hph : s.phase t = .down n f) :
    Stepped P s t q s.heap (.load n (f.down (s.heap.bucket f.curr (f.bucket P)).base)) q := by
  have hf := H.phase t
  rw [hph] at hf
  obtain ⟨hf, hl⟩ := hf
  have hq := H.settled.bucket_eq (by rw [hl]; decide)
  have hd := hf.down H.sound (by rw [hq]; exact hl)
  rw [hq] at hd
  exact H.walk (by rw [hph]; rfl) rfl hd (.walk (by rw [hph]; rfl))

omit [DecidableEq ι] in
theorem ThreadsInv.has_of_held (H : ThreadsInv P s q) {p b : ℕ}
    (hx : (s.phase t).held P = some (p, b)) : q.Has p b := by
  have hf := H.phase t
  cases hph : s.phase t <;> simp only [hph, Phase.held, Option.some.injEq, Prod.mk.injEq,
    reduceCtorEq] at hx hf
  all_goals
    obtain ⟨rfl, rfl⟩ := hx
    exact FrameOk.has H.sound hf.1

omit [DecidableEq ι] in
/-- What a thread that has locked its bucket reads there. -/
theorem ThreadsInv.locked_bucket (H : ThreadsInv P s q) (hph : s.phase t = .locked n f) :
    FrameOk P q f ∧ q.bucket f.curr (f.bucket P)
      = ⟨(s.heap.bucket f.curr (f.bucket P)).base, .eUnlocked⟩ := by
  have hf := H.phase t
  rw [hph] at hf
  have hheld := (H.settled.held t f.curr (f.bucket P) (by rw [hph]; rfl)).2
  rw [hph] at hheld
  exact ⟨hf.1, hheld⟩

theorem ThreadsInv.locked_done (H : ThreadsInv P s q) (hph : s.phase t = .locked n f)
    {r : Option V}
    (hr : ((s.heap.bucket f.curr (f.bucket P)).base = 0 ∧ (∀ key val, f.call ≠ .insert key val)
        ∧ r = none)
      ∨ (s.heap.bucket f.curr (f.bucket P)).base ≠ 0
        ∧ ∃ l₀, s.heap.elist (s.heap.bucket f.curr (f.bucket P)).base = some l₀
          ∧ f.call.onElist P l₀ = .done r) :
    Stepped P s t q s.heap (.unlock n f .eUnlocked (some r)) q := by
  obtain ⟨hf, hl⟩ := H.locked_bucket hph
  rw [← H.settled.elist] at hr
  have hfull : (s.heap.bucket f.curr (f.bucket P)).base = 0
      ∨ ∃ l₀, q.elist (s.heap.bucket f.curr (f.bucket P)).base = some l₀
        ∧ f.call.onElist P l₀ ≠ .full := by
    rcases hr with ⟨h1, -⟩ | ⟨-, l₀, h1, h2⟩
    · exact .inl h1
    · exact .inr ⟨l₀, h1, by rw [h2]; simp⟩
  exact H.stay (by rw [hph]; rfl) rfl hl ⟨hf, by rw [hl], .inl ⟨rfl, rfl⟩⟩
    (.done (n := n) (by rw [hph]; rfl) rfl hf (placed_of_not_full hl hfull)
      (iter_done (hf.has H.sound) hl hr))

/-- A call that will write its E-List, or rehash it. -/
theorem ThreadsInv.locked_stay (H : ThreadsInv P s q) (hph : s.phase t = .locked n f)
    (h1 : ph'.held P = some (f.curr, f.bucket P)) (hw : ph'.work = some (n, f.call, none))
    (hs : ph'.settle (s.heap.bucket f.curr (f.bucket P))
      = ⟨(s.heap.bucket f.curr (f.bucket P)).base, .eUnlocked⟩)
    (hok : PhaseOk P s.heap q ph') : Stepped P s t q s.heap ph' q :=
  H.stay (by rw [hph]; rfl) h1 ((H.locked_bucket hph).2.trans hs.symm) hok
    (.walk (by rw [hph]; exact hw))

theorem sound_of_done (H : Sound P q) (hf : FrameOk P q f) {fresh : List ℕ} {q' : Heap K V}
    {r : Option V} (hi : ∀ rs, iter P ⟨q, some f, rs⟩ f fresh
      = some ⟨q', none, rs ++ [(f.call, r)]⟩) : Sound P q' :=
  ((SafeAt.of_frame H hf).iter rfl (hi [])).sound

/-- A thread changes what it has locked, and the settled memory there. -/
theorem ThreadsInv.commit (H : ThreadsInv P s q) {p b : ℕ} {h' q' : Heap K V}
    (h0 : (s.phase t).held P = some (p, b)) (h1 : ph'.held P = some (p, b))
    (helist : q'.elist = h'.elist)
    (hplist : ∀ c, (q'.plist c).map List.length = (h'.plist c).map List.length)
    (hkeep : ∀ c d, ¬ (c = p ∧ d = b) →
      (h'.bucket c d = s.heap.bucket c d ∧ q'.bucket c d = q.bucket c d)
        ∨ (q'.bucket c d = h'.bucket c d ∧ ∀ t', (s.phase t').held P ≠ some (c, d)))
    (hl : (h'.bucket p b).lock = .eLocked) (hs : q'.bucket p b = ph'.settle (h'.bucket p b))
    (hsound : Sound P q') (hok : PhaseOk P h' q' ph') (hturn : Turn P q (s.phase t) ph' q')
    (hk : Keeps s.heap h') (hL : Local q q' p b) : Stepped P s t q h' ph' q' where
  settled := by
    refine H.settled.own helist hplist (fun x hx => ?_) (fun x hx => ?_)
      (fun t' ht hx => ht (H.settled.excl t' t _ hx h0)) hkeep (fun _ => ⟨hl, hs⟩) fun h2 => ?_
    · exact (Option.some.inj (h0.symm.trans hx)).symm
    · exact (Option.some.inj (h1.symm.trans hx)).symm
    · rw [h1] at h2
      cases h2
  sound := hsound
  ok := hok
  turn := hturn
  keeps := hk
  change := .inr ⟨p, b, fun t' ht hx => ht (H.settled.excl t' t _ hx h0), hL⟩

theorem ThreadsInv.locked_fill (H : ThreadsInv P s q) (hph : s.phase t = .locked n f)
    (hbase : (s.heap.bucket f.curr (f.bucket P)).base = 0) {key : K} {val : V}
    (hc : f.call = .insert key val) (ha : s.heap.allocatable [e] = true) :
    Stepped P s t q (s.heap.setElist e (some [(key, val)])) (.link n f e .eUnlocked (some none))
      ((q.setElist e (some [(key, val)])).setBucket f.curr (f.bucket P) ⟨e, .eUnlocked⟩) := by
  obtain ⟨hf, hl⟩ := H.locked_bucket hph
  rw [hbase] at hl
  have hb := hf.has H.sound
  have hheld : (s.phase t).held P = some (f.curr, f.bucket P) := by rw [hph]; rfl
  rw [← H.settled.allocatable] at ha
  have he := ((Heap.unused ha).free _ List.mem_cons_self).2.1
  have hi := iter_fill hb hl hc ha
  have hL := Local.fill H.sound hb (by rw [hl]) he [(key, val)] ⟨e, .eUnlocked⟩
  have hself : ((q.setElist e (some [(key, val)])).setBucket f.curr (f.bucket P)
      ⟨e, .eUnlocked⟩).bucket f.curr (f.bucket P) = ⟨e, .eUnlocked⟩ :=
    Heap.bucket_setBucket_self (by exact hb)
  refine H.commit hheld rfl ?_ (fun c => ?_) (fun c d hcd => .inl ⟨rfl, ?_⟩)
    (H.settled.held t _ _ hheld).1 hself (sound_of_done H.sound hf hi)
    ⟨hf.mono H.sound hL, hself, .inl ⟨rfl, rfl⟩⟩
    (.done (by rw [hph]; rfl) rfl hf (placed_of_not_full hl (.inl rfl)) hi)
    (fun _ _ hh _ => ⟨hh, rfl⟩) hL
  · change Function.update q.elist e _ = Function.update s.heap.elist e _
    rw [H.settled.elist]
  · rw [Heap.map_length_setBucket (by exact hb)]
    exact H.settled.plist c
  · exact Heap.bucket_setBucket_ne hcd

theorem ThreadsInv.write (H : ThreadsInv P s q) (hph : s.phase t = .write n f e l r) :
    Stepped P s t q (s.heap.setElist e (some l)) (.unlock n f .eUnlocked (some r))
      ((q.setElist e (some l)).setBucket f.curr (f.bucket P) ⟨e, .eUnlocked⟩) := by
  have hf := H.phase t
  rw [hph] at hf
  obtain ⟨hf, hl, he, l₀, h1, h2⟩ := hf
  have hb := hf.has H.sound
  have hheld : (s.phase t).held P = some (f.curr, f.bucket P) := by rw [hph]; rfl
  obtain ⟨hlock, hset⟩ := H.settled.held t _ _ hheld
  have hi := iter_store hb hl he h1 h2
  have hL := Local.store H.sound hb hl l ⟨e, .eUnlocked⟩
  have hself : ((q.setElist e (some l)).setBucket f.curr (f.bucket P) ⟨e, .eUnlocked⟩).bucket
      f.curr (f.bucket P) = ⟨e, .eUnlocked⟩ := Heap.bucket_setBucket_self (by exact hb)
  refine H.commit hheld rfl ?_ (fun c => ?_) (fun c d hcd => .inl ⟨rfl, ?_⟩) hlock ?_
    (sound_of_done H.sound hf hi) ⟨hf.mono H.sound hL, by rw [hself], .inl ⟨rfl, rfl⟩⟩
    (.done (by rw [hph]; rfl) rfl hf (placed_of_not_full hl (.inr ⟨l₀, h1, by rw [h2]; simp⟩)) hi)
    (fun _ _ hh _ => ⟨hh, rfl⟩) hL
  · change Function.update q.elist e _ = Function.update s.heap.elist e _
    rw [H.settled.elist]
  · rw [Heap.map_length_setBucket (by exact hb)]
    exact H.settled.plist c
  · exact Heap.bucket_setBucket_ne hcd
  · rw [hself, ← hl, hset, hph]
    rfl

theorem ThreadsInv.rehash (H : ThreadsInv P s q) (hph : s.phase t = .rehash n f) {fresh : List ℕ}
    {h' : Heap K V} {p : ℕ} (ha : s.heap.allocatable fresh = true)
    (hr : Carumap.rehash P s.heap f.curr f.count f.depth (f.bucket P) fresh = some (h', p)) :
    ∃ q', Stepped P s t q h' (.link n f p .pUnlocked none) q' := by
  have hf := H.phase t
  rw [hph] at hf
  obtain ⟨hf, e, l₀, hl, he, h1, h2⟩ := hf
  have hb := hf.has H.sound
  have hheld : (s.phase t).held P = some (f.curr, f.bucket P) := by rw [hph]; rfl
  obtain ⟨hlock, hset⟩ := H.settled.held t _ _ hheld
  rw [← H.settled.allocatable] at ha
  have hbase : (q.bucket f.curr (f.bucket P)).base = (s.heap.bucket f.curr (f.bucket P)).base := by
    rw [hset, hph]
    rfl
  obtain ⟨bs, hpl, hr'⟩ := rehash_congr hr q H.settled.elist hbase
  set h₂ : Heap K V := ⟨h'.elist, Function.update q.plist p (some bs)⟩
  have hc : 0 < f.count := by
    rw [hf.count]
    exact P.buckets_pos _
  have hi := iter_grow hb hl he h1 h2 ha hr'
  have hL := Local.grow H.sound hb hc hl h1 ha hr' ⟨p, .pUnlocked⟩
  have hnone := ((Heap.unused ha).free _ (mem_of_rehash hr)).2.2
  have hnot : ∀ {c d}, q.Has c d → c ≠ p := by
    rintro c d ⟨bs', h3, -⟩ rfl
    rw [hnone] at h3
    cases h3
  have hold : ∀ {c d}, c ≠ p → h'.bucket c d = s.heap.bucket c d ∧ h₂.bucket c d = q.bucket c d :=
    fun hcp => by simp only [Heap.bucket, hpl, h₂, Function.update_of_ne hcp, and_self]
  have hhas : ∀ {c d}, q.Has c d → h₂.Has c d := fun hh => by
    unfold Heap.Has
    simp only [h₂, Function.update_of_ne (hnot hh)]
    exact hh
  have hself : (h₂.setBucket f.curr (f.bucket P) ⟨p, .pUnlocked⟩).bucket f.curr (f.bucket P)
      = ⟨p, .pUnlocked⟩ := Heap.bucket_setBucket_self (hhas hb)
  refine ⟨h₂.setBucket f.curr (f.bucket P) ⟨p, .pUnlocked⟩, H.commit hheld rfl rfl (fun c => ?_)
    (fun c d hcd => ?_) ?_ hself ((SafeAt.of_frame H.sound hf).iter rfl (hi [])).sound
    ⟨hf.mono H.sound hL, hself, .inr ⟨rfl, rfl⟩⟩ (hph ▸ .grow hf hi) (fun c d hh _ => ?_) hL⟩
  · rw [Heap.map_length_setBucket (hhas hb), hpl]
    by_cases hcp : c = p
    · simp [h₂, hcp]
    · simp only [h₂, Function.update_of_ne hcp, H.settled.plist]
  · rw [Heap.bucket_setBucket_ne hcd]
    by_cases hcp : c = p
    · refine .inr ⟨?_, fun t' hx => ?_⟩
      · simp only [Heap.bucket, h₂, hpl, hcp, Function.update_self]
      · exact hnot (H.has_of_held hx) hcp
    · exact .inl (hold hcp)
  · rw [(hold (hnot hb)).1]
    exact hlock
  · have hcp := hnot (H.settled.has.1 hh)
    refine ⟨?_, (hold hcp).1⟩
    unfold Heap.Has
    rw [hpl, Function.update_of_ne hcp]
    exact hh

theorem ThreadsInv.link (H : ThreadsInv P s q) {base : ℕ} {lock : LockState}
    {r : Option (Option V)} (hph : s.phase t = .link n f base lock r) :
    Stepped P s t q (s.heap.setBase f.curr (f.bucket P) base) (.unlock n f lock r) q := by
  have hf := H.phase t
  rw [hph] at hf
  obtain ⟨hf, hl, hr⟩ := hf
  have hheld : (s.phase t).held P = some (f.curr, f.bucket P) := by rw [hph]; rfl
  have hlock := (H.settled.held t _ _ hheld).1
  exact H.put (hf.has H.sound) (by rw [hlock]; decide) (.inl hheld) (.inl ⟨rfl, hlock, hl⟩)
    ⟨hf, by rw [hl], hr⟩ (.walk (by rw [hph]; rfl))

theorem ThreadsInv.unlock (H : ThreadsInv P s q) {lock : LockState}
    {r : Option (Option V)} (hph : s.phase t = .unlock n f lock r) :
    Stepped P s t q (s.heap.setLock f.curr (f.bucket P) lock) (unlocked n f r) q := by
  have hf := H.phase t
  rw [hph] at hf
  obtain ⟨hf, hl, hr⟩ := hf
  have hheld : (s.phase t).held P = some (f.curr, f.bucket P) := by rw [hph]; rfl
  obtain ⟨hlock, hset⟩ := H.settled.held t _ _ hheld
  rw [hph] at hset
  refine H.put (hf.has H.sound) (by rw [hlock]; decide) (.inl hheld) (.inr ⟨?_, hset⟩) ?_
    (.walk ?_)
  · cases r <;> rfl
  · cases r with
    | none => exact hf
    | some r => trivial
  · rw [hph]
    cases r <;> rfl

theorem ThreadsInv.locked (H : ThreadsInv P s q) (hph : s.phase t = .locked n f) {fresh : List ℕ}
    {h' : Heap K V} (hs : lockedStep P s.heap n f fresh = some (h', ph')) :
    ∃ q', Stepped P s t q h' ph' q' := by
  obtain ⟨hf, hl⟩ := H.locked_bucket hph
  unfold lockedStep at hs
  simp only [] at hs
  by_cases hbase : (s.heap.bucket f.curr (f.bucket P)).base = 0
  · rw [if_pos hbase] at hs
    split at hs
    · rename_i key val e hc
      split_ifs at hs with ha
      obtain ⟨rfl, rfl⟩ := Prod.mk.inj (Option.some.inj hs)
      exact ⟨_, H.locked_fill hph hbase hc ha⟩
    · cases hs
    · rename_i hc _
      obtain ⟨rfl, rfl⟩ := Prod.mk.inj (Option.some.inj hs)
      exact ⟨q, H.locked_done hph (.inl ⟨hbase, hc, rfl⟩)⟩
  · rw [if_neg hbase] at hs
    split at hs
    · cases hs
    rename_i l₀ h1
    have h1' : q.elist (s.heap.bucket f.curr (f.bucket P)).base = some l₀ := by
      rw [H.settled.elist]
      exact h1
    split at hs <;> rename_i h2 <;> obtain ⟨rfl, rfl⟩ := Prod.mk.inj (Option.some.inj hs)
    · exact ⟨q, H.locked_done hph (.inr ⟨hbase, l₀, h1, h2⟩)⟩
    · exact ⟨q, H.locked_stay hph rfl rfl rfl ⟨hf, hl, hbase, l₀, h1', h2⟩⟩
    · exact ⟨q, H.locked_stay hph rfl rfl rfl ⟨hf, _, l₀, hl, hbase, h1', h2⟩⟩

theorem ThreadsInv.threadStep (H : ThreadsInv P s q) {fresh : List ℕ} {spurious : Bool}
    {h' : Heap K V} (hs : Carumap.threadStep P s.heap fresh spurious (s.phase t) = some (h', ph')) :
    ∃ q', Stepped P s t q h' ph' q' := by
  cases hph : s.phase t with
  | idle => simp [hph, Carumap.threadStep] at hs
  | load n f =>
    simp only [hph, Carumap.threadStep, Option.some.injEq, Prod.mk.injEq] at hs
    obtain ⟨rfl, rfl⟩ := hs
    exact ⟨q, H.load hph⟩
  | cas n f =>
    simp only [hph, Carumap.threadStep] at hs
    split_ifs at hs with hl
    all_goals
      simp only [Option.some.injEq, Prod.mk.injEq] at hs
      obtain ⟨rfl, rfl⟩ := hs
    · exact ⟨q, H.cas_take hph hl.1⟩
    · have := H.cas_miss hph
      rw [if_pos ‹_›] at this
      exact ⟨q, this⟩
    · have := H.cas_miss hph
      rw [if_neg ‹_›] at this
      exact ⟨q, this⟩
  | down n f =>
    simp only [hph, Carumap.threadStep, Option.some.injEq, Prod.mk.injEq] at hs
    obtain ⟨rfl, rfl⟩ := hs
    exact ⟨q, H.down hph⟩
  | locked n f =>
    exact H.locked hph (by rwa [hph] at hs)
  | write n f e l r =>
    simp only [hph, Carumap.threadStep, Option.some.injEq, Prod.mk.injEq] at hs
    obtain ⟨rfl, rfl⟩ := hs
    exact ⟨_, H.write hph⟩
  | rehash n f =>
    simp only [hph, Carumap.threadStep] at hs
    split_ifs at hs with ha
    obtain ⟨⟨h₁, p⟩, hr, he⟩ := Option.map_eq_some_iff.1 hs
    obtain ⟨rfl, rfl⟩ := Prod.mk.inj he
    exact H.rehash hph ha hr
  | link n f base lock r =>
    simp only [hph, Carumap.threadStep, Option.some.injEq, Prod.mk.injEq] at hs
    obtain ⟨rfl, rfl⟩ := hs
    exact ⟨q, H.link hph⟩
  | unlock n f lock r =>
    simp only [hph, Carumap.threadStep, Option.some.injEq, Prod.mk.injEq] at hs
    obtain ⟨rfl, rfl⟩ := hs
    exact ⟨q, H.unlock hph⟩
  | ret n c r =>
    simp only [hph, Carumap.threadStep, Option.some.injEq, Prod.mk.injEq] at hs
    obtain ⟨rfl, rfl⟩ := hs
    exact ⟨q, H.walk (by rw [hph]; rfl) rfl trivial (hph ▸ .ret)⟩

theorem Stepped.inv (H : ThreadsInv P s q) {h' q' : Heap K V} (hS : Stepped P s t q h' ph' q')
    (calls : ℕ) (hist : List (Lin.Event ℕ (Op K V) (Option V))) :
    ThreadsInv P ⟨h', Function.update s.phase t ph', calls, hist⟩ q' := by
  refine ⟨hS.settled, hS.sound, fun t' => ?_⟩
  by_cases ht : t' = t
  · subst ht
    simp only [Function.update_self]
    exact hS.ok
  · simp only [Function.update_of_ne ht]
    have hk := (H.phase t').keeps H.sound hS.keeps fun _ _ => H.settled.has
    rcases hS.change with rfl | ⟨p, b, h1, hL⟩
    · exact hk
    · exact hk.mono H.sound hL (h1 t' ht)

end Steps

section Run

variable {P : Params K} {s s' : Threads ι K V} {q : Heap K V} {t t' : ι}

omit [DecidableEq ι] in
theorem threadsInv_init (P : Params K) :
    ThreadsInv P (threadsInit P : Threads ι K V) (init P).heap where
  settled := ⟨rfl, fun _ => rfl, fun _ _ _ => rfl, fun _ _ _ h => (nomatch h),
    fun _ _ _ h => (nomatch h)⟩
  sound := (safeAt_init P).sound
  phase _ := trivial

theorem ThreadsInv.invoke (H : ThreadsInv P s q) (hph : s.phase t = .idle) (n : ℕ) (c : Call K V) :
    Stepped P s t q s.heap (.load n ⟨c, P.root, 1, P.plistSize⟩) q where
  settled := H.settled.walk (by rw [hph]; rfl) rfl
  sound := H.sound
  ok := ⟨.root, P.buckets_one.symm⟩
  turn := hph ▸ .call
  keeps := Keeps.refl _
  change := .inl rfl

theorem ThreadsInv.step (H : ThreadsInv P s q) {ev : ThreadEvent ι K V}
    (hs : threadsStep P s ev = some s') : ∃ q', ThreadsInv P s' q' := by
  cases ev with
  | invoke t c =>
    simp only [threadsStep] at hs
    split at hs
    · rename_i hph
      obtain rfl := Option.some.inj hs
      exact ⟨q, (H.invoke hph s.calls c).inv H _ _⟩
    · cases hs
  | step t fresh spurious =>
    obtain ⟨⟨h', ph'⟩, hstep, rfl⟩ := Option.map_eq_some_iff.1 hs
    obtain ⟨q', hS⟩ := H.threadStep hstep
    exact ⟨q', hS.inv H _ _⟩

omit [DecidableEq ι] in
/-- An E-List that a thread reads or writes is that of the bucket it has locked. -/
theorem ThreadsInv.access_elist (H : ThreadsInv P s q) {e : ℕ} {w : Bool}
    (ha : (.elist e, w) ∈ (s.phase t).accesses P s.heap) :
    ∃ p b, (s.phase t).held P = some (p, b) ∧ q.bucket p b = ⟨e, .eUnlocked⟩ ∧ e ≠ 0 := by
  have hf := H.phase t
  cases hph : s.phase t with
  | locked n f =>
    obtain ⟨-, hl⟩ := H.locked_bucket hph
    rw [hph] at ha
    simp only [Phase.accesses, List.mem_cons, Prod.mk.injEq, reduceCtorEq, false_and,
      false_or] at ha
    split_ifs at ha with hbase
    · cases ha
    · simp only [List.mem_singleton, Prod.mk.injEq, Loc.elist.injEq] at ha
      obtain ⟨rfl, -⟩ := ha
      exact ⟨_, _, rfl, hl, hbase⟩
  | write n f e' l r =>
    rw [hph] at ha hf
    simp only [Phase.accesses, List.mem_singleton, Prod.mk.injEq, Loc.elist.injEq] at ha
    obtain ⟨rfl, -⟩ := ha
    exact ⟨_, _, rfl, hf.2.1, hf.2.2.1⟩
  | rehash n f =>
    rw [hph] at ha hf
    obtain ⟨-, e', l₀, hl, he, -⟩ := hf
    have hset := (H.settled.held t f.curr (f.bucket P) (by rw [hph]; rfl)).2
    rw [hph, hl] at hset
    have hbase : e' = (s.heap.bucket f.curr (f.bucket P)).base := congrArg Bucket.base hset
    simp only [Phase.accesses, List.mem_cons, Prod.mk.injEq, reduceCtorEq, false_and,
      List.not_mem_nil, or_false, false_or, Loc.elist.injEq] at ha
    obtain ⟨rfl, -⟩ := ha
    exact ⟨_, _, rfl, hbase ▸ hl, hbase ▸ he⟩
  | _ => simp [hph, Phase.accesses] at ha

omit [DecidableEq ι] in
/-- A pointer that a thread reads or writes is that of the bucket it has locked, or is read and
leads to a P-List. -/
theorem ThreadsInv.access_base (H : ThreadsInv P s q) {p b : ℕ} {w : Bool}
    (ha : (.base p b, w) ∈ (s.phase t).accesses P s.heap) : q.Has p b
      ∧ ((s.phase t).held P = some (p, b)
        ∨ w = false ∧ (s.heap.bucket p b).lock = .pUnlocked) := by
  have hf := H.phase t
  cases hph : s.phase t with
  | down n f =>
    rw [hph] at ha hf
    simp only [Phase.accesses, List.mem_singleton, Prod.mk.injEq, Loc.base.injEq] at ha
    obtain ⟨⟨rfl, rfl⟩, rfl⟩ := ha
    exact ⟨hf.1.has H.sound, .inr ⟨rfl, hf.2⟩⟩
  | locked n f =>
    rw [hph] at ha hf
    simp only [Phase.accesses, List.mem_cons, Prod.mk.injEq, Loc.base.injEq] at ha
    rcases ha with ⟨⟨rfl, rfl⟩, -⟩ | ha
    · exact ⟨hf.1.has H.sound, .inl rfl⟩
    · split_ifs at ha <;> simp at ha
  | rehash n f =>
    rw [hph] at ha hf
    simp only [Phase.accesses, List.mem_cons, Prod.mk.injEq, reduceCtorEq, false_and,
      List.not_mem_nil, or_false, Loc.base.injEq] at ha
    obtain ⟨⟨rfl, rfl⟩, -⟩ := ha
    exact ⟨hf.1.has H.sound, .inl rfl⟩
  | link n f base lock r =>
    rw [hph] at ha hf
    simp only [Phase.accesses, List.mem_singleton, Prod.mk.injEq, Loc.base.injEq] at ha
    obtain ⟨⟨rfl, rfl⟩, -⟩ := ha
    exact ⟨hf.1.has H.sound, .inl rfl⟩
  | _ => simp [hph, Phase.accesses] at ha

omit [DecidableEq ι] in
/-- No two threads are about to access one place, one of them to write it. -/
theorem ThreadsInv.no_conflict (H : ThreadsInv P s q) (ht : t ≠ t') {a a' : Loc × Bool}
    (ha : a ∈ (s.phase t).accesses P s.heap) (ha' : a' ∈ (s.phase t').accesses P s.heap) :
    ¬ Conflict a a' := by
  obtain ⟨loc, w⟩ := a
  obtain ⟨loc', w'⟩ := a'
  rintro ⟨heq, hw⟩
  simp only [] at heq hw
  subst heq
  cases loc with
  | base p b =>
    rcases H.access_base ha with ⟨-, h1 | ⟨rfl, h1⟩⟩ <;>
      rcases H.access_base ha' with ⟨-, h2 | ⟨rfl, h2⟩⟩
    · exact ht (H.settled.excl t t' _ h1 h2)
    · rw [(H.settled.held t p b h1).1] at h2
      cases h2
    · rw [(H.settled.held t' p b h2).1] at h1
      cases h1
    · simp at hw
  | elist e =>
    obtain ⟨p, b, h1, h2, h3⟩ := H.access_elist ha
    obtain ⟨p', b', h4, h5, -⟩ := H.access_elist ha'
    obtain ⟨rfl, rfl⟩ := H.sound.own p b p' b' (H.has_of_held h1) (H.has_of_held h4) (by rw [h2])
      (by rw [h5]) (by rw [h2]; exact h3) (by rw [h2, h5])
    exact ht (H.settled.excl t t' _ h1 h4)

omit [DecidableEq ι] in
theorem ThreadsInv.live (H : ThreadsInv P s q) {a : Loc × Bool}
    (ha : a ∈ (s.phase t).accesses P s.heap) : a.1.Live P s.heap := by
  obtain ⟨loc, w⟩ := a
  cases loc with
  | base p b => exact H.settled.has.2 (H.access_base ha).1
  | elist e =>
    obtain ⟨p, b, h1, h2, h3⟩ := H.access_elist ha
    obtain ⟨l, h4, h5⟩ := H.sound.leaf p b (H.has_of_held h1) (by rw [h2]) (by rw [h2]; exact h3)
    rw [h2, H.settled.elist] at h4
    exact ⟨l, h4, h5⟩

omit [DecidableEq ι] in
theorem ThreadsInv.frame_live (H : ThreadsInv P s q) {f : Frame K V}
    (hf : (s.phase t).frame = some f) : Loc.Live P s.heap (.base f.curr (f.bucket P)) := by
  have hph := H.phase t
  refine H.settled.has.2 ?_
  cases h : s.phase t <;> simp only [h, Phase.frame, Option.some.injEq, reduceCtorEq] at hf hph
  all_goals subst hf
  · exact FrameOk.has H.sound hph
  · exact FrameOk.has H.sound hph
  all_goals exact FrameOk.has H.sound hph.1

/-- Threads on one table, in any interleaving and whatever the hash: no two of them are ever about
to access the same pointer or E-List, one of them to write it; what they access is allocated, and an
E-List has room for its pairs; and a lock that is taken is with one thread. -/
theorem carumap_threads_safe (P : Params K) (es : List (ThreadEvent ι K V)) (s : Threads ι K V)
    (hr : run (threadsStep P) (threadsInit P) es = some s) :
    (∀ t t' a a', t ≠ t' → a ∈ (s.phase t).accesses P s.heap →
        a' ∈ (s.phase t').accesses P s.heap → ¬ Conflict a a')
      ∧ (∀ t, ∀ a ∈ (s.phase t).accesses P s.heap, a.1.Live P s.heap)
      ∧ (∀ t, ∀ f ∈ (s.phase t).frame, Loc.Live P s.heap (.base f.curr (f.bucket P)))
      ∧ ∀ p b, Loc.Live P s.heap (.base p b) → (s.heap.bucket p b).lock = .eLocked →
        ∃! t, (s.phase t).held P = some (p, b) := by
  obtain ⟨q, H⟩ : ∃ q, ThreadsInv P s q :=
    run_inv' (I := fun s => ∃ q, ThreadsInv P s q) (fun _ _ _ ⟨_, H⟩ hs => H.step hs) hr
      ⟨_, threadsInv_init P⟩
  refine ⟨fun t t' a a' ht ha ha' => H.no_conflict ht ha ha', fun t a ha => H.live ha,
    fun t f hf => H.frame_live hf, fun p b hb hl => ?_⟩
  by_contra hno
  have hfree : ∀ t, (s.phase t).held P ≠ some (p, b) := fun t ht =>
    hno ⟨t, ht, fun t' ht' => H.settled.excl t' t _ ht' ht⟩
  have hq := H.settled.free p b hfree
  exact H.sound.lock p b (H.settled.has.1 hb) (by rw [hq, hl])

end Run

/-- Two threads insert into one bucket: one makes the E-List while the other waits for the lock, and
then rehashes it. -/
def twoInserts : List (ThreadEvent Bool ℕ ℕ) :=
  [.invoke false (.insert 0 10), .invoke true (.insert 1 20), .step false [] false,
    .step true [] false, .step false [] false, .step true [] false, .step false [128] false,
    .step true [] false, .step false [] false, .step false [] false, .step false [] false,
    .step true [] false, .step true [] true, .step true [] false, .step true [] false,
    .step true [] false, .step true [192, 256] false, .step true [] false, .step true [] false,
    .step true [] false, .step true [] false, .step true [] false, .step true [] false,
    .step true [320] false, .step true [] false, .step true [] false, .step true [] false]

theorem carumap_threads_safe_twoInserts : ∃ s,
    run (threadsStep oneByOne) (threadsInit oneByOne) (twoInserts.take 17) = some s
    ∧ (s.phase true).accesses oneByOne s.heap = [(.base 64 0, true)]
    ∧ ∃! t, (s.phase t).held oneByOne = some (64, 0) := by
  have hrun : ((run (threadsStep oneByOne) (threadsInit oneByOne) (twoInserts.take 17)).map fun s =>
      ((s.phase true).accesses oneByOne s.heap, (s.heap.bucket 64 0).lock))
        = some ([(.base 64 0, true)], .eLocked) := by decide +kernel
  obtain ⟨s, hs, hx⟩ := Option.map_eq_some_iff.1 hrun
  obtain ⟨hacc, hlock⟩ := Prod.mk.inj hx
  obtain ⟨-, hlive, -, huniq⟩ := carumap_threads_safe oneByOne (twoInserts.take 17) s hs
  exact ⟨s, hs, hacc, huniq 64 0 (hlive true (.base 64 0, true) (by rw [hacc]; simp)) hlock⟩

end Rome.Carumap
