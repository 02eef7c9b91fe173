import Rome.IhtLocalAccess
import Rome.Proofs.IhtLocal

/-!
# The local table stays in its arrays

Between two iterations a bucket leads to nothing, to an E-List of its own, or to a P-List of twice
the buckets, and says so by its lock (`Sound`). A rehash keeps this wherever it places the pairs:
the parent's bucket count is half the new one, and no bucket gets more pairs than there were.
-/

namespace Rome.Carumap

open HashTrie Machine

variable {K V : Type*}

/-- What holds of the memory between two iterations. -/
structure Sound (P : Params K) (h : Heap K V) : Prop where
  root : ∃ bs, h.plist P.root = some bs ∧ bs.length = P.buckets 1
  lock : ∀ p b, h.Has p b → (h.bucket p b).lock ≠ .eLocked
  leaf : ∀ p b, h.Has p b → (h.bucket p b).lock = .eUnlocked → (h.bucket p b).base ≠ 0 →
    ∃ l, h.elist (h.bucket p b).base = some l ∧ l.length ≤ P.elistSize
  node : ∀ p b bs, h.plist p = some bs → b < bs.length → (h.bucket p b).lock = .pUnlocked →
    ∃ bs', h.plist (h.bucket p b).base = some bs' ∧ bs'.length = bs.length * 2
  own : ∀ p b p' b', h.Has p b → h.Has p' b' → (h.bucket p b).lock = .eUnlocked →
    (h.bucket p' b').lock = .eUnlocked → (h.bucket p b).base ≠ 0 →
    (h.bucket p b).base = (h.bucket p' b').base → p = p' ∧ b = b'

theorem allocatedBuckets_buckets (P : Params K) (d : ℕ) :
    allocatedBuckets P (P.buckets d) = P.buckets d := by
  unfold allocatedBuckets Params.buckets
  rw [Nat.mul_div_cancel_left _ P.plistSize_pos]

section Sound

variable {P : Params K} {h h' : Heap K V} {p b d : ℕ}

theorem Heap.has_iff : h.Has p b ↔ b < ((h.plist p).getD []).length := by
  unfold Heap.Has
  rcases h.plist p with _ | bs <;> simp

theorem Sound.reached (H : Sound P h) (hr : Reached P h p d) :
    1 ≤ d ∧ ∃ bs, h.plist p = some bs ∧ bs.length = P.buckets d := by
  induction hr with
  | root => exact ⟨le_rfl, H.root⟩
  | @child p d b _ hb hl ih =>
    obtain ⟨hd, bs, hbs, hlen⟩ := ih
    rw [hbs] at hb
    obtain ⟨bs', h1, h2⟩ := H.node p b bs hbs hb hl
    exact ⟨by omega, bs', h1, by rw [h2, hlen, P.buckets_succ hd]⟩

/-- What is reached stays so while the buckets that lead to P-Lists stay. -/
theorem Reached.mono (hr : Reached P h p d)
    (hstay : ∀ p b, h.Has p b → (h.bucket p b).lock = .pUnlocked →
      h'.Has p b ∧ h'.bucket p b = h.bucket p b) : Reached P h' p d := by
  induction hr with
  | root => exact .root
  | @child p d b _ hb hl ih =>
    obtain ⟨h1, h2⟩ := hstay p b (Heap.has_iff.2 hb) hl
    rw [← h2]
    exact .child ih (Heap.has_iff.1 h1) (by rw [h2]; exact hl)

/-- A bucket that leads to no P-List is written, and its E-List with it. -/
theorem Sound.setBucket (H : Sound P h) (hb : h.Has p b) {E : ℕ → Option (List (K × V))}
    {x : Bucket} (hlock : x.lock = .eUnlocked)
    (hx : x.base ≠ 0 → ∃ l, E x.base = some l ∧ l.length ≤ P.elistSize)
    (hkeep : ∀ e, e ≠ x.base → E e = h.elist e)
    (hown : ∀ p' b', ¬ (p' = p ∧ b' = b) → h.Has p' b' → (h.bucket p' b').lock = .eUnlocked →
      (h.bucket p' b').base ≠ 0 → (h.bucket p' b').base ≠ x.base) :
    Sound P (Heap.setBucket { h with elist := E } p b x) := by
  have hb' : Heap.Has { h with elist := E } p b := hb
  have hself := Heap.bucket_setBucket_self (x := x) hb'
  have hhas : ∀ {p' b'}, (Heap.setBucket { h with elist := E } p b x).Has p' b' → h.Has p' b' :=
    fun hh => (Heap.has_setBucket hb').1 hh
  have hother : ∀ {p' b'}, ¬ (p' = p ∧ b' = b) →
      (Heap.setBucket { h with elist := E } p b x).bucket p' b' = h.bucket p' b' :=
    fun hne => Heap.bucket_setBucket_ne hne
  refine ⟨?_, fun p' b' hh => ?_, fun p' b' hh hl hne => ?_, fun p' b' bs hbs hlt hl => ?_,
    fun p₁ b₁ p₂ b₂ h1 h2 hl1 hl2 hne heq => ?_⟩
  · obtain ⟨bs, h1, h2⟩ := H.root
    obtain ⟨bs', h3, h4⟩ := (Heap.plist_setBucket (x := x) hb').1 bs h1
    exact ⟨bs', h3, h4.trans h2⟩
  · by_cases hpb : p' = p ∧ b' = b
    · rw [hpb.1, hpb.2, hself, hlock]
      decide
    · rw [hother hpb]
      exact H.lock p' b' (hhas hh)
  · by_cases hpb : p' = p ∧ b' = b
    · rw [hpb.1, hpb.2, hself] at hne ⊢
      exact hx hne
    · rw [hother hpb] at hl hne ⊢
      obtain ⟨l, h1, h2⟩ := H.leaf p' b' (hhas hh) hl hne
      exact ⟨l, (hkeep _ (hown p' b' hpb (hhas hh) hl hne)).trans h1, h2⟩
  · have hpb : ¬ (p' = p ∧ b' = b) := by
      rintro ⟨rfl, rfl⟩
      rw [hself, hlock] at hl
      cases hl
    rw [hother hpb] at hl ⊢
    obtain ⟨bs₀, h1, h2⟩ := (Heap.plist_setBucket hb').2 bs hbs
    obtain ⟨bs₁, h3, h4⟩ := H.node p' b' bs₀ h1 (by omega) hl
    obtain ⟨bs₂, h5, h6⟩ := (Heap.plist_setBucket (x := x) hb').1 bs₁ h3
    exact ⟨bs₂, h5, by omega⟩
  · by_cases hpb1 : p₁ = p ∧ b₁ = b <;> by_cases hpb2 : p₂ = p ∧ b₂ = b
    · exact ⟨hpb1.1.trans hpb2.1.symm, hpb1.2.trans hpb2.2.symm⟩
    · rw [hpb1.1, hpb1.2, hself] at hne heq
      rw [hother hpb2] at hl2 heq
      exact absurd heq.symm (hown p₂ b₂ hpb2 (hhas h2) hl2 (heq ▸ hne))
    · rw [hpb2.1, hpb2.2, hself] at heq
      rw [hother hpb1] at hl1 hne heq
      exact absurd heq (hown p₁ b₁ hpb1 (hhas h1) hl1 hne)
    · rw [hother hpb1] at hl1 hne heq
      rw [hother hpb2] at hl2 heq
      exact H.own p₁ b₁ p₂ b₂ (hhas h1) (hhas h2) hl1 hl2 hne heq

end Sound

section Rehash

variable {P : Params K} {h h₁ h₂ : Heap K V} {p q b b' e newP level : ℕ} {blocks rest : List ℕ}
  {bs bs₀ : List Bucket} {src : List (K × V)} {lk : LockState}

/-- A bucket with an E-List that is not of the new P-List was there before; its E-List is neither
the one that was spread nor a new one. -/
theorem Sound.rehash_old (H : Sound P h) (hM : Replaced h h₂ p b newP bs)
    (hbk : h.bucket p b = ⟨e, .eUnlocked⟩) (hnew : Unused 0 h.elist h.plist blocks) (hq : q ≠ newP)
    (hh : h₂.Has q b') (hl : (h₂.bucket q b').lock = .eUnlocked)
    (hne : (h₂.bucket q b').base ≠ 0) :
    h₂.bucket q b' = h.bucket q b' ∧ (h.bucket q b').base ≠ e ∧ (h.bucket q b').base ∉ blocks := by
  have hpb : ¬ (q = p ∧ b' = b) := by
    rintro ⟨rfl, rfl⟩
    rw [hM.bucket_self] at hl
    cases hl
  rw [hM.has_old hq] at hh
  rw [hM.bucket_old hq hpb] at hl hne ⊢
  refine ⟨rfl, fun heq => hpb ?_, fun hm => ?_⟩
  · exact H.own q b' p b hh hM.has hl (by rw [hbk]) hne (by rw [heq, hbk])
  · obtain ⟨l, h1, -⟩ := H.leaf q b' hh hl hne
    rw [(hnew.free _ hm).2.1] at h1
    cases h1

theorem Rehashed.base_new (hR : Rehashed P level bs₀.length (h.setBucket p b ⟨e, lk⟩) blocks rest
      src h₁ bs) (hsrc : h.elist e = some src) (hnew : Unused 0 h.elist h.plist blocks)
    (hb : b' < bs₀.length * 2) (hne : (bucketAt bs b').base ≠ 0) :
    (bucketAt bs b').base ∈ blocks ∧ (bucketAt bs b').base ≠ e := by
  have hm : (bucketAt bs b').base ∈ blocks := (hR.elem b' hb hne).1
  refine ⟨hm, fun heq => ?_⟩
  rw [heq] at hm
  rw [(hnew.free e hm).2.1] at hsrc
  cases hsrc

/-- What a P-List leads to when a P-List of twice the buckets has taken the place of an E-List. -/
theorem Sound.rehash_node (H : Sound P h) (hbs₀ : h.plist p = some bs₀)
    (hM : Replaced h h₂ p b newP bs) (hlen : bs.length = bs₀.length * 2) (hq : q ≠ newP)
    {bs' : List Bucket} (hbs' : h₂.plist q = some bs') (hlt : b' < bs'.length)
    (hl : (h₂.bucket q b').lock = .pUnlocked) :
    ∃ bs'', h₂.plist (h₂.bucket q b').base = some bs'' ∧ bs''.length = bs'.length * 2 := by
  rw [hM.old q hq] at hbs'
  obtain ⟨bs₁, h1, h2⟩ := (Heap.plist_setBucket hM.has).2 bs' hbs'
  by_cases hpb : q = p ∧ b' = b
  · obtain ⟨rfl, rfl⟩ := hpb
    rw [hM.bucket_self]
    rw [hbs₀, Option.some.injEq] at h1
    exact ⟨bs, hM.new, by rw [hlen, h2, h1]⟩
  · rw [hM.bucket_old hq hpb] at hl ⊢
    obtain ⟨bs₂, h3, h4⟩ := H.node q b' bs₁ h1 (by omega) hl
    obtain ⟨bs₃, h5, h6⟩ := hM.plist_old h3
    exact ⟨bs₃, h5, by omega⟩

/-- The memory when a P-List has taken the place of an E-List that its bucket had. -/
theorem Sound.rehash (H : Sound P h) (hbs₀ : h.plist p = some bs₀) (hb : b < bs₀.length)
    (hbk : h.bucket p b = ⟨e, .eUnlocked⟩) (he : e ≠ 0) (hsrc : h.elist e = some src)
    (hR : Rehashed P level bs₀.length (h.setBucket p b ⟨e, lk⟩) blocks rest src h₁ bs)
    (hnew : Unused 0 h.elist h.plist (newP :: blocks)) :
    Sound P (((h₁.setPlist newP bs).setElist e none).setBucket p b ⟨newP, .pUnlocked⟩) := by
  have hroom : src.length ≤ P.elistSize := by
    obtain ⟨l, h1, h2⟩ := H.leaf p b ⟨bs₀, hbs₀, hb⟩ (by rw [hbk]) (by rw [hbk]; exact he)
    rw [hbk, hsrc] at h1
    obtain rfl := Option.some.inj h1
    exact h2
  have hM := hR.replaced ⟨bs₀, hbs₀, hb⟩ (hnew.free newP List.mem_cons_self).2.2
  have helist : (((h₁.setPlist newP bs).setElist e none).setBucket p b ⟨newP, .pUnlocked⟩).elist
      = Function.update h₁.elist e none := rfl
  generalize ((h₁.setPlist newP bs).setElist e none).setBucket p b ⟨newP, .pUnlocked⟩ = h₂
    at hM helist ⊢
  have hin : ∀ {b'}, h₂.Has newP b' → b' < bs₀.length * 2 := fun hh => hR.length ▸ hM.has_new hh
  have hold := fun q b' (hq : q ≠ newP) (hh : h₂.Has q b') => H.rehash_old hM hbk hnew.tail hq hh
  refine ⟨?_, fun q b' hh => ?_, fun q b' hh hl hne => ?_, fun q b' bs' hbs' hlt hl => ?_,
    fun p₁ b₁ p₂ b₂ hh1 hh2 hl1 hl2 hne heq => ?_⟩
  · obtain ⟨bs', h1, h2⟩ := H.root
    obtain ⟨bs'', h3, h4⟩ := hM.plist_old h1
    exact ⟨bs'', h3, h4.trans h2⟩
  · by_cases hq : q = newP
    · subst hq
      rw [hM.bucket_new, hR.lock (hin hh)]
      simp
    · by_cases hpb : q = p ∧ b' = b
      · simp [hpb.1, hpb.2, hM.bucket_self]
      · rw [hM.bucket_old hq hpb]
        exact H.lock q b' ((hM.has_old hq).1 hh)
  · by_cases hq : q = newP
    · subst hq
      rw [hM.bucket_new] at hne ⊢
      have h1 := (hR.base_new hsrc hnew.tail (hin hh) hne).2
      refine ⟨_, by rw [helist, Function.update_of_ne h1]; exact (hR.elem b' (hin hh) hne).2.2, ?_⟩
      exact (List.length_filter_le _ _).trans hroom
    · obtain ⟨h1, h2, h3⟩ := hold q b' hq hh hl hne
      rw [h1] at hl hne ⊢
      obtain ⟨l, h4, h5⟩ := H.leaf q b' ((hM.has_old hq).1 hh) hl hne
      refine ⟨l, ?_, h5⟩
      rw [helist, Function.update_of_ne h2, hR.frame _ h3]
      exact h4
  · by_cases hq : q = newP
    · subst hq
      rw [hM.bucket_new, hR.lock (hin ⟨bs', hbs', hlt⟩)] at hl
      cases hl
    · exact H.rehash_node hbs₀ hM hR.length hq hbs' hlt hl
  · by_cases hq1 : p₁ = newP <;> by_cases hq2 : p₂ = newP
    · subst hq1 hq2
      rw [hM.bucket_new] at hne heq
      rw [hM.bucket_new] at heq
      exact ⟨rfl, hR.inj b₁ (hin hh1) b₂ (hin hh2) heq hne⟩
    · subst hq1
      rw [hM.bucket_new] at hne heq
      obtain ⟨h1, -, h2⟩ := hold p₂ b₂ hq2 hh2 hl2 (heq ▸ hne)
      rw [h1] at heq
      exact absurd (heq ▸ (hR.base_new hsrc hnew.tail (hin hh1) hne).1) h2
    · subst hq2
      obtain ⟨h1, -, h2⟩ := hold p₁ b₁ hq1 hh1 hl1 hne
      rw [hM.bucket_new] at heq
      have hne' := heq ▸ hne
      rw [h1] at heq
      exact absurd (heq ▸ (hR.base_new hsrc hnew.tail (hin hh2) hne').1) h2
    · obtain ⟨h1, -⟩ := hold p₁ b₁ hq1 hh1 hl1 hne
      obtain ⟨h2, -⟩ := hold p₂ b₂ hq2 hh2 hl2 (heq ▸ hne)
      rw [h1] at hl1 hne
      rw [h1, h2] at heq
      rw [h2] at hl2
      exact H.own p₁ b₁ p₂ b₂ ((hM.has_old hq1).1 hh1) ((hM.has_old hq2).1 hh2) hl1 hl2 hne heq

theorem Replaced.stays (hM : Replaced h h₂ p b newP bs) (hl : (h.bucket p b).lock ≠ .pUnlocked)
    (hq : h.Has q b') (hlq : (h.bucket q b').lock = .pUnlocked) :
    h₂.Has q b' ∧ h₂.bucket q b' = h.bucket q b' := by
  refine ⟨(hM.has_old (hM.ne hq)).2 hq, hM.bucket_old (hM.ne hq) ?_⟩
  rintro ⟨rfl, rfl⟩
  exact hl hlq

end Rehash

section Iter

variable [DecidableEq K] {P : Params K} {s s' : State K V} {f : Frame K V} {h : Heap K V}
  {curr depth count b : ℕ} {c : Call K V} {fresh : List ℕ} {r : Option (Option V)}

/-- The memory, and where a call under way is. -/
structure SafeAt (P : Params K) (s : State K V) : Prop where
  sound : Sound P s.heap
  frame : ∀ f ∈ s.frame, Reached P s.heap f.curr f.depth ∧ f.count = P.buckets f.depth

/-- The P-Lists that are reached stay so. -/
def Stays (h h' : Heap K V) : Prop :=
  ∀ p b, h.Has p b → (h.bucket p b).lock = .pUnlocked → h'.Has p b ∧ h'.bucket p b = h.bucket p b

theorem Sound.locked_empty {h₀ : Heap K V} (H : Sound P h₀) (hhas : h₀.Has curr b)
    (ha : (h₀.setBucket curr b ⟨0, .eLocked⟩).allocatable fresh = true)
    (hl : locked P (h₀.setBucket curr b ⟨0, .eLocked⟩) c curr depth count b fresh = some (h, r)) :
    Sound P h ∧ ∃ v, r = some v := by
  have hsame : Sound P (h₀.setBucket curr b ⟨0, .eUnlocked⟩) :=
    H.setBucket hhas rfl (fun h => absurd rfl h) (fun _ _ => rfl) fun _ _ _ _ _ hne => hne
  rcases c with key | key | ⟨key, val⟩ <;>
    simp only [locked, get, remove, insert, Heap.bucket_setBucket_self hhas, if_true,
      Heap.setLock_setBucket hhas, Option.map_some, Option.some.injEq, Prod.mk.injEq] at hl
  · obtain ⟨rfl, rfl⟩ := hl
    exact ⟨hsame, none, rfl⟩
  · obtain ⟨rfl, rfl⟩ := hl
    exact ⟨hsame, none, rfl⟩
  · split at hl
    swap
    · cases hl
    rename_i e
    rw [Heap.setElist_setBucket, Heap.setBase_setBucket (by exact hhas),
      Heap.setLock_setBucket (by exact hhas)] at hl
    simp only [Option.some.injEq, Prod.mk.injEq] at hl
    obtain ⟨rfl, rfl⟩ := hl
    have hnone := ((Heap.unused_setBucket hhas ha).free e List.mem_cons_self).2.1
    refine ⟨H.setBucket (E := Function.update h₀.elist e (some [(key, val)])) hhas rfl
      (fun _ => ⟨_, Function.update_self .., P.elistSize_pos⟩)
      (fun e' he' => Function.update_of_ne he' ..) fun p' b' _ hh hl' hne heq => ?_, none, rfl⟩
    obtain ⟨l, h1, -⟩ := H.leaf p' b' hh hl' hne
    rw [heq, hnone] at h1
    cases h1

theorem Sound.locked_leaf {h₀ : Heap K V} (H : Sound P h₀) {bs₀ : List Bucket}
    (hbs₀ : h₀.plist curr = some bs₀) (hb : b < bs₀.length) (hcount : count = bs₀.length)
    {e : ℕ} (hbk : h₀.bucket curr b = ⟨e, .eUnlocked⟩) (he : e ≠ 0)
    (ha : (h₀.setBucket curr b ⟨e, .eLocked⟩).allocatable fresh = true)
    (hl : locked P (h₀.setBucket curr b ⟨e, .eLocked⟩) c curr depth count b fresh = some (h, r)) :
    Sound P h ∧ (r = none → Stays h₀ h) := by
  have hhas : h₀.Has curr b := ⟨bs₀, hbs₀, hb⟩
  obtain ⟨l, helist, hlen⟩ := H.leaf curr b hhas (by rw [hbk]) (by rw [hbk]; exact he)
  rw [hbk] at helist
  have helist' : (h₀.setBucket curr b ⟨e, .eLocked⟩).elist e = some l := helist
  have hown : ∀ p' b', ¬ (p' = curr ∧ b' = b) → h₀.Has p' b' →
      (h₀.bucket p' b').lock = .eUnlocked → (h₀.bucket p' b').base ≠ 0 →
      (h₀.bucket p' b').base ≠ e := by
    intro p' b' hpb hh hl' hne heq
    exact hpb (H.own p' b' curr b hh hhas hl' (by rw [hbk]) hne (by rw [heq, hbk]))
  have hsame : Sound P (h₀.setBucket curr b ⟨e, .eUnlocked⟩) :=
    H.setBucket hhas rfl (fun _ => ⟨l, helist, hlen⟩) (fun _ _ => rfl) hown
  have hstore : ∀ l' : List (K × V), l'.length ≤ P.elistSize →
      Sound P ((h₀.setElist e (some l')).setBucket curr b ⟨e, .eUnlocked⟩) := fun l' hl' =>
    H.setBucket (E := Function.update h₀.elist e (some l')) hhas rfl
      (fun _ => ⟨l', Function.update_self .., hl'⟩) (fun e' he' => Function.update_of_ne he' ..)
      hown
  rcases c with key | key | ⟨key, val⟩ <;>
    simp only [locked, get, remove, insert, Heap.bucket_setBucket_self hhas, he, if_false,
      helist', Heap.setLock_setBucket hhas, Option.map_some, Option.some.injEq,
      Prod.mk.injEq] at hl
  · obtain ⟨rfl, rfl⟩ := hl
    exact ⟨hsame, by simp⟩
  · rcases removeFrom_perm key l with ⟨-, h2⟩ | ⟨v, l', -, h2, hperm⟩
    · simp only [h2, Option.map_some, Option.some.injEq, Prod.mk.injEq] at hl
      obtain ⟨rfl, rfl⟩ := hl
      exact ⟨hsame, by simp⟩
    · simp only [h2, Option.map_some, Option.some.injEq, Prod.mk.injEq, Heap.setElist_setBucket]
        at hl
      rw [Heap.setLock_setBucket (by exact hhas)] at hl
      obtain ⟨rfl, rfl⟩ := hl
      have := hperm.length_eq
      rw [List.length_cons] at this
      exact ⟨hstore l' (by omega), by simp⟩
  · split at hl
    · simp only [Option.some.injEq, Prod.mk.injEq] at hl
      obtain ⟨rfl, rfl⟩ := hl
      exact ⟨hsame, by simp⟩
    · split_ifs at hl with hroom
      · simp only [Option.some.injEq, Prod.mk.injEq, Heap.setElist_setBucket] at hl
        rw [Heap.setLock_setBucket (by exact hhas)] at hl
        obtain ⟨rfl, rfl⟩ := hl
        exact ⟨hstore _ (by rw [List.length_append]; exact hroom), by simp⟩
      · obtain ⟨⟨h', p⟩, hr, hh⟩ := Option.map_eq_some_iff.1 hl
        simp only [Prod.mk.injEq] at hh
        obtain ⟨rfl, rfl⟩ := hh
        have hbase : ((h₀.setBucket curr b ⟨e, .eLocked⟩).bucket curr b).base = e := by
          rw [Heap.bucket_setBucket_self hhas]
        subst hcount
        obtain ⟨blocks, rest, h₁, bs, rfl, hR, rfl⟩ := rehash_spec (by omega)
          (by rw [hbase]; exact helist') ha hr
        rw [hbase]
        have hnew := Heap.unused_setBucket hhas ha
        have hM := hR.replaced hhas (hnew.free p List.mem_cons_self).2.2
        have hhas' : ((h₁.setPlist p bs).setElist e none).Has curr b := by
          obtain ⟨bs', h1, h2⟩ := (Heap.has_setBucket (x := ⟨e, .eLocked⟩) hhas).2 hhas
          refine ⟨bs', ?_, h2⟩
          change Function.update h₁.plist p (some bs) curr = some bs'
          rw [Function.update_of_ne (hM.ne hhas), hR.plist]
          exact h1
        simp only [Heap.setBase, Heap.setLock_setBucket hhas']
        exact ⟨H.rehash hbs₀ hb hbk he helist hR hnew, fun _ q b' hq hlq =>
          hM.stays (by simp [hbk]) hq hlq⟩

theorem SafeAt.iter (H : SafeAt P s) (hf : s.frame = some f)
    (hs : iter P s f fresh = some s') : SafeAt P s' := by
  obtain ⟨hreach, hcount⟩ := H.frame f hf
  obtain ⟨-, bs₀, hbs₀, hlen⟩ := H.sound.reached hreach
  unfold Carumap.iter at hs
  simp only [] at hs
  have hb : levelHash P f.call.key (f.depth + 1) f.count < bs₀.length := by
    rw [hlen, hcount]
    exact Nat.mod_lt _ (P.buckets_pos _)
  set b := levelHash P f.call.key (f.depth + 1) f.count
  have hhas : s.heap.Has f.curr b := ⟨bs₀, hbs₀, hb⟩
  rcases hbk : s.heap.bucket f.curr b with ⟨base, lk⟩
  cases lk with
  | eLocked => exact absurd (by rw [hbk]) (H.sound.lock f.curr b hhas)
  | pUnlocked =>
    simp only [acquire, hbk, Option.some.injEq] at hs
    subst hs
    refine ⟨H.sound, fun f' hf' => ?_⟩
    obtain rfl := Option.some.inj hf'
    have hchild := hreach.child (Heap.has_iff.1 hhas) (by rw [hbk])
    rw [hbk] at hchild
    exact ⟨hchild, by simp only [hcount, P.buckets_succ (H.sound.reached hreach).1]⟩
  | eUnlocked =>
    simp only [acquire, hbk, Heap.setLock] at hs
    split_ifs at hs with ha
    by_cases hbase : base = 0
    · subst hbase
      split at hs
      · cases hs
      · rename_i h hl
        obtain ⟨-, v, hv⟩ := H.sound.locked_empty hhas ha hl
        cases hv
      · rename_i h r hl
        obtain rfl := Option.some.inj hs
        exact ⟨(H.sound.locked_empty hhas ha hl).1, by simp⟩
    · split at hs
      · cases hs
      · rename_i h hl
        obtain rfl := Option.some.inj hs
        obtain ⟨h1, h2⟩ := H.sound.locked_leaf hbs₀ hb (hcount.trans hlen.symm) hbk hbase ha hl
        refine ⟨h1, fun f' hf' => ?_⟩
        obtain rfl := Option.some.inj (hf.symm.trans hf')
        exact ⟨hreach.mono (h2 rfl), hcount⟩
      · rename_i h r hl
        obtain rfl := Option.some.inj hs
        exact ⟨(H.sound.locked_leaf hbs₀ hb (hcount.trans hlen.symm) hbk hbase ha hl).1, by simp⟩

theorem SafeAt.step (H : SafeAt P s) {ev : Event K V} (hs : step P s ev = some s') :
    SafeAt P s' := by
  unfold Carumap.step at hs
  split at hs
  · split at hs
    · obtain rfl := Option.some.inj hs
      refine ⟨H.sound, fun f hf => ?_⟩
      obtain rfl := Option.some.inj hf
      exact ⟨.root, (P.buckets_one).symm⟩
    · cases hs
  · split at hs
    · cases hs
    · rename_i f hf
      exact H.iter hf hs

omit [DecidableEq K] in
theorem safeAt_init (P : Params K) : SafeAt P (init P : State K V) := by
  have hbucket : ∀ p b, (init P : State K V).heap.Has p b →
      (init P : State K V).heap.bucket p b = ⟨0, .eUnlocked⟩ := fun _ _ hb => (init_bucket hb).2
  refine ⟨⟨⟨makePList P.plistSize, by simp [init], by simp [makePList, P.buckets_one]⟩,
    fun p b hh => by simp [hbucket p b hh],
    fun p b hh _ hne => absurd (by rw [hbucket p b hh]) hne, fun p b bs h1 h2 hl => ?_,
    fun p b p' b' hh _ _ _ hne => absurd (by rw [hbucket p b hh]) hne⟩, by simp [init]⟩
  rw [hbucket p b ⟨bs, h1, h2⟩] at hl
  cases hl

end Iter

section Access

variable {P : Params K} {h : Heap K V}

/-- What `rehash` writes is in the new P-List and in the E-Lists. -/
theorem rehashAccess_ok {level d : ℕ} {h₀ h' : Heap K V} {blocks : List ℕ} (hnull : 0 ∉ blocks)
    (hd : 1 ≤ d) : ∀ (todo src : List (K × V)) (rest : List ℕ) (h : Heap K V) (bs : List Bucket),
      rest.Nodup → rest ⊆ blocks → Rehashed P level (P.buckets d) h₀ blocks rest src h bs →
      src.length + todo.length ≤ P.elistSize →
      ∀ a ∈ rehashAccess P level (P.buckets d) todo rest h bs, a.Ok P h'
  | [], _, _, _, _, _, _, _, _ => by simp [rehashAccess]
  | x :: todo, src, rest, h, bs, hn, hsub, H, hlen => by
    have hlt : levelHash P x.1 level (P.buckets d) < P.buckets d * 2 :=
      levelHash_lt_new (P.buckets_pos d) x.1
    have hnew : Access.Ok P h' (.newBucket (P.buckets d * 2) (levelHash P x.1 level (P.buckets d)))
        := by
      simp only [Access.Ok]
      rwa [← P.buckets_succ hd, allocatedBuckets_buckets, P.buckets_succ hd]
    rw [List.length_cons] at hlen
    have hnext : (src ++ [x]).length + todo.length ≤ P.elistSize := by
      rw [List.length_append, List.length_singleton]
      omega
    simp only [rehashAccess]
    split_ifs with hb
    · rcases rest with _ | ⟨e, rest⟩
      · exact List.forall_mem_cons.2 ⟨hnew, by simp⟩
      · rw [List.nodup_cons] at hn
        refine List.forall_mem_cons.2 ⟨hnew, List.forall_mem_cons.2 ⟨?_,
          List.forall_mem_cons.2 ⟨P.elistSize_pos, ?_⟩⟩⟩
        · simp [Access.Ok, Heap.setElist]
        exact rehashAccess_ok hnull hd todo _ rest _ _ hn.2
          (fun y hy => hsub (List.mem_cons_of_mem _ hy))
          ⟨H.toFilled.alloc hlt hnull hsub hn.1 hb, H.plist⟩ hnext
    · have helem := (H.elem _ hlt hb).2.2
      refine List.forall_mem_cons.2 ⟨hnew, List.forall_mem_cons.2 ⟨?_,
        List.forall_mem_cons.2 ⟨?_, ?_⟩⟩⟩
      · exact Option.isSome_iff_exists.2 ⟨_, helem⟩
      · refine lt_of_le_of_lt ?_ (show src.length < P.elistSize by omega)
        exact (congrArg (fun l => (l.getD []).length) helem).le.trans (List.length_filter_le _ _)
      · exact rehashAccess_ok hnull hd todo _ rest _ _ hn hsub
          ⟨H.toFilled.append hlt hb, H.plist⟩ hnext

variable [DecidableEq K]

theorem searchAccess_ok (key : K) : ∀ (e : List (K × V)) (i : ℕ), i + e.length ≤ P.elistSize →
    ∀ a ∈ searchAccess key i e, a.Ok P h
  | [], _, _ => by simp [searchAccess]
  | kv :: e, i, hlen => by
    rw [List.length_cons] at hlen
    refine List.forall_mem_cons.2 ⟨by simp only [Access.Ok]; omega, ?_⟩
    split_ifs
    · simp
    · exact searchAccess_ok key e (i + 1) (by omega)

/-- What a call does after the search of its E-List is in the arrays. -/
theorem foundAccess_ok {c : Call K V} {curr depth b : ℕ} {fresh : List ℕ} {e : List (K × V)}
    (hd : 1 ≤ depth) (hlen : e.length ≤ P.elistSize) (hfresh : h.allocatable fresh = true)
    (he : Access.Ok P h (.asElist curr b)) :
    ∀ a ∈ foundAccess P h c curr depth (P.buckets depth) b fresh e, a.Ok P h := by
  unfold foundAccess
  split
  · split_ifs with h1
    · intro a ha
      rw [List.mem_singleton.1 ha]
      simp only [Access.Ok]
      omega
    · simp
  · split_ifs with h1
    · intro a ha
      rw [List.mem_singleton.1 ha]
      exact h1
    · refine List.forall_mem_cons.2 ⟨he, List.forall_mem_append.2 ⟨fun a ha => ?_, ?_⟩⟩
      · obtain ⟨i, hi, rfl⟩ := List.mem_map.1 ha
        rw [List.mem_range] at hi
        simp only [Access.Ok]
        omega
      · have hnodup : fresh.tail.Nodup := by
          simp only [Heap.allocatable, Bool.and_eq_true, decide_eq_true_eq] at hfresh
          exact hfresh.1.sublist (List.tail_sublist _)
        have hnull : 0 ∉ fresh.tail := fun hm =>
          (Heap.unused hfresh).nil_notMem (List.mem_of_mem_tail hm)
        exact rehashAccess_ok hnull hd e [] fresh.tail h _ hnodup (fun _ hx => hx) rehashed_init
          (by simpa using hlen)
  · simp

/-- Every element an iteration reads or writes is in its array, and every base is what it is taken
for. -/
theorem SafeAt.access {s : State K V} {f : Frame K V} (H : SafeAt P s) (hf : s.frame = some f)
    {fresh : List ℕ} (hfresh : s.heap.allocatable fresh = true) :
    ∀ a ∈ iterAccess P s f fresh, a.Ok P s.heap := by
  obtain ⟨hreach, hcount⟩ := H.frame f hf
  obtain ⟨hd, bs, hbs, hlen⟩ := H.sound.reached hreach
  have hb : levelHash P f.call.key (f.depth + 1) f.count < bs.length := by
    rw [hlen, hcount]
    exact Nat.mod_lt _ (P.buckets_pos _)
  unfold iterAccess
  simp only []
  set b := levelHash P f.call.key (f.depth + 1) f.count
  have hhas : s.heap.Has f.curr b := ⟨bs, hbs, hb⟩
  refine List.forall_mem_cons.2 ⟨⟨bs, hbs, by rwa [hlen, allocatedBuckets_buckets, ← hlen]⟩, ?_⟩
  split
  · rename_i hl
    obtain ⟨bs', h1, -⟩ := H.sound.node f.curr b bs hbs hb hl
    intro a ha
    rw [List.mem_singleton.1 ha]
    exact ⟨hl, bs', h1⟩
  · simp
  · rename_i hl
    split_ifs with hbase
    · split
      · intro a ha
        rw [List.mem_singleton.1 ha]
        exact P.elistSize_pos
      · simp
    · obtain ⟨l, h1, h2⟩ := H.sound.leaf f.curr b hhas hl hbase
      have he : Access.Ok P s.heap (.asElist f.curr b) := ⟨by simp [hl], l, h1⟩
      refine List.forall_mem_cons.2 ⟨he, ?_⟩
      rw [h1]
      refine List.forall_mem_append.2 ⟨searchAccess_ok _ l 0 (by omega), ?_⟩
      rw [hcount]
      exact foundAccess_ok hd h2 hfresh he

/-- In every run, every E-List that is reached has room for its pairs and every P-List the buckets
of its depth, and the next iteration, with whatever blocks `malloc` returns, stays in its arrays and
takes each base for what it is. -/
theorem carumap_safe (P : Params K) (es : List (Event K V)) (s : State K V)
    (hr : run (step P) (init P) es = some s) :
    (∀ p d, Reached P s.heap p d → ∃ bs, s.heap.plist p = some bs
        ∧ bs.length = P.plistSize * 2 ^ (d - 1) ∧ allocatedBuckets P bs.length = bs.length
        ∧ ∀ b < bs.length, (bucketAt bs b).lock = .eUnlocked → (bucketAt bs b).base ≠ 0 →
          ∃ l, s.heap.elist (bucketAt bs b).base = some l ∧ l.length ≤ P.elistSize)
      ∧ ∀ f ∈ s.frame, Reached P s.heap f.curr f.depth
        ∧ f.count = P.plistSize * 2 ^ (f.depth - 1)
        ∧ ∀ fresh, s.heap.allocatable fresh = true →
          ∀ a ∈ iterAccess P s f fresh, a.Ok P s.heap := by
  have H : SafeAt P s := run_inv' (I := SafeAt P) (fun _ _ _ H hs => H.step hs) hr (safeAt_init P)
  refine ⟨fun p d hp => ?_, fun f hf => ?_⟩
  · obtain ⟨-, bs, h1, h2⟩ := H.sound.reached hp
    refine ⟨bs, h1, h2, by rw [h2, allocatedBuckets_buckets], fun b hb hl hne => ?_⟩
    have hbk : s.heap.bucket p b = bucketAt bs b := by simp [Heap.bucket, h1]
    rw [← hbk] at hl hne ⊢
    exact H.sound.leaf p b ⟨bs, h1, hb⟩ hl hne
  · exact ⟨(H.frame f hf).1, (H.frame f hf).2, fun fresh hfresh => H.access hf hfresh⟩

/-- A table whose E-Lists hold one pair is about to rehash the one of key 1 for key 4. -/
def beforeRehash : List (Event ℕ ℕ) := [.call (.insert 1 10), .iter [128], .call (.insert 4 20)]

theorem carumap_safe_beforeRehash : ∃ s f,
    run (step oneByOne) (init oneByOne) beforeRehash = some s ∧ s.frame = some f
      ∧ .newBucket 2 0 ∈ iterAccess oneByOne s f [192, 256]
      ∧ ∀ a ∈ iterAccess oneByOne s f [192, 256], a.Ok oneByOne s.heap := by
  refine ⟨_, _, rfl, rfl, by decide +kernel, ?_⟩
  exact ((carumap_safe oneByOne beforeRehash _ rfl).2 _ rfl).2.2 [192, 256] (by decide +kernel)

end Access

end Rome.Carumap
