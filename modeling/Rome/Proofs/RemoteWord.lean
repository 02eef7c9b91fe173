import Rome.RemoteWord
import Rome.Lib.Machine

/-!
# Remote words are swapped at one moment

A call is taken when a request of its finds what it compares with, or, for a `CompareAndSwap`, when
its only request is executed. A request of an `AtomicSwap` that finds something else changes nothing
and is posted again with what the word then was, so only a call taken in between makes it fail once
more. Each call taken can do that to the requests of all the other threads, and to no more.
-/

namespace Rome

open Lin Machine

variable {ι : Type*}

/-- The request is one that the call posts. -/
def WordOp.Posts : WordOp → AtomicWr → Prop
  | .compareAndSwap ptr expected swap, wr => wr = ⟨ptr, expected, swap⟩
  | .atomicSwap ptr swap _, wr => wr.remoteAddr = ptr ∧ wr.swap = swap

theorem WordOp.posts_wr : ∀ op : WordOp, op.Posts op.wr
  | .compareAndSwap _ _ _ => rfl
  | .atomicSwap _ _ _ => ⟨rfl, rfl⟩

theorem WordOp.Posts.next {op : WordOp} {wr wr' : AtomicWr} {prev : UInt64} (h : op.Posts wr)
    (hn : op.next wr prev = some wr') : op.Posts wr' := by
  cases op with
  | compareAndSwap ptr expected swap => cases hn
  | atomicSwap ptr swap hint =>
    unfold WordOp.next at hn
    simp only [] at hn
    split_ifs at hn with hp
    obtain rfl := Option.some.inj hn
    exact h

/-- A request after which the call returns takes the call. -/
theorem WordOp.Posts.take {op : WordOp} {wr : AtomicWr} {memory : RemotePtr → UInt64}
    (h : op.Posts wr) (hn : op.next wr (memory wr.remoteAddr) = none) :
    wordSpec memory op = (wr.execute memory, memory wr.remoteAddr) := by
  cases op with
  | compareAndSwap ptr expected swap =>
    obtain rfl : wr = ⟨ptr, expected, swap⟩ := h
    rfl
  | atomicSwap ptr swap hint =>
    obtain ⟨rfl, rfl⟩ := h
    unfold WordOp.next at hn
    simp only [] at hn
    split_ifs at hn with hp
    unfold wordSpec AtomicWr.execute
    rw [if_pos hp]

/-- A request that is posted again has changed nothing, and would not fail at once. -/
theorem WordOp.next_some {op : WordOp} {wr wr' : AtomicWr} {memory : RemotePtr → UInt64}
    (hn : op.next wr (memory wr.remoteAddr) = some wr') :
    wr.execute memory = memory ∧ wr.compareAdd ≠ memory wr.remoteAddr ∧
      wr'.compareAdd = memory wr'.remoteAddr ∧ ∃ ptr swap hint, op = .atomicSwap ptr swap hint := by
  cases op with
  | compareAndSwap ptr expected swap => cases hn
  | atomicSwap ptr swap hint =>
    unfold WordOp.next at hn
    simp only [] at hn
    split_ifs at hn with hp
    obtain rfl := Option.some.inj hn
    refine ⟨?_, Ne.symm hp, rfl, ptr, swap, hint, rfl⟩
    unfold AtomicWr.execute
    rw [if_neg hp]

/-! ## Linearizability -/

/-- The call a thread is in, with its result once it is taken. -/
def WordPhase.caller : WordPhase → Option (ℕ × WordOp × Option UInt64)
  | .idle => none
  | .posted k op _ => some (k, op, none)
  | .completed k op wr prev => some (k, op, if op.next wr prev = none then some prev else none)

theorem WordPhase.caller_again {k : ℕ} {op : WordOp} {wr wr' : AtomicWr} {prev : UInt64}
    (hn : op.next wr prev = some wr') :
    (WordPhase.completed k op wr prev).caller = some (k, op, none) := by
  rw [WordPhase.caller, if_neg (by rw [hn]; simp)]

/-- The request of the thread is one of its call. -/
def WordPhase.Ok : WordPhase → Prop
  | .idle => True
  | .posted _ op wr => op.Posts wr
  | .completed _ op wr _ => op.Posts wr

structure WordInv [DecidableEq ι] (m₀ : RemotePtr → UInt64) (s : WordState ι) : Prop where
  callers : Callers wordSpec m₀ s.hist s.memory s.calls fun t => (s.phase t).caller
  ok : ∀ t, (s.phase t).Ok

variable [DecidableEq ι] {m₀ : RemotePtr → UInt64} {s s' : WordState ι}

theorem wordInv_init (m₀ : RemotePtr → UInt64) : WordInv m₀ (wordInit m₀ : WordState ι) :=
  ⟨.init, fun _ => trivial⟩

theorem caller_goto (s : WordState ι) (t : ι) (ph : WordPhase) :
    (fun t' => (Function.update s.phase t ph t').caller)
      = Function.update (fun t' => (s.phase t').caller) t ph.caller :=
  Function.comp_update WordPhase.caller s.phase t ph

theorem WordInv.ok_goto (H : WordInv m₀ s) (t : ι) {ph : WordPhase} (h : ph.Ok) (t' : ι) :
    (Function.update s.phase t ph t').Ok := by
  by_cases ht : t' = t
  · subst ht
    rwa [Function.update_self]
  · rw [Function.update_of_ne ht]
    exact H.ok t'

/-- A thread moves on in its call without it being taken. -/
theorem caller_stay {t : ι} {ph : WordPhase} (h : ph.caller = (s.phase t).caller) :
    (fun t' => (Function.update s.phase t ph t').caller) = fun t' => (s.phase t').caller := by
  rw [caller_goto, h]
  exact Function.update_eq_self t _

theorem WordInv.step (H : WordInv m₀ s) {e : WordEvent ι} (hs : wordStep s e = some s') :
    WordInv m₀ s' := by
  cases e with
  | call t op =>
    simp only [wordStep] at hs
    split at hs
    · rename_i hph
      obtain rfl := Option.some.inj hs
      refine ⟨?_, H.ok_goto t op.posts_wr⟩
      rw [caller_goto]
      exact H.callers.invoke op (by rw [hph]; rfl)
    · cases hs
  | execute t =>
    simp only [wordStep] at hs
    split at hs
    · rename_i k op wr hph
      obtain rfl := Option.some.inj hs
      have hok : op.Posts wr := by
        have h := H.ok t
        rwa [hph] at h
      refine ⟨?_, H.ok_goto t hok⟩
      obtain hn | ⟨wr', hn⟩ := Option.eq_none_or_eq_some (op.next wr (s.memory wr.remoteAddr))
      · have hw : (s.phase t).caller = some (k, op, none) := by rw [hph]; rfl
        have htake := H.callers.take hw
        rw [hok.take hn] at htake
        rw [caller_goto, WordPhase.caller, if_pos hn]
        exact htake
      · rw [caller_stay (by rw [hph, WordPhase.caller_again hn]; rfl), (WordOp.next_some hn).1]
        exact H.callers
    · cases hs
  | poll t =>
    simp only [wordStep] at hs
    split at hs
    · rename_i k op wr prev hph
      have hok : op.Posts wr := by
        have h := H.ok t
        rwa [hph] at h
      split at hs
      · rename_i hn
        obtain rfl := Option.some.inj hs
        refine ⟨?_, H.ok_goto t trivial⟩
        rw [caller_goto]
        refine H.callers.respond (o := op) ?_
        rw [hph, WordPhase.caller, if_pos hn]
      · rename_i wr' hn
        obtain rfl := Option.some.inj hs
        refine ⟨?_, H.ok_goto t (hok.next hn)⟩
        rw [caller_stay (by rw [hph, WordPhase.caller_again hn]; rfl)]
        exact H.callers
    · cases hs

/-- However the requests of the threads are interleaved, the history of their calls is one of words
that are compared and swapped, or swapped, at one moment. -/
theorem remote_words_linearizable (m₀ : RemotePtr → UInt64) (es : List (WordEvent ι))
    (s : WordState ι) (hr : run wordStep (wordInit m₀) es = some s) :
    Linearizable wordSpec m₀ s.hist :=
  (run_inv' (fun _ _ _ H hs => WordInv.step H hs) hr (wordInv_init m₀)).callers.linearizable

/-- Two threads on a word that holds 5: the other thread's call makes the swap fail once more. -/
def contendedSwap : List (WordEvent Bool) :=
  [.call false (.atomicSwap (.of 1 64) 7 0), .call true (.compareAndSwap (.of 1 64) 5 6),
    .execute false, .poll false, .execute true, .execute false, .poll false, .execute false,
    .poll false, .poll true]

theorem remote_words_linearizable_contendedSwap : ∃ s,
    run wordStep (wordInit fun _ => 5) contendedSwap = some s ∧
      Linearizable wordSpec (fun _ => 5) s.hist := by
  obtain ⟨s, hs⟩ := Option.isSome_iff_exists.1
    (show (run wordStep (wordInit fun _ => 5) contendedSwap).isSome by decide +kernel)
  exact ⟨s, hs, remote_words_linearizable _ contendedSwap s hs⟩

/-! ## How often a swap is tried -/

/-- How often a request will be posted if no other call is taken. -/
def attempts (memory : RemotePtr → UInt64) (op : WordOp) (wr : AtomicWr) : ℕ :=
  match op with
  | .compareAndSwap _ _ _ => 1
  | .atomicSwap _ _ _ => if wr.compareAdd = memory wr.remoteAddr then 1 else 2

theorem attempts_pos (memory : RemotePtr → UInt64) (op : WordOp) (wr : AtomicWr) :
    1 ≤ attempts memory op wr := by
  unfold attempts
  repeat' split
  all_goals omega

theorem attempts_le (memory : RemotePtr → UInt64) (op : WordOp) (wr : AtomicWr) :
    attempts memory op wr ≤ 2 := by
  unfold attempts
  repeat' split
  all_goals omega

/-- The steps that are left for a thread, with those that its call can cause to `others` threads. -/
def WordPhase.left (others : ℕ) (memory : RemotePtr → UInt64) : WordPhase → ℕ
  | .idle => 0
  | .posted _ op wr => 2 * attempts memory op wr + 2 * others
  | .completed _ op wr prev =>
    match op.next wr prev with
    | none => 1
    | some wr' => 1 + 2 * attempts memory op wr' + 2 * others

/-- Another memory causes one more attempt. -/
theorem WordPhase.left_memory (others : ℕ) (memory memory' : RemotePtr → UInt64) (ph : WordPhase) :
    ph.left others memory' ≤ ph.left others memory + 2 := by
  cases ph with
  | idle => exact Nat.zero_le _
  | posted k op wr =>
    have h1 := attempts_le memory' op wr
    have h2 := attempts_pos memory op wr
    simp only [WordPhase.left]
    omega
  | completed k op wr prev =>
    simp only [WordPhase.left]
    split
    · omega
    · rename_i wr' _
      have h1 := attempts_le memory' op wr'
      have h2 := attempts_pos memory op wr'
      omega

theorem left_execute (others k : ℕ) (op : WordOp) (wr : AtomicWr) (memory : RemotePtr → UInt64) :
    (op.next wr (memory wr.remoteAddr) = none ∧
      (WordPhase.completed k op wr (memory wr.remoteAddr)).left others (wr.execute memory) + 1
        + 2 * others ≤ (WordPhase.posted k op wr).left others memory) ∨
    (wr.execute memory = memory ∧
      (WordPhase.completed k op wr (memory wr.remoteAddr)).left others memory + 1
        ≤ (WordPhase.posted k op wr).left others memory) := by
  obtain hn | ⟨wr', hn⟩ := Option.eq_none_or_eq_some (op.next wr (memory wr.remoteAddr))
  · refine .inl ⟨hn, ?_⟩
    have h := attempts_pos memory op wr
    simp only [WordPhase.left, hn]
    omega
  · obtain ⟨hsame, hne, hnext, ptr, swap, hint, rfl⟩ := WordOp.next_some hn
    refine .inr ⟨hsame, ?_⟩
    simp only [WordPhase.left, hn, attempts, if_pos hnext, if_neg hne]
    omega

/-- A thread in a call can take its next step. -/
theorem wordStep_enabled {s : WordState ι} {t : ι} (ht : s.phase t ≠ .idle) :
    (wordStep s (.execute t)).isSome ∨ (wordStep s (.poll t)).isSome := by
  cases hph : s.phase t with
  | idle => exact absurd hph ht
  | posted k op wr => exact .inl (by simp only [wordStep, hph, Option.isSome_some])
  | completed k op wr prev =>
    refine .inr ?_
    obtain hn | ⟨wr', hn⟩ := Option.eq_none_or_eq_some (op.next wr prev)
    · simp only [wordStep, hph, hn, Option.isSome_some]
    · simp only [wordStep, hph, hn, Option.isSome_some]

section Steps

variable [Fintype ι]

/-- The steps that are left when no call is made any more. -/
def WordState.left (s : WordState ι) : ℕ :=
  ∑ t, (s.phase t).left (Fintype.card ι - 1) s.memory

/-- A thread that is given `b` pays `c`, and `d` for each of the others. -/
theorem sum_pays {f f' : ι → ℕ} {t : ι} {b c d : ℕ}
    (ht : f' t + c + d * (Fintype.card ι - 1) ≤ f t + b) (hne : ∀ t' ≠ t, f' t' ≤ f t' + d) :
    ∑ t', f' t' + c ≤ ∑ t', f t' + b := by
  have hothers : ∑ t' ∈ Finset.univ.erase t, f' t'
      ≤ ∑ t' ∈ Finset.univ.erase t, f t' + d * (Fintype.card ι - 1) := by
    calc ∑ t' ∈ Finset.univ.erase t, f' t'
        ≤ ∑ t' ∈ Finset.univ.erase t, (f t' + d) :=
          Finset.sum_le_sum fun t' h => hne t' (Finset.ne_of_mem_erase h)
      _ = ∑ t' ∈ Finset.univ.erase t, f t' + d * (Fintype.card ι - 1) := by
          rw [Finset.sum_add_distrib, Finset.sum_const,
            Finset.card_erase_of_mem (Finset.mem_univ t), Finset.card_univ, smul_eq_mul,
            Nat.mul_comm]
  rw [← Finset.add_sum_erase _ f (Finset.mem_univ t),
    ← Finset.add_sum_erase _ f' (Finset.mem_univ t)]
  omega

/-- A thread goes on and nothing is written. -/
theorem left_goto {s : WordState ι} {t : ι} {ph : WordPhase} {b c : ℕ}
    (h : ph.left (Fintype.card ι - 1) s.memory + c
      ≤ (s.phase t).left (Fintype.card ι - 1) s.memory + b) :
    ∑ t', (Function.update s.phase t ph t').left (Fintype.card ι - 1) s.memory + c
      ≤ s.left + b := by
  refine sum_pays (t := t) (d := 0) ?_ fun t' ht => ?_
  · rw [Function.update_self]
    omega
  · rw [Function.update_of_ne ht]
    exact Nat.le_add_right _ _

/-- What the steps of a call can cost, its own and those it causes. -/
def callCost (ι : Type*) [Fintype ι] (e : WordEvent ι) : ℕ :=
  if e.isCall then 2 * Fintype.card ι + 3 else 0

/-- A call brings what its steps cost; each step is paid for. -/
theorem wordStep_left {s s' : WordState ι} {e : WordEvent ι} (hs : wordStep s e = some s') :
    s'.left + 1 ≤ s.left + callCost ι e := by
  cases e with
  | call t op =>
    simp only [wordStep] at hs
    split at hs
    · rename_i hph
      obtain rfl := Option.some.inj hs
      have hcard : 0 < Fintype.card ι := Fintype.card_pos_iff.mpr ⟨t⟩
      have ha := attempts_le s.memory op op.wr
      refine left_goto ?_
      simp only [hph, callCost, WordEvent.isCall, if_true, WordPhase.left]
      omega
    · cases hs
  | execute t =>
    simp only [wordStep] at hs
    split at hs
    · rename_i k op wr hph
      obtain rfl := Option.some.inj hs
      obtain ⟨-, h⟩ | ⟨hsame, h⟩ := left_execute (Fintype.card ι - 1) k op wr s.memory
      · refine sum_pays (t := t) (d := 2) ?_ fun t' ht => ?_
        · simp only [Function.update_self, hph]
          exact h.trans (Nat.le_add_right _ _)
        · simp only [Function.update_of_ne ht]
          exact WordPhase.left_memory _ _ _ _
      · unfold WordState.left
        simp only [hsame]
        exact left_goto (by rw [hph]; exact h.trans (Nat.le_add_right _ _))
    · cases hs
  | poll t =>
    simp only [wordStep] at hs
    split at hs
    · rename_i k op wr prev hph
      split at hs
      · rename_i hn
        obtain rfl := Option.some.inj hs
        refine left_goto ?_
        simp only [hph, WordPhase.left, hn]
        omega
      · rename_i wr' hn
        obtain rfl := Option.some.inj hs
        refine left_goto ?_
        simp only [hph, WordPhase.left, hn]
        omega
    · cases hs

theorem length_add_left : ∀ {es : List (WordEvent ι)} {s s' : WordState ι},
    run wordStep s es = some s' →
      es.length + s'.left ≤ s.left + (2 * Fintype.card ι + 3) * es.countP WordEvent.isCall := by
  intro es
  induction es with
  | nil =>
    intro s s' hr
    obtain rfl := Option.some.inj hr
    simp
  | cons e es ih =>
    intro s s' hr
    obtain ⟨s₁, h1, h2⟩ := run_cons_some hr
    have hhead := wordStep_left h1
    have htail := ih h2
    have hcost : callCost ι e + (2 * Fintype.card ι + 3) * es.countP WordEvent.isCall
        = (2 * Fintype.card ι + 3) * (e :: es).countP WordEvent.isCall := by
      rw [List.countP_cons, callCost]
      split_ifs <;> ring
    rw [List.length_cons]
    omega

/-- However the steps of `N` threads are interleaved and whatever hints they give, `n` calls have at
most `(2N + 3)n` steps, and a thread in a call can take its next step: all calls return if none is
made any more. -/
theorem remote_words_lock_free (m₀ : RemotePtr → UInt64) (es : List (WordEvent ι))
    (s : WordState ι) (hr : run wordStep (wordInit m₀) es = some s) :
    es.length ≤ (2 * Fintype.card ι + 3) * es.countP WordEvent.isCall ∧
      ∀ t, s.phase t ≠ .idle →
        (wordStep s (.execute t)).isSome ∨ (wordStep s (.poll t)).isSome := by
  have hinit : (wordInit m₀ : WordState ι).left = 0 := by
    unfold WordState.left wordInit
    exact Finset.sum_eq_zero fun _ _ => rfl
  have h := length_add_left hr
  rw [hinit] at h
  exact ⟨by omega, fun t ht => wordStep_enabled ht⟩

end Steps

theorem remote_words_lock_free_contendedSwap : ∃ s,
    run wordStep (wordInit fun _ => 5) contendedSwap = some s ∧ contendedSwap.length ≤ 7 * 2 := by
  obtain ⟨s, hs⟩ := Option.isSome_iff_exists.1
    (show (run wordStep (wordInit fun _ => 5) contendedSwap).isSome by decide +kernel)
  exact ⟨s, hs, (remote_words_lock_free _ contendedSwap s hs).1⟩

end Rome
