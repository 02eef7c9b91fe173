import Rome.Proofs.IhtApply

/-!
# The slots of the cache

`fetch_cache` and `try_cache` flatten a bucket path into one place of a layer (`place_bucketPath`).
A slot of a cache is filled with what `try_cache` stored for one path (`CacheInv`), and the paths of
the first two layers have slots of their own. In the third layer `[n₁, n₂]` has the place
`n₁ * PLIST_SIZE + n₂`, although `n₂` goes up to `2 * PLIST_SIZE - 2`: two paths can share a slot
(`Aliased`), and then the second is answered with the first one's copy.
-/

namespace Rome

namespace Cache

variable {K : Type*} {P : IhtParams K} {depth : CacheDepth} {c c' : Cache} {ns ms : List ℕ}

/-- The place in its layer a path has. -/
def flat (plistSize : ℕ) : List ℕ → ℕ
  | [n] => n
  | [n₁, n₂] => n₁ * plistSize + n₂
  | _ => 0

theorem place_bucketPath (plistSize : ℕ) (depth : CacheDepth) (ns : List ℕ) :
    place plistSize depth.toNat (bucketPath ns) 8 0 0 plistSize =
      if ns.length < depth.toNat then
        some (ns.length, flat plistSize ns, plistSize * 2 ^ ns.length)
      else none := by
  match ns with
  | [] => cases depth <;> simp [place, bucketPath, CacheDepth.toNat, flat, List.replicate]
  | [n] => cases depth <;> simp [place, bucketPath, CacheDepth.toNat, flat, List.replicate]
  | [n₁, n₂] =>
    cases depth <;>
      simp [place, bucketPath, CacheDepth.toNat, flat, List.replicate, sizes]
    omega
  | n₁ :: n₂ :: n₃ :: ns =>
    have hlen : ¬ (n₁ :: n₂ :: n₃ :: ns).length < depth.toNat := by
      cases depth <;> simp only [CacheDepth.toNat, List.length_cons] <;> omega
    rw [if_neg hlen]
    cases depth <;> simp [place, bucketPath, CacheDepth.toNat]

theorem length_lt_three (h : ns.length < depth.toNat) : ns.length < 3 := by
  cases depth <;> simp only [CacheDepth.toNat] at h <;> omega

theorem getD_bucketPath {i : ℕ} (hi : i < 8) (hn : i < ns.length) :
    (bucketPath ns).getD i (-1) = ns[i] := by
  simp [bucketPath, hi, hn]

theorem getD_bucketPath_of_le {i : ℕ} (hn : ns.length ≤ i) : (bucketPath ns).getD i (-1) = -1 := by
  simp only [bucketPath, List.getD_eq_getElem?_getD, List.getElem?_take, List.getElem?_append,
    List.length_map, if_neg (not_lt.2 hn), List.getElem?_replicate]
  split_ifs <;> rfl

/-- A path that is padded says where it leads. -/
theorem bucketPath_inj (hn : ns.length < 8) (h : bucketPath ns = bucketPath ms) : ns = ms := by
  have hlen : ms.length = ns.length := by
    rcases lt_trichotomy ms.length ns.length with hlt | heq | hgt
    · have h1 := getD_bucketPath (by omega) hlt
      rw [h, getD_bucketPath_of_le le_rfl] at h1
      omega
    · exact heq
    · have h1 := getD_bucketPath hn hgt
      rw [← h, getD_bucketPath_of_le le_rfl] at h1
      omega
  refine List.ext_getElem hlen.symm fun i h1 h2 => ?_
  have h3 := getD_bucketPath (by omega) h1
  rw [h, getD_bucketPath (by omega) h2] at h3
  omega

theorem set_bucketPath (ns : List ℕ) (b : ℕ) :
    (bucketPath ns).set ns.length b = bucketPath (ns ++ [b]) := by
  refine List.ext_getElem (by simp [bucketPath]) fun i h1 h2 => ?_
  simp only [bucketPath, List.length_set, List.length_take, List.length_append, List.length_map,
    List.length_replicate] at h1
  rw [List.getElem_set]
  by_cases hi : ns.length = i
  · subst hi
    simp [bucketPath]
  · rw [if_neg hi]
    simp only [bucketPath, List.getElem_take, List.map_append, List.append_assoc]
    by_cases hlt : i < ns.length
    · rw [List.getElem_append_left (by simpa), List.getElem_append_left (by simpa)]
    · rw [List.getElem_append_right (by simp; omega), List.getElem_append_right (by simp; omega),
        List.getElem_append_right (by simp; omega)]
      simp only [List.getElem_replicate]

/-- The slot `i` of layer `l`. -/
def slot (c : Cache) (l i : ℕ) : Option (List PlistPair) :=
  if (c.isCached.getD l []).getD i false then some ((c.layers.getD l []).getD i []) else none

theorem fetch_bucketPath (plistSize : ℕ) (depth : CacheDepth) (c : Cache) (ns : List ℕ) :
    c.fetch plistSize depth (bucketPath ns) =
      if ns.length < depth.toNat then c.slot ns.length (flat plistSize ns) else none := by
  rw [fetch, place_bucketPath]
  split_ifs <;> rfl

theorem tryCache_cases (plistSize : ℕ) (depth : CacheDepth) (c : Cache) (bs : List PlistPair)
    (ns : List ℕ) :
    (c.tryCache plistSize depth bs (bucketPath ns)).2 = c
      ∨ ns.length < depth.toNat ∧ c.slot ns.length (flat plistSize ns) = none
        ∧ calcified bs (plistSize * 2 ^ ns.length) = true
        ∧ (c.tryCache plistSize depth bs (bucketPath ns)).2 =
          { isCached := c.isCached.modify ns.length fun l => l.set (flat plistSize ns) true
            layers := c.layers.modify ns.length fun l =>
              l.set (flat plistSize ns) (bs.take (plistSize * 2 ^ ns.length))
            stored := c.stored ++ [(bucketPath ns, bs.take (plistSize * 2 ^ ns.length))] } := by
  rw [tryCache, place_bucketPath]
  by_cases hlen : ns.length < depth.toNat
  · rw [if_pos hlen]
    by_cases hc : (c.isCached.getD ns.length []).getD (flat plistSize ns) false = true
    · simp only [hc, if_true, true_or]
    · by_cases hcal : calcified bs (plistSize * 2 ^ ns.length) = true
      · refine .inr ⟨hlen, ?_, hcal, ?_⟩
        · simp only [slot, hc, if_false, Bool.false_eq_true]
        · simp only [hc, hcal, if_false, if_true, Bool.false_eq_true]
      · simp only [hc, hcal, if_false, Bool.false_eq_true, true_or]
  · rw [if_neg hlen]
    exact .inl rfl

theorem getD_modify_set {α : Type*} {L : List (List α)} {l i : ℕ} (x d : α)
    (hl : l < L.length) (hi : i < (L.getD l []).length) (l' i' : ℕ) :
    ((L.modify l fun r => r.set i x).getD l' []).getD i' d =
      if l' = l ∧ i' = i then x else (L.getD l' []).getD i' d := by
  simp only [List.getD_eq_getElem?_getD, List.getElem?_modify, Option.map_eq_map] at hi ⊢
  by_cases hl' : l = l'
  · subst hl'
    rw [List.getElem?_eq_getElem hl] at hi ⊢
    simp only [Option.getD_some] at hi
    simp only [if_true, Option.map_some, Option.getD_some, List.getElem?_set, true_and]
    by_cases hi' : i = i'
    · subst hi'
      simp [hi]
    · rw [if_neg hi', if_neg fun h => hi' h.symm]
  · have hl'' : ¬ l' = l := fun h => hl' h.symm
    simp [hl', hl'']

/-- The numbers of slots of the layers. -/
def layerSizes (plistSize : ℕ) : List ℕ := [1, plistSize, plistSize * plistSize * 2]

/-- The place of a valid path is one of its layer. -/
theorem flat_lt (hv : Valid P.plistSize ns) (hlen : ns.length < 3) :
    flat P.plistSize ns < (layerSizes P.plistSize).getD ns.length 0 := by
  have h4 := P.four_le
  match ns with
  | [] => simp [flat, layerSizes]
  | [n] =>
    have h1 := hv 0 (by simp)
    simp only [List.getElem_cons_zero, pow_zero, mul_one] at h1
    simp only [flat, layerSizes, List.length_singleton, List.getD_cons_succ, List.getD_cons_zero]
    omega
  | [n₁, n₂] =>
    have h1 := hv 0 (by simp)
    have h2 := hv 1 (by simp)
    simp only [List.getElem_cons_zero, pow_zero, mul_one] at h1
    simp only [List.getElem_cons_succ, List.getElem_cons_zero, pow_one] at h2
    simp only [flat, layerSizes, List.length_cons, List.length_nil, Nat.zero_add,
      List.getD_cons_succ, List.getD_cons_zero]
    have h3 : (n₁ + 2) * P.plistSize ≤ P.plistSize * P.plistSize + P.plistSize := by
      rw [← Nat.succ_mul]
      exact Nat.mul_le_mul_right _ (by omega)
    rw [Nat.add_mul] at h3
    have h5 : 4 * P.plistSize ≤ P.plistSize * P.plistSize := Nat.mul_le_mul_right _ h4
    omega
  | _ :: _ :: _ :: _ => simp only [List.length_cons] at hlen; omega

/-- What a cache of `try_cache` calls on valid paths holds: each stored copy in its slot, each
filled slot by one path. -/
structure CacheInv (P : IhtParams K) (depth : CacheDepth) (c : Cache) : Prop where
  isCached : c.isCached.map List.length = layerSizes P.plistSize
  layers : c.layers.map List.length = layerSizes P.plistSize
  path : ∀ x ∈ c.stored, ∃ ns, x.1 = bucketPath ns ∧ Valid P.plistSize ns ∧ ns.length < depth.toNat
    ∧ c.slot ns.length (flat P.plistSize ns) = some x.2
  filled : ∀ l i bs, c.slot l i = some bs → ∃ ns, ns.length = l ∧ flat P.plistSize ns = i
    ∧ (bucketPath ns, bs) ∈ c.stored
  apart : ∀ ns ms bs bs', (bucketPath ns, bs) ∈ c.stored → (bucketPath ms, bs') ∈ c.stored →
    ns.length = ms.length → flat P.plistSize ns = flat P.plistSize ms → ns = ms

theorem slot_init (plistSize l i : ℕ) : (init plistSize).slot l i = none := by
  have h : ∀ L ∈ (init plistSize).isCached, ∀ x ∈ L, x = false := by simp [init]
  have h' : (((init plistSize).isCached.getD l []).getD i false) = false := by
    simp only [List.getD_eq_getElem?_getD]
    rcases hl : (init plistSize).isCached[l]? with _ | L
    · simp
    · rcases hi : L[i]? with _ | x
      · simp [hi]
      · simp only [Option.getD_some, hi]
        exact h L (List.mem_of_getElem? hl) x (List.mem_of_getElem? hi)
  rw [slot, h', if_neg Bool.false_ne_true]

theorem cacheInv_init (P : IhtParams K) (depth : CacheDepth) :
    CacheInv P depth (init P.plistSize) where
  isCached := by simp [init, layerSizes]
  layers := by simp [init, layerSizes]
  path x hx := by simp [init] at hx
  filled l i bs h := by simp [slot_init] at h
  apart ns ms bs bs' h := by simp [init] at h

theorem map_length_modify_set {α : Type*} (L : List (List α)) (l i : ℕ) (x : α) :
    (L.modify l fun r => r.set i x).map List.length = L.map List.length := by
  refine List.ext_getElem? fun j => ?_
  simp only [List.getElem?_map, List.getElem?_modify, Option.map_eq_map, Option.map_map]
  congr 1
  funext r
  by_cases h : l = j <;> simp [h]

theorem length_getD_of_map {α : Type*} {L : List (List α)} {sz : List ℕ} {l : ℕ}
    (h : L.map List.length = sz) (hl : l < sz.length) :
    l < L.length ∧ (L.getD l []).length = sz.getD l 0 := by
  subst h
  rw [List.length_map] at hl
  refine ⟨hl, ?_⟩
  simp [List.getElem?_eq_getElem hl]

/-- The slots after a P-List is stored. -/
theorem CacheInv.slot_store (H : CacheInv P depth c) (hv : Valid P.plistSize ns)
    (hlen : ns.length < depth.toNat) (bs : List PlistPair) (st : List (List ℤ × List PlistPair))
    (l i : ℕ) :
    slot { isCached := c.isCached.modify ns.length fun r => r.set (flat P.plistSize ns) true
           layers := c.layers.modify ns.length fun r => r.set (flat P.plistSize ns) bs
           stored := st } l i =
      if l = ns.length ∧ i = flat P.plistSize ns then some bs else c.slot l i := by
  have h3 := length_lt_three hlen
  have hf := flat_lt hv h3
  obtain ⟨hl₁, hs₁⟩ := length_getD_of_map H.isCached (l := ns.length) (by simpa [layerSizes])
  obtain ⟨hl₂, hs₂⟩ := length_getD_of_map H.layers (l := ns.length) (by simpa [layerSizes])
  rw [slot, getD_modify_set _ _ hl₁ (by rw [hs₁]; exact hf),
    getD_modify_set _ _ hl₂ (by rw [hs₂]; exact hf)]
  by_cases h : l = ns.length ∧ i = flat P.plistSize ns
  · simp only [if_pos h, if_true]
  · simp only [if_neg h, slot]

theorem CacheInv.tryCache (H : CacheInv P depth c) (hv : Valid P.plistSize ns)
    (bs : List PlistPair) :
    CacheInv P depth (c.tryCache P.plistSize depth bs (bucketPath ns)).2 := by
  rcases tryCache_cases P.plistSize depth c bs ns with h | ⟨hlen, hfree, -, h⟩
  · rw [h]
    exact H
  rw [h]
  have h3 := length_lt_three hlen
  have hslot := H.slot_store hv hlen (bs.take (P.plistSize * 2 ^ ns.length))
    (c.stored ++ [(bucketPath ns, bs.take (P.plistSize * 2 ^ ns.length))])
  have hnew : ∀ ms bs', (bucketPath ms, bs') ∈ c.stored →
      ¬ (ms.length = ns.length ∧ flat P.plistSize ms = flat P.plistSize ns) := by
    rintro ms bs' hms ⟨h1, h2⟩
    obtain ⟨ms', h4, -, h5, h6⟩ := H.path _ hms
    obtain rfl := bucketPath_inj (by have := length_lt_three h5; omega) h4.symm
    rw [h1, h2, hfree] at h6
    cases h6
  refine ⟨by rw [map_length_modify_set, H.isCached], by rw [map_length_modify_set, H.layers],
    fun x hx => ?_, fun l i bs' hl => ?_, fun ms ms' b b' hm hm' hlen' hflat => ?_⟩
  · rcases List.mem_append.1 hx with hx | hx
    · obtain ⟨ms, h1, h2, h4, h5⟩ := H.path x hx
      refine ⟨ms, h1, h2, h4, ?_⟩
      rw [hslot, if_neg (hnew ms x.2 (by rw [← h1]; exact hx)), h5]
    · rw [List.mem_singleton.1 hx]
      refine ⟨ns, rfl, hv, hlen, ?_⟩
      rw [hslot, if_pos ⟨rfl, rfl⟩]
  · rw [hslot] at hl
    split_ifs at hl with hli
    · rw [Option.some.injEq] at hl
      exact ⟨ns, hli.1.symm, hli.2.symm, by simp [hl]⟩
    · obtain ⟨ms, h1, h2, h4⟩ := H.filled l i bs' hl
      exact ⟨ms, h1, h2, List.mem_append_left _ h4⟩
  · simp only [List.mem_append, List.mem_singleton, Prod.mk.injEq] at hm hm'
    rcases hm with hm | ⟨hm, -⟩ <;> rcases hm' with hm' | ⟨hm', -⟩
    · exact H.apart ms ms' b b' hm hm' hlen' hflat
    · obtain rfl := bucketPath_inj (by omega) hm'.symm
      exact absurd ⟨hlen', hflat⟩ (hnew ms b hm)
    · obtain rfl := bucketPath_inj (by omega) hm.symm
      exact absurd ⟨hlen'.symm, hflat.symm⟩ (hnew ms' b' hm')
    · rw [← bucketPath_inj (by omega) hm.symm, ← bucketPath_inj (by omega) hm'.symm]

/-- The path is one of the third layer. -/
def IsThird (path : List ℤ) : Prop := path.getD 1 (-1) ≠ -1 ∧ path.getD 2 (-1) = -1

/-- Another path of the third layer, with the same place as `path`, has been stored. -/
def Aliased (plistSize : ℕ) (stored : List (List ℤ × List PlistPair)) (path : List ℤ) : Prop :=
  IsThird path ∧ ∃ x ∈ stored, IsThird x.1 ∧ x.1 ≠ path
    ∧ x.1.getD 0 (-1) * plistSize + x.1.getD 1 (-1)
      = path.getD 0 (-1) * plistSize + path.getD 1 (-1)

instance (path : List ℤ) : Decidable (IsThird path) :=
  inferInstanceAs (Decidable (_ ∧ _))

instance (plistSize : ℕ) (stored : List (List ℤ × List PlistPair)) (path : List ℤ) :
    Decidable (Aliased plistSize stored path) :=
  inferInstanceAs (Decidable (_ ∧ _))

theorem isThird_bucketPath : IsThird (bucketPath ns) ↔ ns.length = 2 := by
  constructor
  · rintro ⟨h1, h2⟩
    by_contra hne
    rcases Nat.lt_or_ge ns.length 2 with hlt | hge
    · exact h1 (getD_bucketPath_of_le (by omega))
    · rw [getD_bucketPath (by omega) (by omega)] at h2
      omega
  · intro h
    refine ⟨?_, getD_bucketPath_of_le (by omega)⟩
    rw [getD_bucketPath (by omega) (by omega)]
    omega

theorem flat_eq_iff (hn : ns.length = 2) (hm : ms.length = 2) (plistSize : ℕ) :
    flat plistSize ms = flat plistSize ns ↔
      (bucketPath ms).getD 0 (-1) * plistSize + (bucketPath ms).getD 1 (-1) =
        (bucketPath ns).getD 0 (-1) * plistSize + (bucketPath ns).getD 1 (-1) := by
  obtain ⟨n₁, n₂, rfl⟩ := List.length_eq_two.1 hn
  obtain ⟨m₁, m₂, rfl⟩ := List.length_eq_two.1 hm
  simp only [flat, bucketPath, List.map_cons, List.cons_append, List.take_succ_cons,
    List.getD_cons_zero, List.getD_cons_succ, Int.ofNat_eq_natCast]
  norm_cast

/-- Only in the third layer do two paths have one place. -/
theorem eq_of_flat_eq (hlen : ms.length = ns.length) (hlt : ns.length < 2) {plistSize : ℕ}
    (hflat : flat plistSize ms = flat plistSize ns) : ms = ns := by
  match ns, ms with
  | [], [] => rfl
  | [n], [m] => simpa [flat] using hflat
  | [], _ :: _ => simp at hlen
  | [_], [] => simp at hlen
  | [_], _ :: _ :: _ => simp at hlen
  | _ :: _ :: _, _ => simp only [List.length_cons] at hlt; omega

/-- A fetch answers with what was stored for its path, unless a stored path has the same place. -/
theorem CacheInv.fetch_stored_iff (H : CacheInv P depth c) (ns : List ℕ) :
    (∀ bs, c.fetch P.plistSize depth (bucketPath ns) = some bs → (bucketPath ns, bs) ∈ c.stored)
      ↔ ¬ Aliased P.plistSize c.stored (bucketPath ns) := by
  rw [fetch_bucketPath]
  constructor
  · rintro h ⟨h2, x, hx, h2', hne, heq⟩
    obtain ⟨ms, h1, -, hlen, hslot⟩ := H.path x hx
    rw [h1] at h2' hne heq
    rw [isThird_bucketPath] at h2 h2'
    have hflat := (flat_eq_iff h2 h2' _).2 heq
    rw [if_pos (by omega), h2, ← hflat, ← h2', hslot] at h
    have hmem : (bucketPath ms, x.2) ∈ c.stored := by
      rw [← h1]
      exact hx
    exact hne (by rw [H.apart ms ns x.2 x.2 hmem (h x.2 rfl) (by omega) hflat])
  · intro hna bs hbs
    split_ifs at hbs with hlen
    obtain ⟨ms, h1, h2, hmem⟩ := H.filled _ _ bs hbs
    have h3 := length_lt_three hlen
    rcases Nat.lt_or_ge ns.length 2 with hlt | hge
    · rwa [← eq_of_flat_eq h1 hlt h2]
    · have hn2 : ns.length = 2 := by omega
      by_contra hmem'
      refine hna ⟨isThird_bucketPath.2 hn2, _, hmem, isThird_bucketPath.2 (by omega), ?_,
        (flat_eq_iff hn2 (by omega) _).1 h2⟩
      rintro heq
      exact hmem' (by rw [← heq]; exact hmem)

/-- Every run of calls on valid paths keeps the slots. -/
theorem CacheInv.run {evs : List CacheEvent} (H : CacheInv P depth c)
    (hr : Machine.run (Cache.step P.plistSize depth) c evs = some c') : CacheInv P depth c' := by
  refine Machine.run_inv' (I := CacheInv P depth) (fun c e c' H hs => ?_) hr H
  simp only [Cache.step] at hs
  split_ifs at hs with hv
  cases e with
  | tryCache bs path =>
    simp only [Option.some.injEq] at hs
    rw [← hs]
    exact H.tryCache hv.2 bs
  | fetch path =>
    simp only [Option.some.injEq] at hs
    rw [← hs]
    exact H

end Cache

end Rome
