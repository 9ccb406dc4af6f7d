import ShardedEcho.TDigest.Percentile
import Mathlib.Data.Rat.Floor

/-!
# Accuracy after `add` and after one `compress()`

Samples added one by one to a fresh or reset digest sit in the buffer with weight one, and
`std::sort` orders them as the order statistics `sort(xs)`, whatever it does with equal
values (`StdSort.sort_map_sample`). With `t = q·n` the walk stops at index
`r = max(0, ⌈t⌉ − 1)`:

* `buffered_percentile_nearest_rank`: before any `compress()`, `percentile(q)` is the
  nearest-rank order statistic `sort(xs)[r]`;
* `compressed_percentile_run_mean`: after one `compress()`, `build_from` has cut `sort(xs)`
  into runs of at most `max(1, 4n/c)` samples, and `percentile(q)` is the mean of the run
  that holds index `r`.
-/

namespace ShardedEcho

open scoped List

/-! ## Fresh digests and their samples -/

/-- A digest as the constructor builds it or `reset()` leaves it. -/
def IsFresh (d : TDigest) : Prop := (∃ c, TDigest.new c = .ok d) ∨ ∃ s : TDigest, s.reset = d

/-- `sort(xs)`: the samples in non-decreasing order. -/
def orderStats (xs : List ℚ) : List ℚ := xs.insertionSort (· ≤ ·)

/-- The nearest rank `max(0, ⌈q·n⌉ − 1)` of the quantile `q` among `n` samples. -/
def nearestRank (q : ℚ) (n : ℕ) : ℕ := (⌈q * n⌉ - 1).toNat

/-- The arithmetic mean of the run `ys[a..b]`. -/
def runMean (ys : List ℚ) (a b : ℕ) : ℚ := ((ys.drop a).take (b + 1 - a)).sum / (b + 1 - a : ℕ)

theorem IsFresh.fields {d : TDigest} (hd : IsFresh d) :
    d.buffer = [] ∧ d.centroids = [] ∧ d.totalWeight = 0 := by
  rcases hd with ⟨c, hc⟩ | ⟨s, rfl⟩
  · unfold TDigest.new at hc
    split at hc
    · cases hc
      exact ⟨rfl, rfl, rfl⟩
    · cases hc
  · exact ⟨rfl, rfl, rfl⟩

@[simp] theorem foldl_add_compression (xs : List ℚ) (d : TDigest) :
    (xs.foldl TDigest.add d).compression = d.compression := by
  induction xs generalizing d with
  | nil => rfl
  | cons x xs ih => exact ih _

@[simp] theorem foldl_add_buffer (xs : List ℚ) (d : TDigest) :
    (xs.foldl TDigest.add d).buffer = d.buffer ++ xs := by
  induction xs generalizing d with
  | nil => simp
  | cons x xs ih => simp [ih, TDigest.add]

@[simp] theorem foldl_add_centroids (xs : List ℚ) (d : TDigest) :
    (xs.foldl TDigest.add d).centroids = d.centroids := by
  induction xs generalizing d with
  | nil => rfl
  | cons x xs ih => exact ih _

@[simp] theorem foldl_add_totalWeight (xs : List ℚ) (d : TDigest) :
    (xs.foldl TDigest.add d).totalWeight = d.totalWeight + xs.length := by
  induction xs generalizing d with
  | nil => simp
  | cons x xs ih =>
    simp only [List.foldl_cons, ih, TDigest.add, List.length_cons, Nat.cast_succ]
    ring

theorem orderStats_perm (xs : List ℚ) : orderStats xs ~ xs := List.perm_insertionSort _ _

theorem orderStats_sorted (xs : List ℚ) : (orderStats xs).Sorted (· ≤ ·) :=
  List.sorted_insertionSort _ _

/-- Sorting buffered samples gives the order statistics: items of equal value are equal
pairs, so the order `std::sort` leaves them in does not matter. -/
theorem StdSort.sort_map_sample (σ : StdSort) (xs : List ℚ) :
    σ.sort (xs.map sample) = (orderStats xs).map sample := by
  have hsample : ∀ p ∈ σ.sort (xs.map sample), p = sample p.1 := by
    intro p hp
    obtain ⟨v, -, rfl⟩ := List.mem_map.1 ((σ.perm _).subset hp)
    rfl
  have hvalues : (σ.sort (xs.map sample)).map Prod.fst = orderStats xs := by
    refine List.eq_of_perm_of_sorted ?_ ((σ.sorted _).map _ fun _ _ h => h) (orderStats_sorted xs)
    refine ((σ.perm _).map Prod.fst).trans ?_
    have hfst : Prod.fst ∘ sample = id := rfl
    rw [List.map_map, hfst, List.map_id]
    exact (orderStats_perm xs).symm
  calc σ.sort (xs.map sample)
      = (σ.sort (xs.map sample)).map (sample ∘ Prod.fst) :=
        (List.map_id _).symm.trans (List.map_congr_left hsample)
    _ = (orderStats xs).map sample := by rw [← List.map_map, hvalues]

/-! ## The nearest rank -/

section Rank

variable {t : ℚ}

/-- The walk has passed every index below the rank when it reaches the target. -/
theorem nearestRank_eq_zero_or_lt (t : ℚ) :
    (⌈t⌉ - 1).toNat = 0 ∨ (((⌈t⌉ - 1).toNat : ℕ) : ℚ) < t := by
  by_cases h : ⌈t⌉ ≤ 1
  · exact .inl (by omega)
  · refine .inr ?_
    rw [← Int.cast_natCast, Int.toNat_of_nonneg (by omega)]
    exact Int.lt_ceil.1 (by omega)

/-- The cumulative weight one past the rank reaches the target. -/
theorem le_nearestRank_succ (t : ℚ) : t ≤ ((⌈t⌉ - 1).toNat : ℕ) + 1 := by
  have h : ⌈t⌉ ≤ (((⌈t⌉ - 1).toNat : ℕ) : ℤ) + 1 := by omega
  exact_mod_cast Int.ceil_le.1 h

theorem le_nearestRank {a : ℕ} (h : a = 0 ∨ (a : ℚ) < t) : a ≤ (⌈t⌉ - 1).toNat := by
  rcases h with rfl | h
  · exact Nat.zero_le _
  · have := Int.lt_ceil.2 (show ((a : ℤ) : ℚ) < t by exact_mod_cast h)
    omega

theorem nearestRank_le {b : ℕ} (h : t ≤ ((b + 1 : ℕ) : ℚ)) : (⌈t⌉ - 1).toNat ≤ b := by
  have := Int.ceil_le.2 (show t ≤ ((b + 1 : ℕ) : ℤ) by exact_mod_cast h)
  omega

theorem nearestRank_lt {q : ℚ} {n : ℕ} (hn : 0 < n) (hq : q ≤ 1) : nearestRank q n < n :=
  Nat.lt_of_le_of_lt (nearestRank_le (by
    rw [show n - 1 + 1 = n by omega]
    exact mul_le_of_le_one_left (Nat.cast_nonneg n) hq)) (Nat.sub_lt hn one_pos)

end Rank

/-! ## Walking buffered samples -/

/-- On unit weights from cumulative weight `c`, the walk stops at the index `i` whose
cumulative weight `c + i + 1` is the first to reach the target. -/
theorem walk_map_sample {t : ℚ} :
    ∀ (ys : List ℚ) (c : ℚ) (i : ℕ), (i = 0 ∨ c + i < t) → t ≤ c + i + 1 →
      walk t c (ys.map sample) = ys[i]?
  | [], _, _, _, _ => rfl
  | y :: ys, c, 0, _, hreach => by
    simp only [List.map_cons, sample, walk, Nat.cast_zero, add_zero] at hreach ⊢
    rw [if_pos hreach, List.getElem?_cons_zero]
  | y :: ys, c, i + 1, hprev, hreach => by
    have hprev : c + (i + 1) < t := by simpa using hprev
    have hi : (0 : ℚ) ≤ i := Nat.cast_nonneg i
    simp only [List.map_cons, sample, walk]
    rw [if_neg (show ¬(c + 1 ≥ t) by linarith), List.getElem?_cons_succ]
    exact walk_map_sample ys (c + 1) i (.inr (by linarith)) (by push_cast at hreach; linarith)

/-- A walk that finds a value is what `percentile` returns. -/
theorem walkOrLast_of_walk {t v : ℚ} {l : List (ℚ × ℚ)} (h : walk t 0 l = some v) :
    walkOrLast t l = some v := by
  unfold walkOrLast
  split
  · rename_i hnone
    rw [List.getLast?_eq_none_iff.1 hnone] at h
    cases h
  · rw [h]
    rfl

theorem percentileView_foldl_add (σ : StdSort) {d : TDigest} (hd : IsFresh d) {xs : List ℚ}
    (hne : xs ≠ []) : (xs.foldl TDigest.add d).percentileView σ = (orderStats xs).map sample := by
  obtain ⟨hb, hc, -⟩ := hd.fields
  have hbuf : ¬(xs.foldl TDigest.add d).buffer.isEmpty = true := by
    rw [foldl_add_buffer, hb, List.nil_append, List.isEmpty_iff]
    exact hne
  rw [TDigest.percentileView, if_neg hbuf, TDigest.mergedView, foldl_add_buffer,
    foldl_add_centroids, hb, hc, List.map_nil, List.nil_append, List.nil_append,
    σ.sort_map_sample]

/-- Samples added to a fresh or reset digest, with no `compress()` or `merge()` between:
`percentile(q)` is the nearest-rank order statistic `sort(xs)[max(0, ⌈q·n⌉ − 1)]`. -/
theorem buffered_percentile_nearest_rank {d : TDigest} (hd : IsFresh d) (σ : StdSort)
    {xs : List ℚ} (hne : xs ≠ []) {q : ℚ} (hq0 : 0 ≤ q) (hq1 : q ≤ 1) :
    nearestRank q xs.length < xs.length ∧
      (xs.foldl TDigest.add d).percentile σ q = .ok ((orderStats xs)[nearestRank q xs.length]?) := by
  have hn : 0 < xs.length := List.length_pos.2 hne
  have htotal : (xs.foldl TDigest.add d).totalWeight = xs.length := by
    simp [hd.fields.2.2]
  refine ⟨nearestRank_lt hn hq1, ?_⟩
  rw [TDigest.percentile_of_pos hq0 hq1 (by rw [htotal]; exact_mod_cast hn),
    percentileView_foldl_add σ hd hne, htotal]
  have hlt : nearestRank q xs.length < (orderStats xs).length := by
    rw [(orderStats_perm xs).length_eq]
    exact nearestRank_lt hn hq1
  have hwalk : walk (q * xs.length) 0 ((orderStats xs).map sample) =
      (orderStats xs)[nearestRank q xs.length]? :=
    walk_map_sample _ 0 _ (by rw [zero_add]; exact nearestRank_eq_zero_or_lt _)
      (by rw [zero_add]; exact le_nearestRank_succ _)
  rw [List.getElem?_eq_getElem hlt] at hwalk ⊢
  rw [walkOrLast_of_walk hwalk]

/-- Three samples in a fresh digest: `percentile(1)` is the largest of them. -/
theorem buffered_max_of_three :
    ∃ d, IsFresh d ∧
      (([5, 1, 3] : List ℚ).foldl TDigest.add d).percentile StdSort.insertion 1 = .ok (some 5) :=
  have hd : IsFresh (TDigest.empty 4 (by norm_num)) := .inl ⟨4, TDigest.new_ok _⟩
  have h := (buffered_percentile_nearest_rank hd StdSort.insertion (List.cons_ne_nil _ _)
    (show (0 : ℚ) ≤ 1 from zero_le_one) le_rfl).2
  have hsorted : orderStats [5, 1, 3] = [1, 3, 5] := by decide
  ⟨_, hd, h.trans (by rw [hsorted]; simp [nearestRank])⟩

/-! ## Runs of a compressed digest -/

/-- The mean of a run of sorted samples lies between its first and its last sample. -/
theorem runMean_between {ys : List ℚ} (hs : ys.Sorted (· ≤ ·)) {a b : ℕ} (hab : a ≤ b)
    (hb : b < ys.length) :
    ∃ lo hi, ys[a]? = some lo ∧ ys[b]? = some hi ∧ lo ≤ runMean ys a b ∧ runMean ys a b ≤ hi := by
  set run := (ys.drop a).take (b + 1 - a)
  have hlen : run.length = b + 1 - a := by
    simp only [run, List.length_take, List.length_drop]
    omega
  have hmono : ∀ {i j : ℕ} (hij : i ≤ j) (hj : j < ys.length), ys[i] ≤ ys[j] :=
    fun hij hj => hs.rel_get_of_le (show (⟨_, Nat.lt_of_le_of_lt hij hj⟩ : Fin ys.length) ≤ ⟨_, hj⟩
      from hij)
  have hbounds : ∀ x ∈ run, ys[a] ≤ x ∧ x ≤ ys[b] := by
    intro x hx
    obtain ⟨i, hi, rfl⟩ := List.getElem_of_mem hx
    rw [hlen] at hi
    simp only [run, List.getElem_take, List.getElem_drop]
    exact ⟨hmono (Nat.le_add_right _ _) _, hmono (by omega) hb⟩
  have hpos : (0 : ℚ) < run.length := by rw [hlen]; exact_mod_cast (by omega : 0 < b + 1 - a)
  have hmean : runMean ys a b = run.sum / run.length := by rw [hlen]; rfl
  refine ⟨ys[a], ys[b], List.getElem?_eq_getElem _, List.getElem?_eq_getElem _, ?_, ?_⟩
  · rw [hmean, le_div_iff₀ hpos, mul_comm, ← nsmul_eq_mul]
    exact List.card_nsmul_le_sum _ _ fun x hx => (hbounds x hx).1
  · rw [hmean, div_le_iff₀ hpos, mul_comm, ← nsmul_eq_mul]
    exact List.sum_le_card_nsmul _ _ fun x hx => (hbounds x hx).2

/-- The centroid closing the run `zs[a..a+k-1]`, once the walk reaches its target there,
answers with the run's mean, and the run holds the nearest rank and fits the limit. -/
theorem run_answers {zs : List ℚ} {L t m : ℚ} {a k : ℕ} (hprev : a = 0 ∨ (a : ℚ) < t)
    (hreach : t ≤ (a : ℚ) + k) (hlen : a + k ≤ zs.length) (hk : 0 < k) (hkL : (k : ℚ) ≤ L)
    (hm : m * k = ((zs.drop a).take k).sum) :
    ∃ a' b', a' ≤ (⌈t⌉ - 1).toNat ∧ (⌈t⌉ - 1).toNat ≤ b' ∧ b' < zs.length ∧
      ((b' + 1 - a' : ℕ) : ℚ) ≤ L ∧ m = runMean zs a' b' := by
  have hsize : a + k - 1 + 1 - a = k := by omega
  refine ⟨a, a + k - 1, le_nearestRank hprev, nearestRank_le ?_, by omega, by rwa [hsize], ?_⟩
  · rw [show a + k - 1 + 1 = a + k by omega]
    push_cast
    exact hreach
  · rw [runMean, hsize, ← hm, mul_div_cancel_right₀ _ (Nat.cast_ne_zero.2 (by omega))]

/-- Walking the centroids that `build_from`'s loop pushes over the unit weights of the sorted
samples `zs`, from the run `zs[a..a+k-1]` it is building with mean `m`: the walk answers with
the mean of a run that holds the nearest rank and fits the limit. -/
theorem walk_buildLoop_sample (zs : List ℚ) {L t : ℚ} (hL : 1 ≤ L) (ht : t ≤ zs.length) :
    ∀ (rest : List ℚ) (a k : ℕ) (m : ℚ), rest = zs.drop (a + k) → a + k ≤ zs.length → 0 < k →
      (k : ℚ) ≤ L → m * k = ((zs.drop a).take k).sum → (a = 0 ∨ (a : ℚ) < t) →
      ∃ a' b', a' ≤ (⌈t⌉ - 1).toNat ∧ (⌈t⌉ - 1).toNat ≤ b' ∧ b' < zs.length ∧
        ((b' + 1 - a' : ℕ) : ℚ) ≤ L ∧
        walk t a ((buildLoop L m k (rest.map sample)).map Centroid.toPair) =
          some (runMean zs a' b')
  | [], a, k, m, hrest, hlen, hk, hkL, hm, hprev => by
    have hend : a + k = zs.length := le_antisymm hlen (List.drop_eq_nil_iff.1 hrest.symm)
    have hreach : t ≤ (a : ℚ) + k := by rw [← Nat.cast_add, hend]; exact ht
    obtain ⟨a', b', h1, h2, h3, h4, hmean⟩ := run_answers hprev hreach hlen hk hkL hm
    refine ⟨a', b', h1, h2, h3, h4, ?_⟩
    simp only [List.map_nil, buildLoop, List.map_cons, Centroid.toPair, walk]
    rw [if_pos hreach, hmean]
  | v :: rest, a, k, m, hrest, hlen, hk, hkL, hm, hprev => by
    have hdrop : zs.drop (a + k) = v :: rest := hrest.symm
    have hv : zs[a + k]? = some v := by
      rw [← Nat.add_zero (a + k), ← List.getElem?_drop, hdrop, List.getElem?_cons_zero]
    have hlt : a + k < zs.length := by
      by_contra hge
      rw [List.drop_eq_nil_iff.2 (by omega)] at hdrop
      cases hdrop
    have hrest' : rest = zs.drop (a + k + 1) := by rw [← List.drop_drop, hdrop]; rfl
    rw [List.map_cons, show sample v = (v, 1) from rfl, buildLoop]
    split
    · -- `v` joins the run
      rename_i hjoin
      have hsum : ((zs.drop a).take (k + 1)).sum = ((zs.drop a).take k).sum + v := by
        rw [List.take_succ, List.getElem?_drop, hv]
        simp
      obtain ⟨a', b', h1, h2, h3, h4, hwalk⟩ := walk_buildLoop_sample zs hL ht rest a (k + 1)
        ((m * k + v * 1) / (k + 1)) (by rwa [← Nat.add_assoc]) (by omega) (by omega)
        (by push_cast; exact hjoin)
        (by rw [hsum, ← hm, Nat.cast_succ, div_mul_cancel₀ _ (by positivity), mul_one]) hprev
      push_cast at hwalk
      exact ⟨a', b', h1, h2, h3, h4, hwalk⟩
    · -- the run is closed and `v` starts the next one
      rw [List.map_cons, Centroid.toPair, walk]
      split
      · rename_i hreach
        obtain ⟨a', b', h1, h2, h3, h4, hmean⟩ := run_answers hprev hreach hlen hk hkL hm
        exact ⟨a', b', h1, h2, h3, h4, by rw [hmean]⟩
      · rename_i hpass
        obtain ⟨a', b', h1, h2, h3, h4, hwalk⟩ := walk_buildLoop_sample zs hL ht rest (a + k) 1 v
          hrest' (by omega) one_pos (by rwa [Nat.cast_one]) (by rw [hdrop]; simp)
          (.inr (by rw [Nat.cast_add]; exact not_le.1 hpass))
        push_cast at hwalk
        exact ⟨a', b', h1, h2, h3, h4, hwalk⟩

theorem buildFrom_map_sample (compression z : ℚ) (zs : List ℚ) :
    buildFrom compression ((z :: zs).map sample) =
      buildLoop (max 1 (4 * (z :: zs).length / compression)) z 1 (zs.map sample) := by
  show buildLoop (max 1 (4 * pairWeight ((z :: zs).map sample) / compression)) z 1
    (zs.map sample) = _
  rw [pairWeight_map_sample]

theorem percentileView_compress_foldl_add (σ : StdSort) {d : TDigest} (hd : IsFresh d)
    {xs : List ℚ} (hne : xs ≠ []) :
    ((xs.foldl TDigest.add d).compress σ).percentileView σ =
      (buildFrom d.compression ((orderStats xs).map sample)).map Centroid.toPair := by
  obtain ⟨hb, hc, -⟩ := hd.fields
  have hbuf : ¬((xs.foldl TDigest.add d).buffer.isEmpty &&
      (xs.foldl TDigest.add d).centroids.isEmpty) = true := by
    rw [foldl_add_buffer, hb, List.nil_append, Bool.and_eq_true, List.isEmpty_iff]
    exact fun h => hne h.1
  rw [TDigest.compress, if_neg hbuf]
  simp only [TDigest.percentileView, List.isEmpty_nil, if_true, TDigest.mergedView,
    foldl_add_buffer, foldl_add_centroids, foldl_add_compression, hb, hc, List.map_nil,
    List.nil_append, List.append_nil, σ.sort_map_sample]

/-- Samples added to a fresh or reset digest of compression `c`, then one `compress()`:
`percentile(q)` is the mean of a run `sort(xs)[a..b]` of at most `max(1, 4n/c)` order
statistics that holds the nearest rank `max(0, ⌈q·n⌉ − 1)`, so it lies between
`sort(xs)[a]` and `sort(xs)[b]`. -/
theorem compressed_percentile_run_mean {d : TDigest} (hd : IsFresh d) (σ : StdSort)
    {xs : List ℚ} (hne : xs ≠ []) {q : ℚ} (hq0 : 0 ≤ q) (hq1 : q ≤ 1) :
    ∃ a b, a ≤ nearestRank q xs.length ∧ nearestRank q xs.length ≤ b ∧ b < xs.length ∧
      ((b + 1 - a : ℕ) : ℚ) ≤ max 1 (4 * xs.length / d.compression) ∧
      ((xs.foldl TDigest.add d).compress σ).percentile σ q =
        .ok (some (runMean (orderStats xs) a b)) ∧
      ∃ lo hi, (orderStats xs)[a]? = some lo ∧ (orderStats xs)[b]? = some hi ∧
        lo ≤ runMean (orderStats xs) a b ∧ runMean (orderStats xs) a b ≤ hi := by
  have hlen := (orderStats_perm xs).length_eq
  obtain ⟨z, zs, hys⟩ := List.exists_cons_of_ne_nil (fun h : orderStats xs = [] =>
    hne (List.length_eq_zero.1 (hlen ▸ h ▸ rfl)))
  have hn : (0 : ℚ) < xs.length := by exact_mod_cast List.length_pos.2 hne
  have htotal : ((xs.foldl TDigest.add d).compress σ).totalWeight = xs.length := by
    unfold TDigest.compress
    split <;> simp [hd.fields.2.2]
  have ht : q * xs.length ≤ (orderStats xs).length := by
    rw [hlen]
    exact mul_le_of_le_one_left hn.le hq1
  obtain ⟨a, b, h1, h2, h3, h4, hwalk⟩ := walk_buildLoop_sample (orderStats xs)
    (le_max_left 1 (4 * xs.length / d.compression)) ht zs 0 1 z (by rw [hys]; rfl)
    (by rw [hys]; simp) one_pos (by rw [Nat.cast_one]; exact le_max_left _ _) (by rw [hys]; simp)
    (.inl rfl)
  rw [hlen] at h3
  refine ⟨a, b, h1, h2, h3, h4, ?_, runMean_between (orderStats_sorted xs) (h1.trans h2)
    (hlen ▸ h3)⟩
  rw [TDigest.percentile_of_pos hq0 hq1 (htotal ▸ hn), htotal,
    percentileView_compress_foldl_add σ hd hne, hys, buildFrom_map_sample, ← hys, hlen]
  rw [Nat.cast_zero, Nat.cast_one] at hwalk
  rw [walkOrLast_of_walk hwalk]

/-- Three samples in a fresh digest of compression 4, compressed: the median estimate lies
between the smallest and the largest sample. -/
theorem compressed_median_of_three :
    ∃ d v, IsFresh d ∧
      ((([5, 1, 3] : List ℚ).foldl TDigest.add d).compress StdSort.insertion).percentile
        StdSort.insertion (1 / 2) = .ok (some v) ∧ 1 ≤ v ∧ v ≤ 5 := by
  have hd : IsFresh (TDigest.empty 4 (by norm_num)) := .inl ⟨4, TDigest.new_ok _⟩
  obtain ⟨a, b, -, -, -, -, hp, lo, hi, hlo, hhi, h1, h2⟩ := compressed_percentile_run_mean hd
    StdSort.insertion (List.cons_ne_nil _ _) (show (0 : ℚ) ≤ 1 / 2 by norm_num)
    (show (1 / 2 : ℚ) ≤ 1 by norm_num)
  have hsorted : orderStats [5, 1, 3] = [1, 3, 5] := by decide
  have hrange : ∀ x ∈ orderStats [5, 1, 3], 1 ≤ x ∧ x ≤ 5 := by rw [hsorted]; decide
  exact ⟨_, _, hd, hp, (hrange lo (List.getElem?_mem hlo)).1.trans h1,
    h2.trans (hrange hi (List.getElem?_mem hhi)).2⟩

end ShardedEcho
