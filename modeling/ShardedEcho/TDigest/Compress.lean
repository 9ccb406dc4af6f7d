import ShardedEcho.TDigest.Accuracy
import ShardedEcho.TDigest.Double

/-!
# Merging buffered digests, and compressing twice

A digest that holds only buffered samples compresses to one closed form: `build_from` over
the order statistics of its samples (`compress_foldl_add`). So does the merge of two such
digests (`merge_foldl_add`), hence:

* `merge_buffered_eq_add_compress`: `a.merge(b)` leaves `a` as adding `b`'s samples to it
  and compressing does, the self-merge `a.merge(a)` included, whatever the order of the
  samples in either buffer.

`compress()` twice, in `double` (`TDigest/Double.lean`): `build_from` merges nothing of its
own output and recomputes no mean (`buildFromD_idempotent`), but `compress()` sorts that output
again first, and a rounded running mean can leave it out of order:

* `compressD_twice_reorders`: four samples of `0.1` at compression 5 compress to centroids out
  of order, and under every `std::sort` a second `compress()` returns them in the other order
  (`compressD_twice_reorders_insertion` under insertion sort);
* `compressD_idempotent`: whenever `std::sort` leaves the centroids of the first `compress()`
  as they are, the second returns exactly the first's result, on every digest reached with at
  most `2 ^ 53` samples.
-/

namespace ShardedEcho

open scoped List

variable {σ : StdSort} {xs : List ℚ} {s : TDigest}

/-! ## Buffered digests -/

theorem orderStats_congr {xs ys : List ℚ} (h : xs ~ ys) : orderStats xs = orderStats ys :=
  List.eq_of_perm_of_sorted (((orderStats_perm xs).trans h).trans (orderStats_perm ys).symm)
    (orderStats_sorted xs) (orderStats_sorted ys)

/-- Compressing a digest that holds only the buffered samples `zs`. -/
theorem compress_foldl_add (σ : StdSort) {d : TDigest} (hd : IsFresh d) (zs : List ℚ) :
    (zs.foldl TDigest.add d).compress σ =
      { d with buffer := [], centroids := buildFrom d.compression ((orderStats zs).map sample),
               totalWeight := zs.length } := by
  obtain ⟨hb, hc, ht⟩ := hd.fields
  unfold TDigest.compress
  split
  · rename_i hempty
    have hzs : zs = [] := by
      simp only [foldl_add_buffer, hb, List.nil_append, Bool.and_eq_true, List.isEmpty_iff] at hempty
      exact hempty.1
    subst hzs
    ext <;> simp [hb, hc, ht, orderStats, buildFrom]
  · ext <;> simp [hb, hc, ht, σ.sort_map_sample]

/-- Merging two digests that hold only the buffered samples `xs` and `ys`. -/
theorem merge_foldl_add (σ : StdSort) {da db : TDigest} (ha : IsFresh da) (hb : IsFresh db)
    (xs ys : List ℚ) :
    (xs.foldl TDigest.add da).merge σ (ys.foldl TDigest.add db) =
      { da with buffer := [],
                centroids := buildFrom da.compression ((orderStats (xs ++ ys)).map sample),
                totalWeight := (xs ++ ys).length } := by
  obtain ⟨hab, hac, hat⟩ := ha.fields
  obtain ⟨hbb, hbc, hbt⟩ := hb.fields
  ext <;> simp [TDigest.merge, hab, hac, hat, hbb, hbc, hbt, ← σ.sort_map_sample]

/-- For two digests that hold only buffered samples, `a.merge(b)` (with `b` possibly `a`
itself) leaves `a` as adding `b`'s samples to it and then compressing does, and the result
does not depend on the order of the samples in either buffer. -/
theorem merge_buffered_eq_add_compress (σ : StdSort) {da db : TDigest} (ha : IsFresh da)
    (hb : IsFresh db) (xs ys : List ℚ) :
    (xs.foldl TDigest.add da).merge σ (ys.foldl TDigest.add db) =
        (ys.foldl TDigest.add (xs.foldl TDigest.add da)).compress σ ∧
      ∀ xs' ys', xs' ~ xs → ys' ~ ys →
        (xs'.foldl TDigest.add da).merge σ (ys'.foldl TDigest.add db) =
          (xs.foldl TDigest.add da).merge σ (ys.foldl TDigest.add db) := by
  refine ⟨by rw [merge_foldl_add σ ha hb, ← List.foldl_append, compress_foldl_add σ ha],
    fun xs' ys' hx hy => ?_⟩
  have hperm : xs' ++ ys' ~ xs ++ ys := hx.append hy
  rw [merge_foldl_add σ ha hb, merge_foldl_add σ ha hb, orderStats_congr hperm, hperm.length_eq]

/-- A digest merged with itself while it holds two buffered samples. -/
theorem self_merge_two_samples :
    ∃ d, IsFresh d ∧
      (([1, 2] : List ℚ).foldl TDigest.add d).merge StdSort.insertion ([1, 2].foldl TDigest.add d) =
        ([1, 2].foldl TDigest.add ([1, 2].foldl TDigest.add d)).compress StdSort.insertion :=
  have hd : IsFresh (TDigest.empty 4 (by norm_num)) := .inl ⟨4, TDigest.new_ok _⟩
  ⟨_, hd, (merge_buffered_eq_add_compress StdSort.insertion hd hd [1, 2] [1, 2]).1⟩

/-! ## Compressing twice -/

/-- `std::sort` returns items of one value and weight as they are. -/
theorem StdSort.sort_replicate (σ : StdSort) (k : ℕ) (p : ℚ × ℚ) :
    σ.sort (List.replicate k p) = List.replicate k p :=
  List.perm_replicate.1 (σ.perm _)

/-- `std::sort` has one result on items of distinct values: them in increasing order. -/
theorem StdSort.sort_eq_of_perm (σ : StdSort) {l l' : List (ℚ × ℚ)} (hp : l ~ l')
    (hs : l'.Sorted (·.1 < ·.1)) : σ.sort l = l' := by
  haveI : IsAntisymm (ℚ × ℚ) (·.1 < ·.1) := ⟨fun _ _ h h' => absurd h' (lt_asymm h)⟩
  have hperm := (σ.perm l).trans hp
  have hnodup : ((σ.sort l).map Prod.fst).Nodup :=
    (hperm.map Prod.fst).nodup_iff.2 (List.Sorted.nodup (List.pairwise_map.2 hs))
  have hlt : ((σ.sort l).map Prod.fst).Sorted (· < ·) :=
    List.Sorted.lt_of_le (List.pairwise_map.2 (σ.sorted l)) hnodup
  exact List.eq_of_perm_of_sorted hperm (List.pairwise_map.1 hlt) hs

/-- In `double`, four samples of `0.1` (the double `3602879701896397 / 2 ^ 55`) at compression
5, under every `std::sort`. The limit is `3.2` rounded; the first `compress()` merges three
samples, and the running mean `(0.1 · 2 + 0.1) / 3` rounds to `0.10000000000000002`, above the
fourth sample: the centroids are `[(0.10000000000000002, 3), (0.1, 1)]`, out of order. A second
`compress()` sorts them the other way round, and they weigh 4, above the limit, so they stay
apart: `[(0.1, 1), (0.10000000000000002, 3)]`. -/
theorem compressD_twice_reorders (σ : StdSort) :
    ∃ s s' s'', ReachableD σ 4 s ∧ s.compressD σ = some s' ∧ s'.compressD σ = some s'' ∧
      s'' ≠ s' := by
  have hadd : (List.replicate 4 (mkRat 3602879701896397 (2 ^ 55))).foldlM TDigest.addD
      (TDigest.empty 5 (by norm_num)) =
      some ⟨5, by norm_num, List.replicate 4 (mkRat 3602879701896397 (2 ^ 55)), [], 4⟩ := by
    decide
  have hfirst : buildFromD 5 (List.replicate 4 (mkRat 3602879701896397 (2 ^ 55), 1)) =
      some [⟨mkRat 7205759403792795 (2 ^ 56), 3⟩, ⟨mkRat 3602879701896397 (2 ^ 55), 1⟩] := by
    decide
  have hsecond : buildFromD 5 [(mkRat 3602879701896397 (2 ^ 55), 1),
      (mkRat 7205759403792795 (2 ^ 56), 3)] =
      some [⟨mkRat 3602879701896397 (2 ^ 55), 1⟩, ⟨mkRat 7205759403792795 (2 ^ 56), 3⟩] := by
    decide
  have hsort : σ.sort [(mkRat 7205759403792795 (2 ^ 56), 3), (mkRat 3602879701896397 (2 ^ 55), 1)] =
      [(mkRat 3602879701896397 (2 ^ 55), 1), (mkRat 7205759403792795 (2 ^ 56), 3)] :=
    σ.sort_eq_of_perm (List.Perm.swap _ _ _) (by decide)
  refine ⟨_, _, _, ReachableD.addAll (.new (TDigest.new_ok _)) hadd,
    TDigest.compressD_of_sort rfl (by
      simp only [List.map_nil, List.append_nil, List.map_replicate]
      exact σ.sort_replicate _ _) hfirst,
    TDigest.compressD_of_sort rfl hsort hsecond, by decide⟩

/-- The same four samples under insertion sort, which `std::sort` runs on so few items. -/
theorem compressD_twice_reorders_insertion :
    ∃ s s' s'', ReachableD StdSort.insertion 4 s ∧ s.compressD StdSort.insertion = some s' ∧
      s'.compressD StdSort.insertion = some s'' ∧ s'' ≠ s' :=
  compressD_twice_reorders StdSort.insertion

/-- In `double`, `compress()` is idempotent on every digest reached with at most `2 ^ 53`
samples whenever `std::sort`, sorting the centroids of the first `compress()` again, leaves them
as they are: `build_from` then merges nothing and recomputes no mean. -/
theorem compressD_idempotent {n : ℕ} {s' : TDigest} (h : ReachableD σ n s) (hn : n ≤ 2 ^ 53)
    (hs : s.compressD σ = some s')
    (hσ : σ.sort (s'.centroids.map Centroid.toPair) = s'.centroids.map Centroid.toPair) :
    s'.compressD σ = some s' := by
  unfold TDigest.compressD at hs
  split at hs
  · cases hs
    exact if_pos ‹_›
  · obtain ⟨cs, hcs, hs⟩ := Option.bind_eq_some.1 hs
    cases hs
    obtain ⟨hitems, hsum⟩ := (h.counts hn).compress_input
    have hperm := σ.perm (s.buffer.map sample ++ s.centroids.map Centroid.toPair)
    have hfix := buildFromD_idempotent (fun p hp => hitems p (hperm.subset hp))
      (by rw [pairWeight_perm hperm, hsum]; exact_mod_cast hn) hcs
    unfold TDigest.compressD
    split
    · rfl
    · simp only [List.map_nil, List.nil_append] at hσ ⊢
      rw [hσ]
      simp only [hfix, Option.bind_eq_bind, Option.some_bind]

/-- Samples `4, 1, 3, 2` at compression 8 under insertion sort: two centroids of weight 2,
which a second `compress()` leaves as they are. -/
theorem compressD_idempotent_four_samples :
    ∃ s s', ReachableD StdSort.insertion 4 s ∧ (4 : ℕ) ≤ 2 ^ 53 ∧
      s.compressD StdSort.insertion = some s' ∧
      StdSort.insertion.sort (s'.centroids.map Centroid.toPair) = s'.centroids.map Centroid.toPair ∧
      s'.compressD StdSort.insertion = some s' := by
  have hadd : [(4 : ℚ), 1, 3, 2].foldlM TDigest.addD (TDigest.empty 8 (by norm_num)) =
      some ⟨8, by norm_num, [4, 1, 3, 2], [], 4⟩ := by decide
  have hcompress : TDigest.compressD StdSort.insertion ⟨8, by norm_num, [4, 1, 3, 2], [], 4⟩ =
      some ⟨8, by norm_num, [], [⟨mkRat 3 2, 2⟩, ⟨mkRat 7 2, 2⟩], 4⟩ := by decide
  have hs : ReachableD StdSort.insertion 4 ⟨8, by norm_num, [4, 1, 3, 2], [], 4⟩ :=
    ReachableD.addAll (.new (TDigest.new_ok _)) hadd
  have hσ : StdSort.insertion.sort (([⟨mkRat 3 2, 2⟩, ⟨mkRat 7 2, 2⟩] : List Centroid).map
      Centroid.toPair) = ([⟨mkRat 3 2, 2⟩, ⟨mkRat 7 2, 2⟩] : List Centroid).map Centroid.toPair := by
    decide
  exact ⟨_, _, hs, by norm_num, hcompress, hσ, compressD_idempotent hs (by norm_num) hcompress hσ⟩

end ShardedEcho
