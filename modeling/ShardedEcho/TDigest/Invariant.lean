import ShardedEcho.TDigest.BuildFrom

/-!
# Reachable digests

`Wf xs s` collects what every reachable digest satisfies, `xs` being its samples since the
last reset: `total_weight_` counts them and equals the buffered samples plus the centroid
weights, centroid weights are positive integers, the centroids are sorted by mean, and every
value the digest holds lies between two of its samples. Each operation keeps it
(`Reachable.wf`). From it:

* `reachable_weights_consistent`: the weight accounting, and that `percentile`'s view is
  empty exactly when `total_weight_` is zero;
* `compress_merge_centroids_bounded`: after `compress()` or `merge()` there are fewer than
  `compression / 2 + 1` centroids.
-/

namespace ShardedEcho

open scoped List

/-- What every reachable digest satisfies, `xs` being its samples since the last reset. -/
structure Wf (xs : List ℚ) (s : TDigest) : Prop where
  samples : s.totalWeight = xs.length
  total : s.totalWeight = s.buffer.length + centroidWeight s.centroids
  counts : ∀ c ∈ s.centroids, IsCount c.weight
  sorted : s.centroids.Sorted (·.mean ≤ ·.mean)
  buffer_mem : ∀ v ∈ s.buffer, v ∈ xs
  hull : ∀ c ∈ s.centroids, InHull xs c.mean

/-- An item of a `merged` vector of a well-formed digest: a counted weight and a value
between two samples. -/
def GoodPair (xs : List ℚ) (p : ℚ × ℚ) : Prop := IsCount p.2 ∧ InHull xs p.1

variable {σ : StdSort} {xs ys : List ℚ} {s o : TDigest}

theorem InHull.of_mem {v : ℚ} (h : v ∈ xs) : InHull xs v := ⟨⟨v, h, le_rfl⟩, v, h, le_rfl⟩

theorem InHull.mono {v : ℚ} (h : InHull xs v) (hsub : xs ⊆ ys) : InHull ys v :=
  ⟨h.1.imp fun _ ha => ⟨hsub ha.1, ha.2⟩, h.2.imp fun _ hb => ⟨hsub hb.1, hb.2⟩⟩

theorem GoodPair.mono {p : ℚ × ℚ} (h : GoodPair xs p) (hsub : xs ⊆ ys) : GoodPair ys p :=
  ⟨h.1, h.2.mono hsub⟩

theorem centroidWeight_nonneg {cs : List Centroid} (h : ∀ c ∈ cs, IsCount c.weight) :
    0 ≤ centroidWeight cs :=
  List.sum_nonneg fun w hw => by
    obtain ⟨c, hc, rfl⟩ := List.mem_map.1 hw
    exact (h c hc).pos.le

theorem centroidWeight_pos {cs : List Centroid} (h : ∀ c ∈ cs, IsCount c.weight)
    (hne : cs ≠ []) : 0 < centroidWeight cs :=
  List.sum_pos _ (fun w hw => by
    obtain ⟨c, hc, rfl⟩ := List.mem_map.1 hw
    exact (h c hc).pos) (by simpa using hne)

theorem Wf.mergedView_good (h : Wf xs s) : ∀ p ∈ s.mergedView, GoodPair xs p := by
  intro p hp
  simp only [TDigest.mergedView, List.mem_append, List.mem_map] at hp
  rcases hp with ⟨c, hc, rfl⟩ | ⟨v, hv, rfl⟩
  · exact ⟨h.counts c hc, h.hull c hc⟩
  · exact ⟨⟨1, one_pos, by simp [sample]⟩, InHull.of_mem (h.buffer_mem v hv)⟩

theorem pairWeight_mergedView (s : TDigest) :
    pairWeight s.mergedView = s.buffer.length + centroidWeight s.centroids := by
  simp [TDigest.mergedView, pairWeight_map_toPair, pairWeight_map_sample, add_comm]

/-- The vector `compress()` sorts holds good items: it is the merged view reordered. -/
theorem Wf.compress_input_good (h : Wf xs s) :
    ∀ p ∈ s.buffer.map sample ++ s.centroids.map Centroid.toPair, GoodPair xs p :=
  fun p hp => h.mergedView_good p (List.perm_append_comm.subset hp)

theorem merge_input_eq (s o : TDigest) :
    s.centroids.map Centroid.toPair ++ s.buffer.map sample ++ o.centroids.map Centroid.toPair ++
      o.buffer.map sample = s.mergedView ++ o.mergedView := by
  simp [TDigest.mergedView]

/-- The vector `merge()` sorts holds items good for the samples of both digests. -/
theorem Wf.merge_input_good (h : Wf xs s) (ho : Wf ys o) :
    ∀ p ∈ s.centroids.map Centroid.toPair ++ s.buffer.map sample ++
      o.centroids.map Centroid.toPair ++ o.buffer.map sample, GoodPair (xs ++ ys) p := by
  rw [merge_input_eq]
  intro p hp
  rcases List.mem_append.1 hp with hp | hp
  · exact (h.mergedView_good p hp).mono (List.subset_append_left _ _)
  · exact (ho.mergedView_good p hp).mono (List.subset_append_right _ _)

theorem StdSort.sort_pos (σ : StdSort) {l : List (ℚ × ℚ)} (hl : ∀ p ∈ l, GoodPair xs p) :
    ∀ p ∈ σ.sort l, 0 < p.2 :=
  fun p hp => (hl p ((σ.perm l).subset hp)).1.pos

/-- Folding good items into centroids keeps their weight, counts them, sorts them by mean
and keeps every mean between two samples. -/
theorem buildFrom_sort_good (σ : StdSort) (compression : ℚ) {l : List (ℚ × ℚ)}
    (hl : ∀ p ∈ l, GoodPair xs p) :
    centroidWeight (buildFrom compression (σ.sort l)) = pairWeight l ∧
      (∀ d ∈ buildFrom compression (σ.sort l), IsCount d.weight) ∧
      (buildFrom compression (σ.sort l)).Sorted (·.mean ≤ ·.mean) ∧
      ∀ d ∈ buildFrom compression (σ.sort l), InHull xs d.mean := by
  have hs : ∀ p ∈ σ.sort l, GoodPair xs p := fun p hp => hl p ((σ.perm l).subset hp)
  exact ⟨by rw [buildFrom_weight, σ.pairWeight_sort],
    buildFrom_isCount fun p hp => (hs p hp).1,
    buildFrom_sorted (σ.sorted l) fun p hp => (hs p hp).1.pos,
    buildFrom_inHull fun p hp => ⟨(hs p hp).2, (hs p hp).1.pos⟩⟩

/-! ## Every operation keeps `Wf` -/

/-- The constructor succeeds for every positive compression. -/
theorem TDigest.new_ok {c : ℚ} (h : 0 < c) : TDigest.new c = .ok (TDigest.empty c h) := dif_pos h

theorem Wf.new {c : ℚ} (h : TDigest.new c = .ok s) : Wf [] s := by
  unfold TDigest.new at h
  split at h
  · cases h
    exact ⟨by simp [TDigest.empty], by simp [TDigest.empty], by simp [TDigest.empty],
      List.sorted_nil, by simp [TDigest.empty], by simp [TDigest.empty]⟩
  · cases h

theorem Wf.add (h : Wf xs s) (x : ℚ) : Wf (xs ++ [x]) (s.add x) := by
  have hsub : xs ⊆ xs ++ [x] := List.subset_append_left _ _
  refine ⟨?_, ?_, h.counts, h.sorted, ?_, fun c hc => (h.hull c hc).mono hsub⟩
  · simp [TDigest.add, h.samples]
  · simp only [TDigest.add, h.total, List.length_append, List.length_singleton, Nat.cast_add,
      Nat.cast_one]
    exact add_right_comm _ _ _
  · intro v hv
    simp only [TDigest.add, List.mem_append, List.mem_singleton] at hv
    rcases hv with hv | rfl
    · exact hsub (h.buffer_mem v hv)
    · simp

theorem Wf.compress (h : Wf xs s) (σ : StdSort) : Wf xs (s.compress σ) := by
  unfold TDigest.compress
  split
  · exact h
  · obtain ⟨hw, hc, hs, hh⟩ := buildFrom_sort_good σ s.compression h.compress_input_good
    refine ⟨h.samples, ?_, hc, hs, by simp, hh⟩
    simp only [List.length_nil, Nat.cast_zero, zero_add, hw, pairWeight_append,
      pairWeight_map_sample, pairWeight_map_toPair]
    exact h.total

theorem Wf.merge (h : Wf xs s) (ho : Wf ys o) (σ : StdSort) : Wf (xs ++ ys) (s.merge σ o) := by
  obtain ⟨hw, hc, hs, hh⟩ := buildFrom_sort_good σ s.compression (h.merge_input_good ho)
  refine ⟨by simp [TDigest.merge, h.samples, ho.samples], ?_, hc, hs, by simp [TDigest.merge], hh⟩
  simp only [TDigest.merge, hw, List.length_nil, Nat.cast_zero, zero_add]
  rw [merge_input_eq, pairWeight_append, pairWeight_mergedView, pairWeight_mergedView, h.total,
    ho.total]

theorem Wf.reset (s : TDigest) : Wf [] s.reset :=
  ⟨by simp [TDigest.reset], by simp [TDigest.reset], by simp [TDigest.reset], List.sorted_nil,
    by simp [TDigest.reset], by simp [TDigest.reset]⟩

theorem Reachable.wf (h : Reachable σ xs s) : Wf xs s := by
  induction h with
  | new h => exact Wf.new h
  | add x _ ih => exact ih.add x
  | compress _ ih => exact ih.compress σ
  | merge _ _ ih iho => exact ih.merge iho σ
  | reset _ _ => exact Wf.reset _

/-! ## Weights -/

/-- `total_weight_` is positive exactly when `percentile`'s view is non-empty. -/
theorem Wf.totalWeight_pos_iff (hw : Wf xs s) : 0 < s.totalWeight ↔ s.mergedView ≠ [] := by
  rw [hw.total]
  have hnonneg := centroidWeight_nonneg hw.counts
  constructor
  · intro hpos hnil
    simp only [TDigest.mergedView, List.append_eq_nil, List.map_eq_nil_iff] at hnil
    simp [hnil.1, hnil.2] at hpos
  · intro hne
    by_cases hc : s.centroids = []
    · have hb : s.buffer ≠ [] := by simpa [TDigest.mergedView, hc] using hne
      have : (0 : ℚ) < s.buffer.length := by exact_mod_cast List.length_pos.2 hb
      linarith
    · linarith [centroidWeight_pos hw.counts hc]

/-- In every reachable digest `total_weight_` is the number of buffered samples plus the
centroid weights, each centroid weight is a positive integer, the centroids are sorted by
mean, and so `total_weight_` is positive exactly when `percentile`'s view is non-empty: its
`merged.empty()` return is never taken. -/
theorem reachable_weights_consistent (h : Reachable σ xs s) :
    s.totalWeight = s.buffer.length + (s.centroids.map Centroid.weight).sum ∧
      (∀ c ∈ s.centroids, ∃ n : ℕ, 0 < n ∧ c.weight = n) ∧
      s.centroids.Sorted (·.mean ≤ ·.mean) ∧
      (0 < s.totalWeight ↔ s.mergedView ≠ []) :=
  have hw := h.wf
  ⟨hw.total, hw.counts, hw.sorted, hw.totalWeight_pos_iff⟩

/-- Two samples added to a digest of compression 4: its view is non-empty, so its weight is
positive, and the weight is accounted for. -/
theorem weights_consistent_two_samples :
    ∃ s, Reachable StdSort.insertion [3, 1] s ∧ 0 < s.totalWeight ∧
      s.totalWeight = s.buffer.length + (s.centroids.map Centroid.weight).sum :=
  have h : Reachable StdSort.insertion [3, 1]
      (((TDigest.empty 4 (by norm_num)).add 3).add 1) :=
    ((Reachable.new (TDigest.new_ok _)).add 3).add 1
  ⟨_, h, (reachable_weights_consistent h).2.2.2.2 (by simp [TDigest.mergedView, TDigest.add]),
    (reachable_weights_consistent h).1⟩

/-! ## Size -/

/-- Right after `compress()` or `merge()` with any reachable operand, a reachable digest has
fewer than `compression / 2 + 1` centroids, however many samples it holds. -/
theorem compress_merge_centroids_bounded (h : Reachable σ xs s) :
    ((s.compress σ).centroids.length : ℚ) < s.compression / 2 + 1 ∧
      ∀ ys o, Reachable σ ys o → ((s.merge σ o).centroids.length : ℚ) < s.compression / 2 + 1 := by
  have hw := h.wf
  have hc := s.compression_pos
  refine ⟨?_, fun ys o ho => buildFrom_length_lt hc (σ.sort_pos (hw.merge_input_good ho.wf))⟩
  unfold TDigest.compress
  split
  · rename_i hempty
    simp only [Bool.and_eq_true, List.isEmpty_iff] at hempty
    rw [hempty.2, List.length_nil, Nat.cast_zero]
    linarith
  · exact buildFrom_length_lt hc (σ.sort_pos hw.compress_input_good)

/-- At compression 4, `compress()` or a merge leaves at most two centroids. -/
theorem centroids_bounded_compression_four :
    ∃ s, Reachable StdSort.insertion [3, 1] s ∧
      ((s.compress StdSort.insertion).centroids.length : ℚ) < 3 ∧
      ∀ ys o, Reachable StdSort.insertion ys o →
        ((s.merge StdSort.insertion o).centroids.length : ℚ) < 3 := by
  have h : Reachable StdSort.insertion [3, 1]
      (((TDigest.empty 4 (by norm_num)).add 3).add 1) :=
    ((Reachable.new (TDigest.new_ok _)).add 3).add 1
  have hb := compress_merge_centroids_bounded h
  have h3 : (((TDigest.empty 4 (by norm_num)).add 3).add 1).compression / 2 + 1 = 3 := by
    norm_num [TDigest.add, TDigest.empty]
  rw [h3] at hb
  exact ⟨_, h, hb⟩

end ShardedEcho
