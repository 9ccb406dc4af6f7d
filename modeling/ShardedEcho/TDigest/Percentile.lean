import ShardedEcho.TDigest.Invariant

/-!
# Range and monotonicity of `percentile`

`percentile(q)` walks a vector that is sorted by value whenever the digest is reachable:
the buffered path sorts it, and the fast path walks `centroids_`, which every operation keeps
sorted (`Wf.sorted`). On a sorted vector the walk's value grows with the target, and the
fallback `merged.back().first` is the largest value. So:

* `percentile_within_samples`: the estimate lies between the smallest and the largest
  sample contributed since the last reset, and is `NaN` when there is none;
* `percentile_monotone`: `percentile(q1) ≤ percentile(q2)` for `0 ≤ q1 ≤ q2 ≤ 1`, both being
  `NaN` only on a digest with no samples.
-/

namespace ShardedEcho

open scoped List

/-! ## The walk -/

/-- The walk returns a value of the vector it walks. -/
theorem walk_mem {target : ℚ} {l : List (ℚ × ℚ)} {v : ℚ} :
    ∀ {c : ℚ}, walk target c l = some v → ∃ p ∈ l, p.1 = v := by
  induction l with
  | nil => intro c h; cases h
  | cons p l ih =>
    intro c h
    simp only [walk] at h
    split at h
    · cases h
      exact ⟨p, List.mem_cons_self _ _, rfl⟩
    · obtain ⟨p', hp', rfl⟩ := ih h
      exact ⟨p', List.mem_cons_of_mem _ hp', rfl⟩

theorem walkOrLast_mem {target v : ℚ} {l : List (ℚ × ℚ)} (h : walkOrLast target l = some v) :
    ∃ p ∈ l, p.1 = v := by
  unfold walkOrLast at h
  split at h
  · cases h
  · rename_i back hback
    cases h
    cases hw : walk target 0 l with
    | none => exact ⟨back, List.mem_of_getLast?_eq_some hback, by simp⟩
    | some u => simpa using walk_mem hw

theorem walkOrLast_isSome {target : ℚ} {l : List (ℚ × ℚ)} (hne : l ≠ []) :
    ∃ v, walkOrLast target l = some v := by
  unfold walkOrLast
  split
  · simp_all
  · exact ⟨_, rfl⟩

/-- On a vector sorted by value the walk's value grows with the target, where running off
the end gives a fallback no smaller than any value. -/
theorem walk_getD_mono {t1 t2 d : ℚ} (ht : t1 ≤ t2) {l : List (ℚ × ℚ)} (hs : l.Sorted keyLE)
    (hd : ∀ p ∈ l, p.1 ≤ d) : ∀ c, (walk t1 c l).getD d ≤ (walk t2 c l).getD d := by
  induction l with
  | nil => intro c; exact le_rfl
  | cons p l ih =>
    intro c
    obtain ⟨hhead, htail⟩ := List.sorted_cons.1 hs
    simp only [walk]
    by_cases h1 : c + p.2 ≥ t1
    · rw [if_pos h1]
      split
      · exact le_rfl
      · cases hw : walk t2 (c + p.2) l with
        | none => exact hd p (List.mem_cons_self _ _)
        | some u =>
          obtain ⟨p', hp', rfl⟩ := walk_mem hw
          exact hhead p' hp'
    · rw [if_neg h1, if_neg fun h2 => h1 (le_trans ht h2)]
      exact ih htail (fun p' hp' => hd p' (List.mem_cons_of_mem _ hp')) _

/-- The last item of a vector sorted by value has the largest value. -/
theorem le_of_getLast?_sorted {l : List (ℚ × ℚ)} (hs : l.Sorted keyLE) {back : ℚ × ℚ}
    (h : l.getLast? = some back) : ∀ p ∈ l, p.1 ≤ back.1 := by
  obtain ⟨ys, rfl⟩ := List.getLast?_eq_some_iff.1 h
  intro p hp
  rcases List.mem_append.1 hp with hp | hp
  · exact (List.pairwise_append.1 hs).2.2 p hp back (List.mem_singleton_self _)
  · rw [List.mem_singleton.1 hp]

theorem walkOrLast_mono {t1 t2 v1 v2 : ℚ} (ht : t1 ≤ t2) {l : List (ℚ × ℚ)}
    (hs : l.Sorted keyLE) (h1 : walkOrLast t1 l = some v1) (h2 : walkOrLast t2 l = some v2) :
    v1 ≤ v2 := by
  unfold walkOrLast at h1 h2
  split at h1
  · cases h1
  · rename_i back hback
    rw [hback] at h2
    cases h1
    cases h2
    exact walk_getD_mono ht hs (le_of_getLast?_sorted hs hback) 0

/-! ## The vector `percentile` walks -/

variable {σ : StdSort} {xs : List ℚ} {s : TDigest}

theorem percentileView_perm (σ : StdSort) (s : TDigest) : s.percentileView σ ~ s.mergedView := by
  unfold TDigest.percentileView
  split
  · rfl
  · exact σ.perm _

/-- The fast path is sound: with nothing buffered the merged view is `centroids_`, which
`Wf` keeps sorted. -/
theorem Wf.percentileView_sorted (h : Wf xs s) : (s.percentileView σ).Sorted keyLE := by
  unfold TDigest.percentileView
  split
  · rename_i hb
    rw [TDigest.mergedView, List.isEmpty_iff.1 hb, List.map_nil, List.append_nil]
    exact h.sorted.map Centroid.toPair fun _ _ h => h
  · exact σ.sorted _

theorem TDigest.percentile_of_nonpos {q : ℚ} (hq0 : 0 ≤ q) (hq1 : q ≤ 1)
    (ht : s.totalWeight ≤ 0) : s.percentile σ q = .ok none := by
  simp [TDigest.percentile, hq0, hq1, ht]

theorem TDigest.percentile_of_pos {q : ℚ} (hq0 : 0 ≤ q) (hq1 : q ≤ 1)
    (ht : 0 < s.totalWeight) :
    s.percentile σ q = .ok (walkOrLast (q * s.totalWeight) (s.percentileView σ)) := by
  simp [TDigest.percentile, hq0, hq1, not_le.2 ht]

/-- With a positive weight the walked vector is non-empty. -/
theorem Wf.percentileView_ne_nil (h : Wf xs s) (ht : 0 < s.totalWeight) :
    s.percentileView σ ≠ [] := fun hnil =>
  h.totalWeight_pos_iff.1 ht (List.perm_nil.1 (hnil ▸ (percentileView_perm σ s).symm))

/-! ## Results -/

/-- For every reachable digest and every `q ∈ [0,1]`: once a sample has been contributed
since the last reset, `percentile(q)` lies between the smallest and the largest of them;
before that it is `NaN`. -/
theorem percentile_within_samples (h : Reachable σ xs s) {q : ℚ} (hq0 : 0 ≤ q) (hq1 : q ≤ 1) :
    (xs ≠ [] → ∃ v, s.percentile σ q = .ok (some v) ∧ (∃ a ∈ xs, a ≤ v) ∧ ∃ b ∈ xs, v ≤ b) ∧
      (xs = [] → s.percentile σ q = .ok none) := by
  have hw := h.wf
  refine ⟨fun hne => ?_, fun hnil =>
    TDigest.percentile_of_nonpos hq0 hq1 (by simp [hw.samples, hnil])⟩
  have ht : 0 < s.totalWeight := by
    rw [hw.samples]
    exact_mod_cast List.length_pos.2 hne
  obtain ⟨v, hv⟩ : ∃ v, walkOrLast (q * s.totalWeight) (s.percentileView σ) = some v :=
    walkOrLast_isSome (hw.percentileView_ne_nil ht)
  obtain ⟨p, hp, rfl⟩ := walkOrLast_mem hv
  exact ⟨p.1, by rw [TDigest.percentile_of_pos hq0 hq1 ht, hv],
    (hw.mergedView_good p ((percentileView_perm σ s).subset hp)).2⟩

/-- Three samples at compression 4: the median lies between 1 and 5. -/
theorem median_within_three_samples :
    ∃ s v, Reachable StdSort.insertion [5, 1, 3] s ∧
      s.percentile StdSort.insertion (1 / 2) = .ok (some v) ∧ 1 ≤ v ∧ v ≤ 5 := by
  have h : Reachable StdSort.insertion [5, 1, 3]
      ((((TDigest.empty 4 (by norm_num)).add 5).add 1).add 3) :=
    (((Reachable.new (TDigest.new_ok _)).add 5).add 1).add 3
  obtain ⟨v, hv, ⟨a, ha, hav⟩, b, hb, hvb⟩ :=
    (percentile_within_samples h (show (0 : ℚ) ≤ 1 / 2 by norm_num)
      (show (1 / 2 : ℚ) ≤ 1 by norm_num)).1 (List.cons_ne_nil _ _)
  have hrange : ∀ x ∈ ([5, 1, 3] : List ℚ), 1 ≤ x ∧ x ≤ 5 := by decide
  exact ⟨_, v, h, hv, (hrange a ha).1.trans hav, hvb.trans (hrange b hb).2⟩

/-- For every reachable digest the estimate never decreases with the quantile, on the
buffered path as on the fast path that walks `centroids_` unsorted; both estimates are `NaN`
only when no sample was contributed since the last reset. -/
theorem percentile_monotone (h : Reachable σ xs s) {q1 q2 : ℚ} (h0 : 0 ≤ q1) (h12 : q1 ≤ q2)
    (h1 : q2 ≤ 1) :
    (xs = [] ∧ s.percentile σ q1 = .ok none ∧ s.percentile σ q2 = .ok none) ∨
      ∃ v1 v2, s.percentile σ q1 = .ok (some v1) ∧ s.percentile σ q2 = .ok (some v2) ∧
        v1 ≤ v2 := by
  have hw := h.wf
  by_cases ht : 0 < s.totalWeight
  · have hne : s.percentileView σ ≠ [] := hw.percentileView_ne_nil ht
    obtain ⟨v1, hv1⟩ : ∃ v, walkOrLast (q1 * s.totalWeight) (s.percentileView σ) = some v :=
      walkOrLast_isSome hne
    obtain ⟨v2, hv2⟩ : ∃ v, walkOrLast (q2 * s.totalWeight) (s.percentileView σ) = some v :=
      walkOrLast_isSome hne
    refine .inr ⟨v1, v2, by rw [TDigest.percentile_of_pos h0 (h12.trans h1) ht, hv1],
      by rw [TDigest.percentile_of_pos (h0.trans h12) h1 ht, hv2], ?_⟩
    exact walkOrLast_mono (mul_le_mul_of_nonneg_right h12 ht.le) hw.percentileView_sorted hv1 hv2
  · have ht := not_lt.1 ht
    have hxs : xs.length = 0 := by
      have := hw.samples ▸ ht
      exact_mod_cast le_antisymm this xs.length.cast_nonneg
    exact .inl ⟨List.length_eq_zero.1 hxs, TDigest.percentile_of_nonpos h0 (h12.trans h1) ht,
      TDigest.percentile_of_nonpos (h0.trans h12) h1 ht⟩

/-- On a compressed digest the quartiles come in order. -/
theorem quartiles_monotone_compressed :
    ∃ s, Reachable StdSort.insertion [5, 1, 3] s ∧
      ((([5, 1, 3] : List ℚ) = [] ∧ s.percentile StdSort.insertion (1 / 4) = .ok none ∧
          s.percentile StdSort.insertion (3 / 4) = .ok none) ∨
        ∃ v1 v2, s.percentile StdSort.insertion (1 / 4) = .ok (some v1) ∧
          s.percentile StdSort.insertion (3 / 4) = .ok (some v2) ∧ v1 ≤ v2) :=
  have h : Reachable StdSort.insertion [5, 1, 3]
      (((((TDigest.empty 4 (by norm_num)).add 5).add 1).add 3).compress StdSort.insertion) :=
    ((((Reachable.new (TDigest.new_ok _)).add 5).add 1).add 3).compress
  ⟨_, h, percentile_monotone h (show (0 : ℚ) ≤ 1 / 4 by norm_num)
    (show (1 / 4 : ℚ) ≤ 3 / 4 by norm_num) (show (3 / 4 : ℚ) ≤ 1 by norm_num)⟩

end ShardedEcho
