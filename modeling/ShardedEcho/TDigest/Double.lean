import ShardedEcho.TDigest.Invariant
import ShardedEcho.Binary64

/-!
# The t-digest in `double` arithmetic

`tdigest.hpp` computes in `double`. `TDigest/Basic.lean` keeps exact rational means; here
`add`, `compress` and `merge` compute as the source does, each `+`, `*` and `/` rounded by
`Binary64`, and `none` where a result overflows. A centroid's mean is then a rounded running
average. Its weight is not rounded: weights are whole numbers, and whole numbers add exactly up
to `2 ^ 53` (`Binary64.add_natCast`).

This file proves the following.
* `buildLoopD_weights`: the double loop groups its input as the exact loop does, with the same
  weights; only the means differ. So what `TDigest/BuildFrom.lean` proves of the weights (their
  sum, that they count samples, that neighbours weigh more than the limit together) holds of
  the double loop (`buildFromD_counts`, `buildLoopD_chain`).
* `buildLoopD_of_chain`, `buildFromD_idempotent`: `build_from` applied to its own output merges
  nothing and computes nothing: each centroid is pushed as it came.
* `reachableD_weights_exact`: on every digest reached with at most `2 ^ 53` samples since the
  last reset, `total_weight_` is the number of samples, centroid weights count samples, and the
  buffered samples and the centroid weights add up to `total_weight_`.
-/

namespace ShardedEcho

open scoped List

/-! ## Operations -/

/-- The loop of `build_from` in `double`: the joint weight `current_weight + w`, the running
mean `(current_mean * current_weight + v * w) / (current_weight + w)`, each step rounded. -/
def buildLoopD (limit : ℚ) : ℚ → ℚ → List (ℚ × ℚ) → Option (List Centroid)
  | currentMean, currentWeight, [] => some [⟨currentMean, currentWeight⟩]
  | currentMean, currentWeight, (v, w) :: rest => do
    let joint ← Binary64.add currentWeight w
    if joint ≤ limit then
      let moment ← Binary64.add (← Binary64.mul currentMean currentWeight) (← Binary64.mul v w)
      buildLoopD limit (← Binary64.div moment joint) joint rest
    else
      let centroids ← buildLoopD limit v w rest
      some (⟨currentMean, currentWeight⟩ :: centroids)

/-- `TDigest::build_from` in `double`: `total` by `std::accumulate` from `0.0`, and
`k_limit = 4.0 * total / compression_`. -/
def buildFromD (compression : ℚ) (merged : List (ℚ × ℚ)) : Option (List Centroid) :=
  match merged with
  | [] => some []
  | (v, w) :: rest => do
    let total ← merged.foldlM (fun sum p => Binary64.add sum p.2) 0
    let kLimit ← Binary64.div (← Binary64.mul 4 total) compression
    buildLoopD (max 1 kLimit) v w rest

/-- `TDigest::add` in `double`. -/
def TDigest.addD (s : TDigest) (x : ℚ) : Option TDigest := do
  let totalWeight ← Binary64.add s.totalWeight 1
  some { s with buffer := s.buffer ++ [x], totalWeight := totalWeight }

/-- `TDigest::compress` in `double`. -/
def TDigest.compressD (σ : StdSort) (s : TDigest) : Option TDigest :=
  if s.buffer.isEmpty && s.centroids.isEmpty then some s
  else do
    let merged := s.buffer.map sample ++ s.centroids.map Centroid.toPair
    let centroids ← buildFromD s.compression (σ.sort merged)
    some { s with buffer := [], centroids := centroids }

/-- `TDigest::merge` in `double`. -/
def TDigest.mergeD (σ : StdSort) (s other : TDigest) : Option TDigest := do
  let merged := s.centroids.map Centroid.toPair ++ s.buffer.map sample ++
    other.centroids.map Centroid.toPair ++ other.buffer.map sample
  let totalWeight ← Binary64.add s.totalWeight other.totalWeight
  let centroids ← buildFromD s.compression (σ.sort merged)
  some { s with buffer := [], centroids := centroids, totalWeight := totalWeight }

/-- `ReachableD σ n s`: the digest `s` is reached in `double` from a constructed one by `add`,
`compress`, `merge` with a reachable digest (itself included) and `reset`, no result
overflowing on the way, and `n` samples were contributed since its last reset. -/
inductive ReachableD (σ : StdSort) : ℕ → TDigest → Prop
  | new {c : ℚ} {s : TDigest} : TDigest.new c = .ok s → ReachableD σ 0 s
  | add {n : ℕ} {s s' : TDigest} (x : ℚ) : ReachableD σ n s → s.addD x = some s' →
      ReachableD σ (n + 1) s'
  | compress {n : ℕ} {s s' : TDigest} : ReachableD σ n s → s.compressD σ = some s' →
      ReachableD σ n s'
  | merge {n m : ℕ} {s o s' : TDigest} : ReachableD σ n s → ReachableD σ m o →
      s.mergeD σ o = some s' → ReachableD σ (n + m) s'
  | reset {n : ℕ} {s : TDigest} : ReachableD σ n s → ReachableD σ 0 s.reset

/-! ## Whole weights add exactly -/

theorem add_of_isCount {w x : ℚ} (hw : IsCount w) (hx : IsCount x) (h : w + x ≤ 2 ^ 53) :
    Binary64.add w x = some (w + x) := by
  obtain ⟨a, -, rfl⟩ := hw
  obtain ⟨b, -, rfl⟩ := hx
  rw [Binary64.add_natCast (by exact_mod_cast h), Nat.cast_add]

theorem pairWeight_nonneg {ps : List (ℚ × ℚ)} (h : ∀ p ∈ ps, IsCount p.2) : 0 ≤ pairWeight ps :=
  List.sum_nonneg fun w hw => by
    obtain ⟨p, hp, rfl⟩ := List.mem_map.1 hw
    exact (h p hp).pos.le

theorem pairWeight_perm {ps qs : List (ℚ × ℚ)} (h : ps ~ qs) : pairWeight ps = pairWeight qs :=
  (h.map _).sum_eq

/-- `std::accumulate` of whole weights from a whole start is exact. -/
theorem foldlM_add_weight {a : ℕ} {ps : List (ℚ × ℚ)} (hps : ∀ p ∈ ps, IsCount p.2)
    (hb : a + pairWeight ps ≤ 2 ^ 53) :
    ps.foldlM (fun sum p => Binary64.add sum p.2) (a : ℚ) = some (a + pairWeight ps) := by
  induction ps generalizing a with
  | nil => simp
  | cons p ps ih =>
    obtain ⟨k, -, hk⟩ := hps p (List.mem_cons_self _ _)
    have hrest := fun q hq => hps q (List.mem_cons_of_mem _ hq)
    have hpw := pairWeight_nonneg hrest
    rw [pairWeight_cons, hk] at hb ⊢
    have hak : a + k ≤ 2 ^ 53 := by exact_mod_cast (by linarith : (a : ℚ) + k ≤ 2 ^ 53)
    rw [List.foldlM_cons, hk, Binary64.add_natCast hak, Option.bind_eq_bind, Option.some_bind,
      ih hrest (by push_cast; linarith), Nat.cast_add, add_assoc]

/-! ## The loop -/

section Loop

variable {limit : ℚ}

/-- What one step of the double loop can do: it adds the weights, and either merges the item
into the current centroid, whatever mean it computes, or pushes the current centroid. -/
theorem buildLoopD_cons_eq_some {m w v x : ℚ} {ps : List (ℚ × ℚ)} {cs : List Centroid}
    (h : buildLoopD limit m w ((v, x) :: ps) = some cs) :
    ∃ joint, Binary64.add w x = some joint ∧
      ((joint ≤ limit ∧ ∃ mean, buildLoopD limit mean joint ps = some cs) ∨
        (limit < joint ∧ ∃ cs', buildLoopD limit v x ps = some cs' ∧ cs = ⟨m, w⟩ :: cs')) := by
  obtain ⟨joint, hj, h⟩ := Option.bind_eq_some.1 h
  refine ⟨joint, hj, ?_⟩
  split at h
  · obtain ⟨a, -, h⟩ := Option.bind_eq_some.1 h
    obtain ⟨b, -, h⟩ := Option.bind_eq_some.1 h
    obtain ⟨moment, -, h⟩ := Option.bind_eq_some.1 h
    obtain ⟨mean, -, h⟩ := Option.bind_eq_some.1 h
    exact .inl ⟨‹_›, mean, h⟩
  · obtain ⟨cs', h', hcs⟩ := Option.bind_eq_some.1 h
    exact .inr ⟨not_le.1 ‹_›, cs', h', (Option.some.inj hcs).symm⟩

/-- A step that pushes: nothing is computed but the joint weight. -/
theorem buildLoopD_cons_of_lt {m w v x joint : ℚ} {ps : List (ℚ × ℚ)}
    (hj : Binary64.add w x = some joint) (hlt : limit < joint) :
    buildLoopD limit m w ((v, x) :: ps) = (buildLoopD limit v x ps).map (⟨m, w⟩ :: ·) := by
  simp only [buildLoopD, hj, Option.bind_eq_bind, Option.some_bind, if_neg (not_le.2 hlt)]
  cases buildLoopD limit v x ps <;> rfl

/-- On counted weights within `2 ^ 53`, the double loop pushes the weights the exact loop
pushes, from any mean. -/
theorem buildLoopD_weights {m w : ℚ} {ps : List (ℚ × ℚ)} {cs : List Centroid}
    (hw : IsCount w) (hps : ∀ p ∈ ps, IsCount p.2) (hb : w + pairWeight ps ≤ 2 ^ 53)
    (h : buildLoopD limit m w ps = some cs) (m' : ℚ) :
    cs.map Centroid.weight = (buildLoop limit m' w ps).map Centroid.weight := by
  induction ps generalizing m m' w cs with
  | nil =>
    cases h
    rfl
  | cons p ps ih =>
    obtain ⟨v, x⟩ := p
    have hx : IsCount x := hps (v, x) (List.mem_cons_self _ _)
    have hrest := fun p hp => hps p (List.mem_cons_of_mem _ hp)
    have hpw := pairWeight_nonneg hrest
    rw [pairWeight_cons] at hb
    obtain ⟨joint, hj, hstep⟩ := buildLoopD_cons_eq_some h
    rw [add_of_isCount hw hx (by linarith), Option.some.injEq] at hj
    subst hj
    rw [buildLoop]
    rcases hstep with ⟨hle, mean, h'⟩ | ⟨hlt, cs', h', rfl⟩
    · rw [if_pos hle]
      exact ih (hw.add hx) hrest (by linarith) h' _
    · rw [if_neg (not_le.2 hlt), List.map_cons, List.map_cons,
        ih hx hrest (by linarith [hw.pos]) h' v]

theorem buildLoopD_chain {m w : ℚ} {ps : List (ℚ × ℚ)} {cs : List Centroid}
    (hw : IsCount w) (hps : ∀ p ∈ ps, IsCount p.2) (hb : w + pairWeight ps ≤ 2 ^ 53)
    (h : buildLoopD limit m w ps = some cs) :
    cs.Chain' (fun a b => limit < a.weight + b.weight) := by
  have hchain : ((buildLoop limit m w ps).map Centroid.weight).Chain' (limit < · + ·) :=
    (List.chain'_map _).2 (buildLoop_chain fun p hp => (hps p hp).pos)
  rw [← buildLoopD_weights hw hps hb h m] at hchain
  exact (List.chain'_map _).1 hchain

/-- On a list whose neighbours weigh more than `limit` together, the double loop pushes every
centroid as it came. -/
theorem buildLoopD_of_chain {c : Centroid} {cs : List Centroid}
    (hcounts : ∀ d ∈ c :: cs, IsCount d.weight) (hb : centroidWeight (c :: cs) ≤ 2 ^ 53)
    (h : (c :: cs).Chain' (fun a b => limit < a.weight + b.weight)) :
    buildLoopD limit c.mean c.weight (cs.map Centroid.toPair) = some (c :: cs) := by
  induction cs generalizing c with
  | nil => rfl
  | cons d cs ih =>
    obtain ⟨hcd, hrest⟩ := List.chain'_cons.1 h
    have hc := hcounts c (List.mem_cons_self _ _)
    have hd := hcounts d (List.mem_cons_of_mem _ (List.mem_cons_self _ _))
    have htail : ∀ e ∈ d :: cs, IsCount e.weight := fun e he => hcounts e (List.mem_cons_of_mem _ he)
    have hnn := centroidWeight_nonneg fun e he => htail e (List.mem_cons_of_mem _ he)
    simp only [centroidWeight_cons] at hb hnn
    rw [List.map_cons, Centroid.toPair, buildLoopD_cons_of_lt (add_of_isCount hc hd (by linarith)) hcd,
      ih htail (by rw [centroidWeight_cons]; linarith [hc.pos]) hrest]
    rfl

end Loop

/-! ## `build_from` -/

section BuildFrom

variable {compression : ℚ} {merged : List (ℚ × ℚ)} {cs : List Centroid}

theorem buildFromD_cons_eq_some {v w : ℚ} {rest : List (ℚ × ℚ)}
    (h : buildFromD compression ((v, w) :: rest) = some cs) :
    ∃ total a k, ((v, w) :: rest).foldlM (fun sum p => Binary64.add sum p.2) 0 = some total ∧
      Binary64.mul 4 total = some a ∧ Binary64.div a compression = some k ∧
      buildLoopD (max 1 k) v w rest = some cs := by
  obtain ⟨total, htotal, h⟩ := Option.bind_eq_some.1 h
  obtain ⟨a, ha, h⟩ := Option.bind_eq_some.1 h
  obtain ⟨k, hk, h⟩ := Option.bind_eq_some.1 h
  exact ⟨total, a, k, htotal, ha, hk, h⟩

theorem buildFromD_cons_of_limit {v w total a k : ℚ} {rest : List (ℚ × ℚ)}
    (htotal : ((v, w) :: rest).foldlM (fun sum p => Binary64.add sum p.2) 0 = some total)
    (ha : Binary64.mul 4 total = some a) (hk : Binary64.div a compression = some k) :
    buildFromD compression ((v, w) :: rest) = buildLoopD (max 1 k) v w rest := by
  simp only [buildFromD, htotal, ha, hk, Option.bind_eq_bind, Option.some_bind]

/-- On counted weights within `2 ^ 53` the total is exact. -/
theorem foldlM_add_weight_zero (hm : ∀ p ∈ merged, IsCount p.2) (hb : pairWeight merged ≤ 2 ^ 53) :
    merged.foldlM (fun sum p => Binary64.add sum p.2) 0 = some (pairWeight merged) := by
  have h := @foldlM_add_weight 0 merged hm (by rw [Nat.cast_zero, zero_add]; exact hb)
  rwa [Nat.cast_zero, zero_add] at h

/-- The double `build_from` keeps the total weight and counts, as the exact one does. -/
theorem buildFromD_counts (hm : ∀ p ∈ merged, IsCount p.2) (hb : pairWeight merged ≤ 2 ^ 53)
    (h : buildFromD compression merged = some cs) :
    (∀ c ∈ cs, IsCount c.weight) ∧ centroidWeight cs = pairWeight merged := by
  cases merged with
  | nil =>
    cases h
    exact ⟨fun _ h => absurd h (List.not_mem_nil _), rfl⟩
  | cons p rest =>
    obtain ⟨v, w⟩ := p
    obtain ⟨-, -, k, -, -, -, hloop⟩ := buildFromD_cons_eq_some h
    have hw := hm (v, w) (List.mem_cons_self _ _)
    have hrest := fun q hq => hm q (List.mem_cons_of_mem _ hq)
    have hweights := buildLoopD_weights hw hrest (by rwa [pairWeight_cons] at hb) hloop v
    refine ⟨List.forall_mem_map.1 ?_, ?_⟩
    · rw [hweights]
      exact List.forall_mem_map.2 (buildLoop_isCount hw hrest)
    · rw [centroidWeight, hweights, ← centroidWeight, buildLoop_weight_sum, pairWeight_cons]

/-- `build_from` applied to its own output returns it: the total, hence the limit, is the same,
and neighbours already weigh more than the limit together. -/
theorem buildFromD_idempotent (hm : ∀ p ∈ merged, IsCount p.2) (hb : pairWeight merged ≤ 2 ^ 53)
    (h : buildFromD compression merged = some cs) :
    buildFromD compression (cs.map Centroid.toPair) = some cs := by
  cases merged with
  | nil =>
    cases h
    rfl
  | cons p rest =>
    obtain ⟨v, w⟩ := p
    obtain ⟨total, a, k, htotal, ha, hk, hloop⟩ := buildFromD_cons_eq_some h
    obtain ⟨hcounts, hweight⟩ := buildFromD_counts hm hb h
    have hw := hm (v, w) (List.mem_cons_self _ _)
    have hrest := fun q hq => hm q (List.mem_cons_of_mem _ hq)
    have hchain := buildLoopD_chain hw hrest (by rwa [pairWeight_cons] at hb) hloop
    cases cs with
    | nil => rfl
    | cons d ds =>
      -- the second pass adds up the same weights, so it computes the same limit
      have htot : pairWeight ((v, w) :: rest) = total :=
        Option.some.inj ((foldlM_add_weight_zero hm hb).symm.trans htotal)
      have hsame : pairWeight ((d :: ds).map Centroid.toPair) = total := by
        rw [pairWeight_map_toPair, hweight, htot]
      have hrun := @foldlM_add_weight_zero ((d :: ds).map Centroid.toPair)
        (List.forall_mem_map.2 hcounts) (by rw [hsame, ← htot]; exact hb)
      rw [hsame, List.map_cons] at hrun
      rw [List.map_cons]
      exact (buildFromD_cons_of_limit hrun ha hk).trans
        (buildLoopD_of_chain hcounts (by rw [hweight]; exact hb) hchain)

end BuildFrom

/-! ## Reachable digests -/

/-- The weight accounting of a digest with `n` samples since its last reset, in `double`. -/
structure CountsD (n : ℕ) (s : TDigest) : Prop where
  total : s.totalWeight = n
  counts : ∀ c ∈ s.centroids, IsCount c.weight
  samples : (s.buffer.length : ℚ) + centroidWeight s.centroids = n

variable {σ : StdSort} {n m : ℕ} {s o s' : TDigest}

theorem CountsD.mergedView (h : CountsD n s) :
    (∀ p ∈ s.mergedView, IsCount p.2) ∧ pairWeight s.mergedView = n := by
  refine ⟨fun p hp => ?_, by rw [pairWeight_mergedView, h.samples]⟩
  simp only [TDigest.mergedView, List.mem_append, List.mem_map] at hp
  rcases hp with ⟨c, hc, rfl⟩ | ⟨v, -, rfl⟩
  · exact h.counts c hc
  · exact ⟨1, one_pos, by simp [sample]⟩

/-- Building from a sorted permutation of a digest's items keeps the accounting. -/
theorem buildFromD_sort_counts (σ : StdSort) {compression : ℚ} {l : List (ℚ × ℚ)}
    {cs : List Centroid} (hl : ∀ p ∈ l, IsCount p.2) (hb : pairWeight l ≤ 2 ^ 53)
    (h : buildFromD compression (σ.sort l) = some cs) :
    (∀ c ∈ cs, IsCount c.weight) ∧ centroidWeight cs = pairWeight l := by
  have hperm := σ.perm l
  obtain ⟨hc, hw⟩ := buildFromD_counts (fun p hp => hl p (hperm.subset hp))
    (by rwa [pairWeight_perm hperm]) h
  exact ⟨hc, hw.trans (pairWeight_perm hperm)⟩

theorem CountsD.new {c : ℚ} (h : TDigest.new c = .ok s) : CountsD 0 s := by
  unfold TDigest.new at h
  split at h
  · cases h
    exact ⟨rfl, fun _ h => absurd h (List.not_mem_nil _), by simp [TDigest.empty]⟩
  · cases h

theorem CountsD.addD (h : CountsD n s) (hn : n + 1 ≤ 2 ^ 53) {x : ℚ}
    (hs : s.addD x = some s') : CountsD (n + 1) s' := by
  rw [TDigest.addD, h.total, ← Nat.cast_one, Binary64.add_natCast hn, Option.bind_eq_bind,
    Option.some_bind] at hs
  cases hs
  refine ⟨rfl, h.counts, ?_⟩
  simp only [List.length_append, List.length_singleton, Nat.cast_add, Nat.cast_one]
  linarith [h.samples]

/-- The vector `compress()` sorts holds counted items that weigh the samples. -/
theorem CountsD.compress_input (h : CountsD n s) :
    (∀ p ∈ s.buffer.map sample ++ s.centroids.map Centroid.toPair, IsCount p.2) ∧
      pairWeight (s.buffer.map sample ++ s.centroids.map Centroid.toPair) = n := by
  obtain ⟨hitems, hweight⟩ := h.mergedView
  have hperm : s.buffer.map sample ++ s.centroids.map Centroid.toPair ~ s.mergedView :=
    List.perm_append_comm
  exact ⟨fun p hp => hitems p (hperm.subset hp), (pairWeight_perm hperm).trans hweight⟩

theorem CountsD.compressD (h : CountsD n s) (hn : n ≤ 2 ^ 53) (hs : s.compressD σ = some s') :
    CountsD n s' := by
  unfold TDigest.compressD at hs
  split at hs
  · cases hs
    exact h
  · obtain ⟨cs, hcs, hs⟩ := Option.bind_eq_some.1 hs
    cases hs
    obtain ⟨hitems, hsum⟩ := h.compress_input
    obtain ⟨hc, hw⟩ := buildFromD_sort_counts σ hitems (by rw [hsum]; exact_mod_cast hn) hcs
    refine ⟨h.total, hc, ?_⟩
    rw [List.length_nil, Nat.cast_zero, zero_add, hw, hsum]

theorem CountsD.mergeD (h : CountsD n s) (ho : CountsD m o) (hn : n + m ≤ 2 ^ 53)
    (hs : s.mergeD σ o = some s') : CountsD (n + m) s' := by
  rw [TDigest.mergeD, h.total, ho.total, Binary64.add_natCast hn, Option.bind_eq_bind,
    Option.some_bind] at hs
  obtain ⟨cs, hcs, hs⟩ := Option.bind_eq_some.1 hs
  cases hs
  obtain ⟨hitems, hweight⟩ := h.mergedView
  obtain ⟨hitems', hweight'⟩ := ho.mergedView
  rw [merge_input_eq] at hcs
  have hsum : pairWeight (s.mergedView ++ o.mergedView) = (n + m : ℕ) := by
    rw [pairWeight_append, hweight, hweight', Nat.cast_add]
  obtain ⟨hc, hw⟩ := buildFromD_sort_counts σ (fun p hp => (List.mem_append.1 hp).elim (hitems p)
    (hitems' p)) (by rw [hsum]; exact_mod_cast hn) hcs
  exact ⟨rfl, hc, by rw [List.length_nil, Nat.cast_zero, zero_add, hw, hsum]⟩

theorem CountsD.reset (s : TDigest) : CountsD 0 s.reset :=
  ⟨rfl, fun _ h => absurd h (List.not_mem_nil _), by simp [TDigest.reset]⟩

/-- Every digest reached with at most `2 ^ 53` samples since its last reset keeps its weight
accounting exact. -/
theorem ReachableD.counts (h : ReachableD σ n s) (hn : n ≤ 2 ^ 53) : CountsD n s := by
  induction h with
  | new h => exact CountsD.new h
  | add x _ hs ih => exact (ih (by omega)).addD hn hs
  | compress _ hs ih => exact (ih hn).compressD hn hs
  | merge _ _ hs ih ih' => exact (ih (by omega)).mergeD (ih' (by omega)) hn hs
  | reset _ _ => exact CountsD.reset _

/-- A run of `add` calls. -/
theorem ReachableD.addAll {zs : List ℚ} (h : ReachableD σ n s)
    (hs : zs.foldlM TDigest.addD s = some s') : ReachableD σ (n + zs.length) s' := by
  induction zs generalizing n s with
  | nil =>
    cases hs
    exact h
  | cons z zs ih =>
    obtain ⟨t, ht, hs⟩ := Option.bind_eq_some.1 hs
    rw [List.length_cons, ← Nat.add_assoc, Nat.add_right_comm]
    exact ih (h.add z ht) hs

/-- `compress()` on a digest with something to compress, once its sort and `build_from` are
known. -/
theorem TDigest.compressD_of_sort {l : List (ℚ × ℚ)} {cs : List Centroid}
    (hne : (s.buffer.isEmpty && s.centroids.isEmpty) = false)
    (hsort : σ.sort (s.buffer.map sample ++ s.centroids.map Centroid.toPair) = l)
    (hb : buildFromD s.compression l = some cs) :
    s.compressD σ = some { s with buffer := [], centroids := cs } := by
  rw [TDigest.compressD, if_neg (Bool.eq_false_iff.1 hne)]
  simp only [hsort, hb, Option.bind_eq_bind, Option.some_bind]

/-- In `double`, on every digest reached with at most `2 ^ 53` samples since its last reset, no
weight is rounded: `total_weight_` is the number of samples, every centroid weight is a
positive whole number, and the buffered samples and the centroid weights add up to
`total_weight_`. -/
theorem reachableD_weights_exact (h : ReachableD σ n s) (hn : n ≤ 2 ^ 53) :
    s.totalWeight = n ∧ (∀ c ∈ s.centroids, IsCount c.weight) ∧
      (s.buffer.length : ℚ) + centroidWeight s.centroids = s.totalWeight :=
  have hc := h.counts hn
  ⟨hc.total, hc.counts, hc.samples.trans hc.total.symm⟩

/-- Samples `4, 1, 3, 2` at compression 8, compressed by insertion sort into two centroids of
weight 2. -/
theorem weights_exact_four_samples :
    ∃ s, ReachableD StdSort.insertion 4 s ∧ s.centroids.length = 2 ∧ (4 : ℕ) ≤ 2 ^ 53 ∧
      s.totalWeight = (4 : ℕ) ∧ (∀ c ∈ s.centroids, IsCount c.weight) ∧
      (s.buffer.length : ℚ) + centroidWeight s.centroids = s.totalWeight :=
  have hadd : [(4 : ℚ), 1, 3, 2].foldlM TDigest.addD (TDigest.empty 8 (by norm_num)) =
      some ⟨8, by norm_num, [4, 1, 3, 2], [], 4⟩ := by decide
  have hcompress : TDigest.compressD StdSort.insertion ⟨8, by norm_num, [4, 1, 3, 2], [], 4⟩ =
      some ⟨8, by norm_num, [], [⟨mkRat 3 2, 2⟩, ⟨mkRat 7 2, 2⟩], 4⟩ := by decide
  have hs := (ReachableD.addAll (.new (TDigest.new_ok _)) hadd).compress hcompress
  ⟨_, hs, rfl, by norm_num, reachableD_weights_exact hs (by norm_num)⟩

end ShardedEcho
