import ShardedEcho.TDigest.Basic
import Mathlib.Data.List.Chain
import Mathlib.Algebra.Order.BigOperators.Group.List
import Mathlib.Tactic.Linarith
import Mathlib.Tactic.Ring

/-!
# `build_from`

What the greedy loop of `build_from` guarantees of the centroids it pushes, each proved by
induction along `buildLoop`'s recursion:

* `buildLoop_weight_sum`: the weights add up to the input's;
* `buildLoop_isCount`: counted weights stay counted;
* `buildLoop_inHull`: each mean lies between two samples when every input value does;
* `buildLoop_sorted`: on sorted input the means come out sorted;
* `buildLoop_chain`: any two neighbours weigh more than the limit together, which bounds
  their number (`buildFrom_length_lt`);
* `buildFrom_blocks`: the loop cuts its input into consecutive blocks (`IsBlocking`), each a
  single pair or within the limit and heavier than it with the next block's first pair, and
  pushes each block's weight and weighted mean (`blockCentroid`).
-/

namespace ShardedEcho

open scoped List

/-- A weight that counts samples: a positive natural number. -/
def IsCount (w : ℚ) : Prop := ∃ n : ℕ, 0 < n ∧ w = n

/-- `v` lies between two of the samples `xs`. -/
def InHull (xs : List ℚ) (v : ℚ) : Prop := (∃ a ∈ xs, a ≤ v) ∧ ∃ b ∈ xs, v ≤ b

/-- The total weight of a `merged` vector. -/
def pairWeight (ps : List (ℚ × ℚ)) : ℚ := (ps.map Prod.snd).sum

/-- The total weight of a list of centroids. -/
def centroidWeight (cs : List Centroid) : ℚ := (cs.map Centroid.weight).sum

@[simp] theorem pairWeight_nil : pairWeight [] = 0 := rfl

@[simp] theorem pairWeight_cons (p : ℚ × ℚ) (ps : List (ℚ × ℚ)) :
    pairWeight (p :: ps) = p.2 + pairWeight ps := List.sum_cons

@[simp] theorem pairWeight_append (ps qs : List (ℚ × ℚ)) :
    pairWeight (ps ++ qs) = pairWeight ps + pairWeight qs := by
  simp [pairWeight, List.sum_append]

/-- `Σ v·w` over a `merged` vector. -/
def pairMoment (ps : List (ℚ × ℚ)) : ℚ := (ps.map fun p => p.1 * p.2).sum

@[simp] theorem pairMoment_nil : pairMoment [] = 0 := rfl

@[simp] theorem pairMoment_cons (p : ℚ × ℚ) (ps : List (ℚ × ℚ)) :
    pairMoment (p :: ps) = p.1 * p.2 + pairMoment ps := List.sum_cons

@[simp] theorem pairMoment_append (ps qs : List (ℚ × ℚ)) :
    pairMoment (ps ++ qs) = pairMoment ps + pairMoment qs := by
  simp [pairMoment, List.sum_append]

@[simp] theorem centroidWeight_nil : centroidWeight [] = 0 := rfl

@[simp] theorem centroidWeight_cons (c : Centroid) (cs : List Centroid) :
    centroidWeight (c :: cs) = c.weight + centroidWeight cs := List.sum_cons

theorem pairWeight_map_toPair (cs : List Centroid) :
    pairWeight (cs.map Centroid.toPair) = centroidWeight cs := by
  induction cs with
  | nil => rfl
  | cons c cs ih => simp [ih, Centroid.toPair]

theorem pairWeight_map_sample (xs : List ℚ) : pairWeight (xs.map sample) = xs.length := by
  induction xs with
  | nil => rfl
  | cons x xs ih => simp [ih, sample, add_comm]

theorem StdSort.pairWeight_sort (σ : StdSort) (l : List (ℚ × ℚ)) :
    pairWeight (σ.sort l) = pairWeight l :=
  ((σ.perm l).map Prod.snd).sum_eq

theorem IsCount.pos {w : ℚ} (h : IsCount w) : 0 < w := by
  obtain ⟨n, hn, rfl⟩ := h
  exact_mod_cast hn

theorem IsCount.add {w x : ℚ} (hw : IsCount w) (hx : IsCount x) : IsCount (w + x) := by
  obtain ⟨n, hn, rfl⟩ := hw
  obtain ⟨m, -, rfl⟩ := hx
  exact ⟨n + m, by omega, by push_cast; rfl⟩

/-- A weighted mean of two values lies between them. -/
theorem wavg_between {m v w x : ℚ} (hw : 0 < w) (hx : 0 < x) (h : m ≤ v) :
    m ≤ (m * w + v * x) / (w + x) ∧ (m * w + v * x) / (w + x) ≤ v := by
  have hwx : 0 < w + x := add_pos hw hx
  constructor
  · rw [le_div_iff₀ hwx]; linarith [mul_le_mul_of_nonneg_right h hx.le]
  · rw [div_le_iff₀ hwx]; linarith [mul_le_mul_of_nonneg_right h hw.le]

theorem InHull.wavg {xs : List ℚ} {m v w x : ℚ} (hm : InHull xs m) (hv : InHull xs v)
    (hw : 0 < w) (hx : 0 < x) : InHull xs ((m * w + v * x) / (w + x)) := by
  obtain ⟨⟨a, ha, ham⟩, b, hb, hmb⟩ := hm
  obtain ⟨⟨a', ha', hav⟩, b', hb', hvb⟩ := hv
  rcases le_total m v with h | h
  · obtain ⟨h1, h2⟩ := wavg_between hw hx h
    exact ⟨⟨a, ha, ham.trans h1⟩, b', hb', h2.trans hvb⟩
  · obtain ⟨h1, h2⟩ := wavg_between hx hw h
    rw [add_comm (m * w), add_comm w] at *
    exact ⟨⟨a', ha', hav.trans h1⟩, b, hb, h2.trans hmb⟩

/-! ## The loop -/

section Loop

variable {limit : ℚ}

theorem buildLoop_weight_sum (m w : ℚ) (ps : List (ℚ × ℚ)) :
    centroidWeight (buildLoop limit m w ps) = w + pairWeight ps := by
  induction ps generalizing m w with
  | nil => simp [buildLoop]
  | cons p ps ih =>
    obtain ⟨v, x⟩ := p
    simp only [buildLoop]
    split
    · simp [ih, add_assoc]
    · simp [ih]

theorem buildLoop_isCount {m w : ℚ} {ps : List (ℚ × ℚ)} (hw : IsCount w)
    (hps : ∀ p ∈ ps, IsCount p.2) : ∀ c ∈ buildLoop limit m w ps, IsCount c.weight := by
  induction ps generalizing m w with
  | nil => exact List.forall_mem_singleton.2 hw
  | cons p ps ih =>
    obtain ⟨v, x⟩ := p
    have hx : IsCount x := hps (v, x) (List.mem_cons_self _ _)
    have hrest := fun p hp => hps p (List.mem_cons_of_mem _ hp)
    simp only [buildLoop]
    split
    · exact ih (hw.add hx) hrest
    · exact List.forall_mem_cons.2 ⟨hw, ih hx hrest⟩

theorem buildLoop_inHull {xs : List ℚ} {m w : ℚ} {ps : List (ℚ × ℚ)} (hm : InHull xs m)
    (hw : 0 < w) (hps : ∀ p ∈ ps, InHull xs p.1 ∧ 0 < p.2) :
    ∀ c ∈ buildLoop limit m w ps, InHull xs c.mean := by
  induction ps generalizing m w with
  | nil => exact List.forall_mem_singleton.2 hm
  | cons p ps ih =>
    obtain ⟨v, x⟩ := p
    obtain ⟨hv, hx⟩ := hps (v, x) (List.mem_cons_self _ _)
    have hrest := fun p hp => hps p (List.mem_cons_of_mem _ hp)
    simp only [buildLoop]
    split
    · exact ih (hm.wavg hv hw hx) (add_pos hw hx) hrest
    · exact List.forall_mem_cons.2 ⟨hm, ih hv hx hrest⟩

/-- On input sorted by value and no smaller than the current mean, the pushed means are
sorted and no smaller than it. -/
theorem buildLoop_sorted {m w : ℚ} {ps : List (ℚ × ℚ)} (hsorted : ps.Sorted keyLE)
    (hm : ∀ p ∈ ps, m ≤ p.1) (hw : 0 < w) (hps : ∀ p ∈ ps, 0 < p.2) :
    (buildLoop limit m w ps).Sorted (·.mean ≤ ·.mean) ∧
      ∀ c ∈ buildLoop limit m w ps, m ≤ c.mean := by
  induction ps generalizing m w with
  | nil => simp [buildLoop]
  | cons p ps ih =>
    obtain ⟨v, x⟩ := p
    obtain ⟨hvrest, hsrest⟩ := List.sorted_cons.1 hsorted
    have hmv : m ≤ v := hm (v, x) (List.mem_cons_self _ _)
    have hx : 0 < x := hps (v, x) (List.mem_cons_self _ _)
    have hrest := fun p hp => hps p (List.mem_cons_of_mem _ hp)
    simp only [buildLoop]
    split
    · obtain ⟨h1, h2⟩ := wavg_between hw hx hmv
      obtain ⟨hs, hge⟩ := ih hsrest (fun p hp => h2.trans (hvrest p hp)) (add_pos hw hx) hrest
      exact ⟨hs, fun c hc => h1.trans (hge c hc)⟩
    · obtain ⟨hs, hge⟩ := ih hsrest hvrest hx hrest
      refine ⟨List.sorted_cons.2 ⟨fun c hc => hmv.trans (hge c hc), hs⟩, ?_⟩
      exact List.forall_mem_cons.2 ⟨le_rfl, fun c hc => hmv.trans (hge c hc)⟩

theorem buildLoop_pos {m w : ℚ} {ps : List (ℚ × ℚ)} (hw : 0 < w) (hps : ∀ p ∈ ps, 0 < p.2) :
    ∀ c ∈ buildLoop limit m w ps, 0 < c.weight := by
  induction ps generalizing m w with
  | nil => exact List.forall_mem_singleton.2 hw
  | cons p ps ih =>
    obtain ⟨v, x⟩ := p
    have hx : 0 < x := hps (v, x) (List.mem_cons_self _ _)
    have hrest := fun p hp => hps p (List.mem_cons_of_mem _ hp)
    simp only [buildLoop]
    split
    · exact ih (add_pos hw hx) hrest
    · exact List.forall_mem_cons.2 ⟨hw, ih hx hrest⟩

theorem buildLoop_ne_nil (m w : ℚ) (ps : List (ℚ × ℚ)) : buildLoop limit m w ps ≠ [] := by
  induction ps generalizing m w with
  | nil => simp [buildLoop]
  | cons p ps ih =>
    simp only [buildLoop]
    split
    · exact ih _ _
    · simp

/-- The first centroid weighs at least the current weight. -/
theorem buildLoop_head_weight {m w : ℚ} {ps : List (ℚ × ℚ)} (hps : ∀ p ∈ ps, 0 < p.2) :
    ∀ c ∈ (buildLoop limit m w ps).head?, w ≤ c.weight := by
  induction ps generalizing m w with
  | nil => simp [buildLoop]
  | cons p ps ih =>
    obtain ⟨v, x⟩ := p
    have hx : 0 < x := hps (v, x) (List.mem_cons_self _ _)
    simp only [buildLoop]
    split
    · intro c hc
      linarith [ih (fun p hp => hps p (List.mem_cons_of_mem _ hp)) c hc]
    · simp

/-- Two neighbouring centroids weigh more than the limit together: the second one's first
item did not fit into the first. -/
theorem buildLoop_chain {m w : ℚ} {ps : List (ℚ × ℚ)} (hps : ∀ p ∈ ps, 0 < p.2) :
    (buildLoop limit m w ps).Chain' (fun a b => limit < a.weight + b.weight) := by
  induction ps generalizing m w with
  | nil => simp [buildLoop]
  | cons p ps ih =>
    obtain ⟨v, x⟩ := p
    have hrest := fun p hp => hps p (List.mem_cons_of_mem _ hp)
    simp only [buildLoop]
    split
    · exact ih hrest
    · rename_i hgt
      refine List.chain'_cons'.2 ⟨fun c hc => ?_, ih hrest⟩
      linarith [buildLoop_head_weight hrest c hc, not_le.1 hgt]

/-- The counting argument: along a list whose neighbours weigh more than `limit` together,
each further centroid adds more than `limit` to twice the total. -/
theorem chain_length_mul_le {c : Centroid} {cs : List Centroid}
    (h : (c :: cs).Chain' (fun a b => limit < a.weight + b.weight))
    (hpos : ∀ d ∈ c :: cs, 0 < d.weight) :
    cs.length * limit + c.weight ≤ 2 * centroidWeight (c :: cs) := by
  induction cs generalizing c with
  | nil =>
    rw [List.length_nil, Nat.cast_zero, zero_mul, zero_add, centroidWeight_cons,
      centroidWeight_nil, add_zero]
    linarith [hpos c (List.mem_cons_self _ _)]
  | cons d cs ih =>
    obtain ⟨hcd, hrest⟩ := List.chain'_cons.1 h
    have ih' := ih hrest fun e he => hpos e (List.mem_cons_of_mem _ he)
    simp only [centroidWeight_cons, List.length_cons, Nat.cast_succ] at ih' ⊢
    linarith [hpos c (List.mem_cons_self _ _)]

end Loop

/-! ## `build_from` -/

section BuildFrom

variable {compression : ℚ} {merged : List (ℚ × ℚ)}

theorem buildFrom_weight (compression : ℚ) (merged : List (ℚ × ℚ)) :
    centroidWeight (buildFrom compression merged) = pairWeight merged := by
  cases merged with
  | nil => rfl
  | cons p rest => rw [buildFrom, buildLoop_weight_sum, pairWeight_cons]

theorem buildFrom_ne_nil (h : merged ≠ []) : buildFrom compression merged ≠ [] := by
  cases merged with
  | nil => exact absurd rfl h
  | cons p rest =>
    obtain ⟨v, w⟩ := p
    exact buildLoop_ne_nil v w rest

theorem buildFrom_isCount (h : ∀ p ∈ merged, IsCount p.2) :
    ∀ c ∈ buildFrom compression merged, IsCount c.weight := by
  cases merged with
  | nil => simp [buildFrom]
  | cons p rest =>
    exact buildLoop_isCount (h p (List.mem_cons_self _ _))
      fun q hq => h q (List.mem_cons_of_mem _ hq)

theorem buildFrom_inHull {xs : List ℚ} (h : ∀ p ∈ merged, InHull xs p.1 ∧ 0 < p.2) :
    ∀ c ∈ buildFrom compression merged, InHull xs c.mean := by
  cases merged with
  | nil => simp [buildFrom]
  | cons p rest =>
    obtain ⟨hv, hw⟩ := h p (List.mem_cons_self _ _)
    exact buildLoop_inHull hv hw fun q hq => h q (List.mem_cons_of_mem _ hq)

theorem buildFrom_sorted (hs : merged.Sorted keyLE) (h : ∀ p ∈ merged, 0 < p.2) :
    (buildFrom compression merged).Sorted (·.mean ≤ ·.mean) := by
  cases merged with
  | nil => exact List.sorted_nil
  | cons p rest =>
    obtain ⟨hle, hrest⟩ := List.sorted_cons.1 hs
    exact (buildLoop_sorted hrest hle (h p (List.mem_cons_self _ _))
      fun q hq => h q (List.mem_cons_of_mem _ hq)).1

/-- `build_from`'s centroids are fewer than `compression / 2 + 1`, whatever the input. -/
theorem buildFrom_length_lt (hc : 0 < compression) (h : ∀ p ∈ merged, 0 < p.2) :
    ((buildFrom compression merged).length : ℚ) < compression / 2 + 1 := by
  cases merged with
  | nil => rw [buildFrom, List.length_nil, Nat.cast_zero]; linarith
  | cons p rest =>
    obtain ⟨v, w⟩ := p
    have hw : 0 < w := h (v, w) (List.mem_cons_self _ _)
    have hrest := fun q hq => h q (List.mem_cons_of_mem _ hq)
    set limit := max 1 (4 * pairWeight ((v, w) :: rest) / compression)
    have hout : buildFrom compression ((v, w) :: rest) = buildLoop limit v w rest := rfl
    have hne : buildLoop limit v w rest ≠ [] := buildLoop_ne_nil v w rest
    obtain ⟨d, ds, hds⟩ := List.exists_cons_of_ne_nil hne
    have hpos : ∀ c ∈ buildLoop limit v w rest, 0 < c.weight := buildLoop_pos hw hrest
    have hchain : (buildLoop limit v w rest).Chain' (fun a b => limit < a.weight + b.weight) :=
      buildLoop_chain hrest
    have htotal : centroidWeight (buildLoop limit v w rest) = w + pairWeight rest :=
      buildLoop_weight_sum v w rest
    rw [hds] at hpos hchain htotal
    have hcount := chain_length_mul_le hchain hpos
    have hWeq : pairWeight ((v, w) :: rest) = w + pairWeight rest := pairWeight_cons _ _
    have hW : 0 < pairWeight ((v, w) :: rest) := by
      rw [hWeq]
      exact add_pos_of_pos_of_nonneg hw (List.sum_nonneg fun x hx => by
        obtain ⟨q, hq, rfl⟩ := List.mem_map.1 hx
        exact (hrest q hq).le)
    rw [htotal, ← hWeq] at hcount
    have hlimit : 4 * pairWeight ((v, w) :: rest) ≤ limit * compression :=
      (div_le_iff₀ hc).1 (le_max_right _ _)
    have hk : (ds.length : ℚ) * limit < 2 * pairWeight ((v, w) :: rest) :=
      (lt_add_of_pos_right _ (hpos d (List.mem_cons_self _ _))).trans_le hcount
    have hlen : (ds.length * 2 : ℚ) * (2 * pairWeight ((v, w) :: rest)) <
        compression * (2 * pairWeight ((v, w) :: rest)) := calc
      (ds.length * 2 : ℚ) * (2 * pairWeight ((v, w) :: rest))
          = ds.length * (4 * pairWeight ((v, w) :: rest)) := by ring
      _ ≤ ds.length * (limit * compression) := mul_le_mul_of_nonneg_left hlimit ds.length.cast_nonneg
      _ = ds.length * limit * compression := (mul_assoc _ _ _).symm
      _ < 2 * pairWeight ((v, w) :: rest) * compression := mul_lt_mul_of_pos_right hk hc
      _ = compression * (2 * pairWeight ((v, w) :: rest)) := mul_comm _ _
    rw [hout, hds, List.length_cons, Nat.cast_succ]
    linarith [lt_of_mul_lt_mul_right hlen (mul_pos two_pos hW).le]

end BuildFrom

/-! ## The blocks of `build_from` -/

/-- The centroid a block of a `merged` vector stands for: the block's total weight, and its
weighted mean `Σ v·w / Σ w`. -/
def blockCentroid (block : List (ℚ × ℚ)) : Centroid :=
  ⟨pairMoment block / pairWeight block, pairWeight block⟩

/-- `blocks` cut `merged` as `build_from` does with the limit `limit`: consecutive non-empty
blocks of positive weight, each a single pair or within the limit, and each heavier than the
limit together with the first pair of the next block. -/
structure IsBlocking (limit : ℚ) (merged : List (ℚ × ℚ)) (blocks : List (List (ℚ × ℚ))) :
    Prop where
  flatten : blocks.flatten = merged
  nonempty : ∀ b ∈ blocks, b ≠ []
  pos : ∀ b ∈ blocks, 0 < pairWeight b
  small : ∀ b ∈ blocks, b.length = 1 ∨ pairWeight b ≤ limit
  chain : blocks.Chain' fun b b' => ∀ p ∈ b'.head?, limit < pairWeight b + p.2

section Blocks

variable {limit : ℚ}

/-- The loop of `build_from`, from the block `cur` it is building (weight `w`, mean `m`) over
the rest of `merged`, pushes one centroid per block of a blocking of `cur ++ rest` whose first
block starts with `cur`. -/
theorem buildLoop_blocks {cur : List (ℚ × ℚ)} {m w : ℚ} (hcur : cur ≠ [])
    (hw : pairWeight cur = w) (hm : m * w = pairMoment cur) (hpos : 0 < w)
    (hsize : cur.length = 1 ∨ w ≤ limit) {rest : List (ℚ × ℚ)} (hrest : ∀ p ∈ rest, 0 < p.2) :
    ∃ b bs, IsBlocking limit (cur ++ rest) (b :: bs) ∧ cur <+: b ∧
      buildLoop limit m w rest = (b :: bs).map blockCentroid := by
  induction rest generalizing cur m w with
  | nil =>
    refine ⟨cur, [], ⟨rfl, List.forall_mem_singleton.2 hcur,
      List.forall_mem_singleton.2 (by rwa [hw]), List.forall_mem_singleton.2 (by rwa [hw]),
      List.chain'_singleton _⟩, List.prefix_refl _, ?_⟩
    simp only [buildLoop, List.map_singleton, blockCentroid, hw, ← hm,
      mul_div_cancel_right₀ _ hpos.ne']
  | cons p rest ih =>
    obtain ⟨v, x⟩ := p
    have hx : 0 < x := hrest (v, x) (List.mem_cons_self _ _)
    have hrest' := fun q hq => hrest q (List.mem_cons_of_mem _ hq)
    simp only [buildLoop]
    split
    · -- the pair joins the block being built
      rename_i hjoin
      obtain ⟨b, bs, hb, hpre, heq⟩ := ih (show cur ++ [(v, x)] ≠ [] by simp)
        (show pairWeight (cur ++ [(v, x)]) = w + x by simp [hw])
        (show (m * w + v * x) / (w + x) * (w + x) = pairMoment (cur ++ [(v, x)]) by
          rw [div_mul_cancel₀ _ (add_pos hpos hx).ne', hm]
          simp)
        (add_pos hpos hx) (.inr hjoin) hrest'
      exact ⟨b, bs, List.append_assoc cur [(v, x)] rest ▸ hb, (List.prefix_append _ _).trans hpre,
        heq⟩
    · -- the block is closed, and the pair starts the next one
      rename_i hclose
      obtain ⟨b, bs, hb, hpre, heq⟩ := ih (List.cons_ne_nil (v, x) [])
        (show pairWeight [(v, x)] = x by simp) (show v * x = pairMoment [(v, x)] by simp) hx
        (.inl rfl) hrest'
      have hhead : b.head? = some (v, x) := by
        obtain ⟨t, rfl⟩ := hpre
        rfl
      refine ⟨cur, b :: bs, ⟨congrArg (cur ++ ·) hb.flatten, List.forall_mem_cons.2 ⟨hcur, hb.nonempty⟩,
        List.forall_mem_cons.2 ⟨by rwa [hw], hb.pos⟩, List.forall_mem_cons.2 ⟨by rwa [hw], hb.small⟩,
        ?_⟩, List.prefix_refl _, ?_⟩
      · refine List.chain'_cons'.2 ⟨fun b' hb' p hp => ?_, hb.chain⟩
        rw [List.head?_cons, Option.mem_some_iff] at hb'
        rw [← hb', hhead, Option.mem_some_iff] at hp
        rw [← hp, hw]
        exact not_le.1 hclose
      · rw [List.map_cons, heq, blockCentroid, hw, ← hm, mul_div_cancel_right₀ _ hpos.ne']

end Blocks

/-- `build_from` over a list of pairs of positive weight, in any order and for any
compression, sets `centroids_` to one centroid per block of a blocking of the list with the
limit `max(1, 4W/c)`: each centroid weighs what its block weighs and has its block's weighted
mean. -/
theorem buildFrom_blocks (compression : ℚ) {merged : List (ℚ × ℚ)}
    (h : ∀ p ∈ merged, 0 < p.2) :
    ∃ blocks, IsBlocking (max 1 (4 * pairWeight merged / compression)) merged blocks ∧
      buildFrom compression merged = blocks.map blockCentroid := by
  cases merged with
  | nil => exact ⟨[], ⟨rfl, by simp, by simp, by simp, List.chain'_nil⟩, rfl⟩
  | cons p rest =>
    obtain ⟨v, w⟩ := p
    have hw : 0 < w := h (v, w) (List.mem_cons_self _ _)
    obtain ⟨b, bs, hb, -, heq⟩ := buildLoop_blocks (List.cons_ne_nil (v, w) [])
      (show pairWeight [(v, w)] = w by simp) (show v * w = pairMoment [(v, w)] by simp) hw
      (.inl rfl) fun q hq => h q (List.mem_cons_of_mem _ hq)
    exact ⟨b :: bs, hb, heq⟩

/-- Three pairs at compression 2, cut into blocks with the limit `max(1, 4·4/2)`. -/
theorem buildFrom_blocks_three_pairs :
    ∃ blocks, IsBlocking (max 1 (4 * pairWeight [(1, 1), (2, 1), (5, 2)] / 2))
        [(1, 1), (2, 1), (5, 2)] blocks ∧
      buildFrom 2 [(1, 1), (2, 1), (5, 2)] = blocks.map blockCentroid :=
  buildFrom_blocks 2 (by decide)

end ShardedEcho
