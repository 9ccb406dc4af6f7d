import Mathlib.Data.List.Sort
import Mathlib.Algebra.Order.Field.Rat

/-!
# The t-digest

`TDigest` of `src/common/tdigest.hpp`: samples are appended to a buffer, and `compress()`
and `merge()` fold the buffer and the centroids into a new list of centroids with
`build_from`, a greedy pass over the values sorted by `std::sort`. `percentile(q)` walks the
centroids and the buffered samples by cumulative weight.

Values, means and weights are `double` in the source; here they are exact rationals, and
`TDigest/Double.lean` computes as the source does, with every operation rounded. A
`NaN` result is `none`, a thrown `std::invalid_argument` is `Except.error` with its message.

`std::sort` promises a permutation sorted by the comparator, and leaves the order of items
with equal values unspecified: `StdSort` is any function with that contract, and every
operation that sorts takes one.
-/

namespace ShardedEcho

open scoped List

/-! ## Data -/

/-- `TDigest::Centroid`. -/
structure Centroid where
  mean : ℚ
  weight : ℚ
  deriving DecidableEq, Repr

/-- The `(value, weight)` pair a centroid contributes to a `merged` vector. -/
def Centroid.toPair (c : Centroid) : ℚ × ℚ := (c.mean, c.weight)

/-- The `(value, 1.0)` pair a buffered sample contributes to a `merged` vector. -/
def sample (v : ℚ) : ℚ × ℚ := (v, 1)

/-- The order that `std::sort` with the comparator `a.first < b.first` sorts into. -/
def keyLE (a b : ℚ × ℚ) : Prop := a.1 ≤ b.1

instance : DecidableRel keyLE := fun a b => inferInstanceAs (Decidable (a.1 ≤ b.1))

instance : IsTotal (ℚ × ℚ) keyLE := ⟨fun a b => le_total a.1 b.1⟩

instance : IsTrans (ℚ × ℚ) keyLE := ⟨fun _ _ _ h h' => le_trans h h'⟩

/-- `std::sort` on a `merged` vector: a permutation sorted by value. -/
structure StdSort where
  sort : List (ℚ × ℚ) → List (ℚ × ℚ)
  perm : ∀ l, sort l ~ l
  sorted : ∀ l, (sort l).Sorted keyLE

/-- Insertion sort by value is one `std::sort`; it keeps items with equal values in order. -/
def StdSort.insertion : StdSort :=
  ⟨List.insertionSort keyLE, List.perm_insertionSort keyLE, List.sorted_insertionSort keyLE⟩

/-- A `TDigest` object; its constructor only builds one with a positive compression. -/
@[ext] structure TDigest where
  compression : ℚ
  compression_pos : 0 < compression
  buffer : List ℚ
  centroids : List Centroid
  totalWeight : ℚ
  deriving DecidableEq

/-! ## Operations -/

/-- A digest with no samples, as the constructor builds it and `reset()` leaves it. -/
def TDigest.empty (compression : ℚ) (h : 0 < compression) : TDigest :=
  ⟨compression, h, [], [], 0⟩

/-- `TDigest::TDigest`. -/
def TDigest.new (compression : ℚ) : Except String TDigest :=
  if h : 0 < compression then .ok (TDigest.empty compression h)
  else .error "compression must be > 0"

/-- `TDigest::add`. -/
def TDigest.add (s : TDigest) (x : ℚ) : TDigest :=
  { s with buffer := s.buffer ++ [x], totalWeight := s.totalWeight + 1 }

/-- The loop of `build_from`, from the centroid being built (`current_mean`,
`current_weight`) over the rest of `merged`: an item joins the current centroid while the
joint weight stays within `limit`, and otherwise the current centroid is pushed and the item
starts the next one. The unused `cumulative` is left out. -/
def buildLoop (limit : ℚ) : ℚ → ℚ → List (ℚ × ℚ) → List Centroid
  | currentMean, currentWeight, [] => [⟨currentMean, currentWeight⟩]
  | currentMean, currentWeight, (v, w) :: rest =>
    if currentWeight + w ≤ limit then
      buildLoop limit ((currentMean * currentWeight + v * w) / (currentWeight + w))
        (currentWeight + w) rest
    else ⟨currentMean, currentWeight⟩ :: buildLoop limit v w rest

/-- `TDigest::build_from`: the new `centroids_` built from a sorted `merged`, with
`k_limit = 4 · total / compression_`. -/
def buildFrom (compression : ℚ) (merged : List (ℚ × ℚ)) : List Centroid :=
  match merged with
  | [] => []
  | (v, w) :: rest =>
    let total := (merged.map Prod.snd).sum
    buildLoop (max 1 (4 * total / compression)) v w rest

/-- `TDigest::compress`. -/
def TDigest.compress (σ : StdSort) (s : TDigest) : TDigest :=
  if s.buffer.isEmpty && s.centroids.isEmpty then s
  else
    let merged := s.buffer.map sample ++ s.centroids.map Centroid.toPair
    { s with buffer := [], centroids := buildFrom s.compression (σ.sort merged) }

/-- `TDigest::merge`. Everything of `other` is read before `s` is written, so `s.merge σ s`
is the self-merge `a.merge(a)`. -/
def TDigest.merge (σ : StdSort) (s other : TDigest) : TDigest :=
  let merged := s.centroids.map Centroid.toPair ++ s.buffer.map sample ++
    other.centroids.map Centroid.toPair ++ other.buffer.map sample
  { s with buffer := [], centroids := buildFrom s.compression (σ.sort merged),
           totalWeight := s.totalWeight + other.totalWeight }

/-- The vector `percentile` builds before it sorts: centroids, then buffered samples. -/
def TDigest.mergedView (s : TDigest) : List (ℚ × ℚ) :=
  s.centroids.map Centroid.toPair ++ s.buffer.map sample

/-- The loop of `percentile`: the value of the first item whose cumulative weight reaches
`target`, or `none` when the loop runs off the end. -/
def walk (target : ℚ) : ℚ → List (ℚ × ℚ) → Option ℚ
  | _, [] => none
  | cumulative, (v, w) :: rest =>
    if cumulative + w ≥ target then some v else walk target (cumulative + w) rest

/-- The vector `percentile` walks: the merged view, sorted only when samples are buffered. -/
def TDigest.percentileView (σ : StdSort) (s : TDigest) : List (ℚ × ℚ) :=
  if s.buffer.isEmpty then s.mergedView else σ.sort s.mergedView

/-- The end of `percentile`: `NaN` for an empty vector, otherwise the value the walk finds,
or the last value (`merged.back().first`) when the walk runs off the end. -/
def walkOrLast (target : ℚ) (merged : List (ℚ × ℚ)) : Option ℚ :=
  match merged.getLast? with
  | none => none
  | some back => some ((walk target 0 merged).getD back.1)

/-- `TDigest::percentile`; `none` is the quiet NaN. -/
def TDigest.percentile (σ : StdSort) (s : TDigest) (q : ℚ) : Except String (Option ℚ) :=
  if ¬(q ≥ 0 ∧ q ≤ 1) then .error "q must be in [0,1]"
  else if s.totalWeight ≤ 0 then .ok none
  else .ok (walkOrLast (q * s.totalWeight) (s.percentileView σ))

/-- `TDigest::reset`. -/
def TDigest.reset (s : TDigest) : TDigest :=
  { s with buffer := [], centroids := [], totalWeight := 0 }

/-! ## Reachable digests -/

/-- `Reachable σ xs s`: the digest `s` is reached from a constructed one by `add`,
`compress`, `merge` with a reachable digest (itself included) and `reset`, and `xs` are the
samples contributed since its last reset, by `add` on it or on a digest merged into it. -/
inductive Reachable (σ : StdSort) : List ℚ → TDigest → Prop
  | new {c : ℚ} {s : TDigest} : TDigest.new c = .ok s → Reachable σ [] s
  | add {xs : List ℚ} {s : TDigest} (x : ℚ) : Reachable σ xs s → Reachable σ (xs ++ [x]) (s.add x)
  | compress {xs : List ℚ} {s : TDigest} : Reachable σ xs s → Reachable σ xs (s.compress σ)
  | merge {xs ys : List ℚ} {s o : TDigest} : Reachable σ xs s → Reachable σ ys o →
      Reachable σ (xs ++ ys) (s.merge σ o)
  | reset {xs : List ℚ} {s : TDigest} : Reachable σ xs s → Reachable σ [] s.reset

end ShardedEcho
