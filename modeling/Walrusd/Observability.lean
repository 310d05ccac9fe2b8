import Mathlib

/-!
# The metrics registry

The counters of `observability/observability.go`, by the hash of a database identifier. An update
runs under the lock of the registry, so it is one step. Of the counter set only the two signals of
the read cache are here, and the counters, of 64 bits in the source, do not wrap around.

## Main definitions

* `hash`, `Metrics`, `Registry`.
* `Registry.record`, `Registry.total`.

## Main results

* `Registry.sum_record` — how an update changes the sum of a signal.
-/

namespace Walrusd.Observability

open List

/-- `Hash`: the FNV-1a hash of a database identifier. -/
def hash (databaseID : String) : UInt64 :=
  databaseID.toUTF8.data.toList.foldl (fun h byte => (h ^^^ byte.toUInt64) * 1099511628211)
    14695981039346656037

/-- The signals of the read cache. -/
structure Metrics where
  readCacheEvictions : ℕ := 0
  activeReadInstances : ℕ := 0
  deriving DecidableEq, Repr

/-- The metrics by hash. -/
structure Registry where
  metrics : List (UInt64 × Metrics)
  deriving DecidableEq, Repr

namespace Registry

/-- `NewRegistry`. -/
def new : Registry := ⟨[]⟩

/-- The metrics of a hash; those of a hash without a bucket are zero. -/
def bucket (r : Registry) (key : UInt64) : Metrics := (r.metrics.lookup key).getD {}

/-- Apply `fn` to the bucket of a hash, which is created if there is none. -/
def update (key : UInt64) (fn : Metrics → Metrics) :
    List (UInt64 × Metrics) → List (UInt64 × Metrics)
  | [] => [(key, fn {})]
  | (k, m) :: rest => if key = k then (k, fn m) :: rest else (k, m) :: update key fn rest

/-- `Record`. -/
def record (r : Registry) (databaseID : String) (fn : Metrics → Metrics) : Registry :=
  ⟨update (hash databaseID) fn r.metrics⟩

/-- The sum of a signal over all buckets. -/
def sum (signal : Metrics → ℕ) (r : Registry) : ℕ := (r.metrics.map fun b => signal b.2).sum

/-- `Total`: the sum of every bucket. -/
def total (r : Registry) : Metrics :=
  ⟨r.sum Metrics.readCacheEvictions, r.sum Metrics.activeReadInstances⟩

/-- An update of a bucket changes the sum of a signal by what it changes in the bucket. -/
theorem sum_record (signal : Metrics → ℕ) (h : signal {} = 0) (r : Registry) (databaseID : String)
    (fn : Metrics → Metrics) :
    (r.record databaseID fn).sum signal + signal (r.bucket (hash databaseID)) =
      r.sum signal + signal (fn (r.bucket (hash databaseID))) := by
  obtain ⟨metrics⟩ := r
  simp only [record, sum, bucket]
  induction metrics with
  | nil => simp [update, h]
  | cons b rest ih =>
    obtain ⟨k, m⟩ := b
    by_cases hk : hash databaseID = k
    · simp only [update, hk, ↓reduceIte, map_cons, sum_cons, lookup_cons,
        beq_self_eq_true, Option.getD_some]
      omega
    have hbeq : (hash databaseID == k) = false := beq_eq_false_iff_ne.mpr hk
    simp only [update, if_neg hk, map_cons, sum_cons, lookup_cons, hbeq]
    omega

end Registry

end Walrusd.Observability
