import Mathlib.Data.List.Sort
import Mathlib.Tactic.Ring
import DistributedCache.Lib.GoSlice

/-!
The latencies of a command in `internal/metrics`: a window of the last samples, and its
summary.

A duration is a number of nanoseconds of 64 bits; only the mean adds durations up. The rank
of a percentile is computed in binary floating point.
-/
namespace DistributedCache.Metrics

/-- A number rounded to the 53 bits of a `float64`, and from the middle to the even one of its
neighbours. -/
def roundBits (m : Nat) : Nat :=
  let unit := 2 ^ (m.log2 + 1 - 53)
  let q := m / unit
  let r := m % unit
  (if unit < 2 * r ∨ unit = 2 * r ∧ q % 2 = 1 then q + 1 else q) * unit

/-- `int(float64(n) * p)`. The constants of the percentiles are multiples of `2 ^ -53`, and
`p` is given as such. -/
def rank (n p : Nat) : Nat :=
  roundBits (roundBits n * p) / 2 ^ 53

/-- An index out of range is a panic. -/
def percentile (sorted : List Int) (p : Nat) : Option Int :=
  if sorted = [] then some 0
  else if p = 0 then sorted[0]?
  else if 2 ^ 53 ≤ p then sorted[sorted.length - 1]?
  else sorted[rank (sorted.length - 1) p]?

/-- The constants 0.50, 0.95 and 0.99. -/
def p50 : Nat := 4503599627370496
def p95 : Nat := 8556839292003942
def p99 : Nat := 8917127262193582

structure LatencySnapshot where
  count : Nat := 0
  min : Int := 0
  max : Int := 0
  mean : Int := 0
  p50 : Int := 0
  p95 : Int := 0
  p99 : Int := 0
  deriving DecidableEq, Repr, Inhabited

def computeLatencySnapshot (samples : List Int) : Option LatencySnapshot :=
  if samples = [] then some {}
  else
    let sorted := samples.insertionSort (· ≤ ·)
    let total := sorted.foldl (fun total sample => (total + sample).bmod (2 ^ 64)) 0
    do
      let least ← sorted[0]?
      let greatest ← sorted[sorted.length - 1]?
      let half ← percentile sorted p50
      let most ← percentile sorted p95
      let nearlyAll ← percentile sorted p99
      some {
        count := sorted.length
        min := least
        max := greatest
        mean := total.tdiv sorted.length
        p50 := half
        p95 := most
        p99 := nearlyAll }

structure LatencyTracker where
  samples : GoSlice Int
  capacity : Int

/-- The window is shifted within its array. -/
def LatencyTracker.observe (growth : Nat → Nat) (t : LatencyTracker) (d : Int) :
    Option LatencyTracker :=
  if t.samples.length < t.capacity then
    some { t with samples := t.samples.append growth [d] }
  else do
    let later ← t.samples.tail?
    let shifted := t.samples.clear.append growth later.toList
    some { t with samples := shifted.append growth [d] }

section Rank

/-- Rounding adds at most half of the last bit. -/
theorem roundBits_le (m : Nat) : 2 * roundBits m ≤ 2 * m + 2 ^ (m.log2 + 1 - 53) := by
  have parts := Nat.div_add_mod m (2 ^ (m.log2 + 1 - 53))
  rw [Nat.mul_comm] at parts
  unfold roundBits
  dsimp only
  split
  · rw [Nat.add_mul]
    omega
  · omega

theorem roundBits_eq_self {m : Nat} (small : m.log2 < 53) : roundBits m = m := by
  unfold roundBits
  rw [Nat.sub_eq_zero_of_le small]
  simp [Nat.mod_one]

theorem roundBits_mul_le (m : Nat) : roundBits m * 2 ^ 53 ≤ m * (2 ^ 53 + 1) := by
  by_cases small : m.log2 < 53
  · rw [roundBits_eq_self small]
    omega
  · have positive : m ≠ 0 := by
      rintro rfl
      exact small (by decide)
    have leading : 2 ^ (m.log2 + 1 - 53) * 2 ^ 52 ≤ m := by
      rw [← Nat.pow_add, show m.log2 + 1 - 53 + 52 = m.log2 by omega]
      exact Nat.log2_self_le positive
    calc roundBits m * 2 ^ 53
        = 2 * roundBits m * 2 ^ 52 := by ring
      _ ≤ (2 * m + 2 ^ (m.log2 + 1 - 53)) * 2 ^ 52 := Nat.mul_le_mul_right _ (roundBits_le m)
      _ = m * 2 ^ 53 + 2 ^ (m.log2 + 1 - 53) * 2 ^ 52 := by ring
      _ ≤ m * 2 ^ 53 + m := Nat.add_le_add_left leading _
      _ = m * (2 ^ 53 + 1) := by ring

/-- The rank of a percentile up to 0.99 is that of a sample, however many there are. -/
theorem rank_le {p : Nat} (share : p ≤ p99) (n : Nat) : rank n p ≤ n := by
  have inner := roundBits_mul_le n
  have outer := roundBits_mul_le (roundBits n * p)
  have constant : p * (2 ^ 53 + 1) ^ 2 ≤ 2 ^ 159 :=
    (Nat.mul_le_mul_right _ share).trans (by decide)
  have scaled : roundBits (roundBits n * p) * 2 ^ 106 ≤ n * 2 ^ 53 * 2 ^ 106 := by
    calc roundBits (roundBits n * p) * 2 ^ 106
        = roundBits (roundBits n * p) * 2 ^ 53 * 2 ^ 53 := by ring
      _ ≤ roundBits n * p * (2 ^ 53 + 1) * 2 ^ 53 := Nat.mul_le_mul_right _ outer
      _ = roundBits n * 2 ^ 53 * (p * (2 ^ 53 + 1)) := by ring
      _ ≤ n * (2 ^ 53 + 1) * (p * (2 ^ 53 + 1)) := Nat.mul_le_mul_right _ inner
      _ = n * (p * (2 ^ 53 + 1) ^ 2) := by ring
      _ ≤ n * 2 ^ 159 := Nat.mul_le_mul_left _ constant
      _ = n * 2 ^ 53 * 2 ^ 106 := by ring
  have bound := Nat.le_of_mul_le_mul_right scaled (by decide)
  rw [Nat.mul_comm n] at bound
  exact Nat.div_le_of_le_mul bound

/-- A percentile up to 0.99 of some samples is one of them. -/
theorem percentile_eq {sorted : List Int} (nonempty : sorted ≠ []) {p : Nat} (share : p ≤ p99) :
    ∃ sample, percentile sorted p = some sample := by
  have length := List.length_pos_iff.mpr nonempty
  have index : rank (sorted.length - 1) p < sorted.length :=
    (rank_le share _).trans_lt (by omega)
  unfold percentile
  rw [if_neg nonempty]
  split
  · exact ⟨_, List.getElem?_eq_getElem length⟩
  · rw [if_neg (Nat.not_le.mpr (share.trans_lt (by decide)))]
    exact ⟨_, List.getElem?_eq_getElem index⟩

end Rank

section Summary

variable {samples : List Int}

theorem insertionSort_ne_nil (nonempty : samples ≠ []) :
    samples.insertionSort (· ≤ ·) ≠ [] := by
  rw [← List.length_pos_iff, List.length_insertionSort]
  exact List.length_pos_iff.mpr nonempty

/-- The first of the sorted samples is the least one. -/
theorem getElem?_first (nonempty : samples ≠ []) :
    ∃ least, (samples.insertionSort (· ≤ ·))[0]? = some least ∧ samples.min? = some least := by
  have perm := List.perm_insertionSort (· ≤ ·) samples
  have ordered := List.pairwise_insertionSort (· ≤ ·) samples
  cases sorted : samples.insertionSort (· ≤ ·) with
  | nil => exact absurd sorted (insertionSort_ne_nil nonempty)
  | cons least rest =>
      rw [sorted] at perm ordered
      refine ⟨least, rfl, List.min?_eq_some_iff.mpr ⟨perm.mem_iff.mp List.mem_cons_self, ?_⟩⟩
      intro sample mem
      cases List.mem_cons.mp (perm.mem_iff.mpr mem) with
      | inl same => exact le_of_eq same.symm
      | inr later => exact List.rel_of_pairwise_cons ordered later

/-- The last of the sorted samples is the greatest one. -/
theorem getElem?_last (nonempty : samples ≠ []) :
    ∃ greatest, (samples.insertionSort (· ≤ ·))[(samples.insertionSort (· ≤ ·)).length - 1]? =
      some greatest ∧ samples.max? = some greatest := by
  have perm := List.perm_insertionSort (· ≤ ·) samples
  have ordered := List.pairwise_insertionSort (· ≤ ·) samples
  have split := List.dropLast_concat_getLast (insertionSort_ne_nil nonempty)
  generalize (samples.insertionSort (· ≤ ·)).getLast _ = greatest at split
  rw [← split] at perm ordered ⊢
  refine ⟨greatest, by simp, List.max?_eq_some_iff.mpr ⟨perm.mem_iff.mp (by simp), ?_⟩⟩
  intro sample mem
  cases List.mem_append.mp (perm.mem_iff.mpr mem) with
  | inl earlier =>
      have last := List.mem_singleton_self greatest
      exact (List.pairwise_append.mp ordered).2.2 sample earlier greatest last
  | inr same => exact le_of_eq (List.mem_singleton.mp same)

/-- The summary of some samples has their number, the least and the greatest one. -/
theorem computeLatencySnapshot_eq (nonempty : samples ≠ []) :
    ∃ summary, computeLatencySnapshot samples = some summary ∧
      summary.count = samples.length ∧ samples.min? = some summary.min ∧
      samples.max? = some summary.max := by
  have sorted := insertionSort_ne_nil nonempty
  obtain ⟨least, first, isLeast⟩ := getElem?_first nonempty
  obtain ⟨greatest, last, isGreatest⟩ := getElem?_last nonempty
  obtain ⟨half, foundHalf⟩ := percentile_eq sorted (p := p50) (by decide)
  obtain ⟨most, foundMost⟩ := percentile_eq sorted (p := p95) (by decide)
  obtain ⟨nearlyAll, foundAll⟩ := percentile_eq sorted (p := p99) (le_refl _)
  have computed : ∃ mean, computeLatencySnapshot samples =
      some ⟨samples.length, least, greatest, mean, half, most, nearlyAll⟩ := by
    unfold computeLatencySnapshot
    rw [if_neg nonempty]
    dsimp only
    rw [first, last, foundHalf, foundMost, foundAll, List.length_insertionSort]
    exact ⟨_, rfl⟩
  obtain ⟨mean, computed⟩ := computed
  exact ⟨_, computed, rfl, isLeast, isGreatest⟩

end Summary

section Window

variable {t : LatencyTracker} {c : Int} {latencies : List Int}

/-- A tracker of some capacity that has seen these latencies. -/
structure LatencyTracker.Tracks (t : LatencyTracker) (c : Int) (latencies : List Int) : Prop where
  capacity : t.capacity = c
  samples : t.samples.toList = lastN c.toNat latencies

/-- An observation does not panic, and the window moves on to it. -/
theorem LatencyTracker.Tracks.observe (tracks : t.Tracks c latencies) (positive : 1 ≤ c)
    (growth : Nat → Nat) (d : Int) :
    ∃ t', t.observe growth d = some t' ∧ t'.Tracks c (latencies ++ [d]) := by
  have length : t.samples.length = min latencies.length c.toNat := by
    rw [← GoSlice.length_toList, tracks.samples, length_lastN]
  have shift := lastN_concat (show 1 ≤ c.toNat by omega) latencies d
  unfold LatencyTracker.observe
  split
  · rename_i room
    rw [tracks.capacity, length] at room
    have few : latencies.length < c.toNat := by omega
    refine ⟨_, rfl, tracks.capacity, ?_⟩
    rw [GoSlice.toList_append, tracks.samples, lastN_eq_self (Nat.le_of_lt few), shift, if_pos few]
  · rename_i full
    rw [tracks.capacity, length] at full
    have many : ¬ latencies.length < c.toNat := by omega
    obtain ⟨later, found, tail⟩ := GoSlice.tail?_eq (s := t.samples) (by omega)
    rw [found]
    refine ⟨_, rfl, tracks.capacity, ?_⟩
    rw [GoSlice.toList_append, GoSlice.toList_append, GoSlice.toList_clear, List.nil_append, tail,
      tracks.samples, shift, if_neg many]

end Window

end DistributedCache.Metrics
