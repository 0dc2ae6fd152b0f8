import Mathlib.Data.Rat.Floor
import Nyarix.Lib.Buckets
import Nyarix.Metrics
import Nyarix.Module

/-! Percentiles estimated from a histogram. The estimate for a percentile stays in the bucket of the observation
of that rank, and it does not decrease as the percentile grows. -/

namespace Nyarix

/-- Indexing unwinds out of bounds. -/
def elementAt {A : Type} (l : List A) (i : Nat) : Unwind A :=
  match l[i]? with
  | some a => .returned a
  | none => .panicked ("index out of bounds: the len is " ++ toString l.length ++ " but the index is " ++ toString i)

/-- Unsigned subtraction unwinds where it would underflow. -/
def difference (a b : Nat) : Unwind Nat :=
  if b ≤ a then .returned (a - b) else .panicked "attempt to subtract with overflow"

structure HistogramSnapshot where
  bounds : List ℚ
  counts : List Nat
  sum : ℚ
  count : Nat
  deriving DecidableEq

namespace Histogram

def snapshot (h : Histogram) : HistogramSnapshot := ⟨h.bounds, h.counts, h.sum, h.count⟩

def observed (bounds observations : List ℚ) : Histogram := observations.foldl (fun h value => h.observe value) (new bounds)

theorem counts_nil (bounds : List ℚ) : Buckets.counts bounds [] = List.replicate (bounds.length + 1) 0 := by
  induction bounds with
  | nil => rfl
  | cons bound bounds ih => exact congrArg (0 :: ·) ih

theorem observed_eq (bounds observations : List ℚ) : observed bounds observations =
    ⟨bounds, Buckets.counts bounds observations, Tally.sumOver id observations, observations.length⟩ := by
  induction observations using List.reverseRecOn with
  | nil => rw [counts_nil]; rfl
  | append_singleton observations value ih =>
    have hlast : (Buckets.counts bounds observations).length - 1 = bounds.length := by
      rw [Buckets.length_counts, Nat.add_sub_cancel]
    have hstep : observed bounds (observations ++ [value]) = (observed bounds observations).observe value := by
      rw [observed, List.foldl_append, List.foldl_cons, List.foldl_nil, observed]
    rw [hstep, ih, observe, hlast, Buckets.counts_concat, Tally.sumOver_append, List.length_append]
    simp only [Buckets.bucketOf, Tally.sumOver_cons, Tally.sumOver_nil, id, add_zero, List.length_singleton]

end Histogram

namespace HistogramSnapshot

/-- The scan over the buckets from the `i`-th on, where `cumulative` observations are in the buckets before it. -/
def scan (s : HistogramSnapshot) (target : Nat) : List ℚ → Nat → Nat → Unwind (Option ℚ)
  | [], _, _ => .returned s.bounds.getLast?
  | bound :: bounds, i, cumulative =>
    (elementAt s.counts i).bind fun bucketCount =>
      let next := cumulative + bucketCount
      if target ≤ next then
        (if i = 0 then .returned 0 else elementAt s.bounds (i - 1)).bind fun prevBound =>
          let prevCumulative := cumulative
          (if bucketCount = 0 then .returned 0
            else (difference target prevCumulative).bind fun rank => .returned ((rank : ℚ) / bucketCount)).bind
            fun fraction => .returned (some (prevBound + fraction * (bound - prevBound)))
      else s.scan target bounds (i + 1) next

/-- With no observations there is no estimate; with no bounds it is the mean. -/
def percentile (s : HistogramSnapshot) (p : ℚ) : Unwind (Option ℚ) :=
  if s.count = 0 then .returned none
  else if s.bounds = [] then .returned (some (s.sum / s.count))
  else s.scan ⌈min (max p 0) 1 * s.count⌉₊ s.bounds 0 0

variable {s : HistogramSnapshot} {target cumulative : Nat}

theorem elementAt_eq {A : Type} {l : List A} {i : Nat} {a : A} (h : l[i]? = some a) : elementAt l i = .returned a := by
  rw [elementAt, h]

theorem fraction_eq (h : cumulative ≤ target) (bucketCount : Nat) :
    (if bucketCount = 0 then Unwind.returned (0 : ℚ)
      else (difference target cumulative).bind fun rank => .returned ((rank : ℚ) / bucketCount)) =
      .returned (Buckets.fraction cumulative bucketCount target) := by
  unfold Buckets.fraction
  split
  · rfl
  · rw [difference, if_pos h, Unwind.bind]

theorem scan_eq {done bounds : List ℚ} {counts doneCounts : List Nat} (hbounds : s.bounds = done ++ bounds)
    (hcounts : s.counts = doneCounts ++ counts) (hdone : doneCounts.length = done.length)
    (hlength : bounds.length < counts.length) (hne : s.bounds ≠ []) (htarget : cumulative ≤ target) :
    s.scan target bounds done.length cumulative =
      .returned (some (Buckets.estimate target (done.getLast?.getD 0) cumulative bounds counts)) := by
  induction bounds generalizing done doneCounts counts cumulative with
  | nil =>
    rw [List.append_nil] at hbounds
    obtain ⟨last, hlast⟩ := Option.isSome_iff_exists.mp (List.getLast?_isSome.mpr (hbounds ▸ hne))
    rw [scan, hbounds, hlast, Option.getD_some]
    rfl
  | cons bound bounds ih =>
    obtain ⟨bucketCount, counts, rfl⟩ := List.exists_cons_of_length_pos (Nat.zero_lt_of_lt hlength)
    have hcount : s.counts[done.length]? = some bucketCount := by
      rw [hcounts, ← hdone, List.getElem?_append_right le_rfl, Nat.sub_self, List.getElem?_cons_zero]
    have hprev : (if done.length = 0 then Unwind.returned (0 : ℚ) else elementAt s.bounds (done.length - 1)) =
        .returned (done.getLast?.getD 0) := by
      split
      case isTrue h => rw [List.length_eq_zero_iff.mp h]; rfl
      case isFalse h =>
        have hlt : done.length - 1 < done.length := Nat.sub_one_lt h
        obtain ⟨last, hlast⟩ := Option.isSome_iff_exists.mp (List.getLast?_isSome.mpr (mt List.length_eq_zero_iff.mpr h))
        rw [hlast, Option.getD_some]
        refine elementAt_eq ?_
        rw [hbounds, List.getElem?_append_left hlt, ← List.getLast?_eq_getElem?, hlast]
    rw [scan, elementAt_eq hcount, Unwind.bind, Buckets.estimate]
    dsimp only
    split
    case isTrue h => rw [hprev, Unwind.bind, fraction_eq htarget, Unwind.bind]
    case isFalse h =>
      have hbounds' : s.bounds = (done ++ [bound]) ++ bounds := by
        rw [hbounds, List.append_assoc, List.singleton_append]
      have hcounts' : s.counts = (doneCounts ++ [bucketCount]) ++ counts := by
        rw [hcounts, List.append_assoc, List.singleton_append]
      have hdone' : (doneCounts ++ [bucketCount]).length = (done ++ [bound]).length := by
        rw [List.length_append, List.length_append, hdone, List.length_singleton, List.length_singleton]
      have hnext := ih hbounds' hcounts' hdone' (Nat.lt_of_succ_lt_succ hlength) (Nat.le_of_not_le h)
      rw [List.length_append, List.length_singleton, List.getLast?_concat, Option.getD_some] at hnext
      exact hnext

def rank (p : ℚ) (count : Nat) : Nat := ⌈min (max p 0) 1 * count⌉₊

theorem rank_mono {p q : ℚ} (h : p ≤ q) (count : Nat) : rank p count ≤ rank q count :=
  Nat.ceil_mono (mul_le_mul_of_nonneg_right (min_le_min_right 1 (max_le_max_right 0 h)) (Nat.cast_nonneg count))

theorem rank_le (p : ℚ) (count : Nat) : rank p count ≤ count :=
  Nat.ceil_le.mpr (mul_le_of_le_one_left (Nat.cast_nonneg count) (min_le_right _ 1))

theorem rank_eq {p : ℚ} (hnonneg : 0 ≤ p) (hle : p ≤ 1) (count : Nat) : rank p count = ⌈p * count⌉₊ := by
  rw [rank, max_eq_left hnonneg, min_eq_left hle]

theorem percentile_eq (hcount : s.count ≠ 0) (hbounds : s.bounds ≠ []) (hlength : s.bounds.length < s.counts.length)
    (p : ℚ) : s.percentile p = .returned (some (Buckets.estimate (rank p s.count) 0 0 s.bounds s.counts)) := by
  have hall : s.bounds = [] ++ s.bounds := rfl
  have hcounts : s.counts = [] ++ s.counts := rfl
  rw [percentile, if_neg hcount, if_neg hbounds]
  exact scan_eq hall hcounts rfl hlength hbounds (Nat.zero_le _)

section Observed
variable {bounds observations : List ℚ}

theorem percentile_observed (hbounds : bounds ≠ []) (hobservations : observations ≠ []) (p : ℚ) :
    (Histogram.observed bounds observations).snapshot.percentile p = .returned (some (Buckets.estimate
      (rank p observations.length) 0 0 bounds (Buckets.counts bounds observations))) := by
  have hlength : bounds.length < (Buckets.counts bounds observations).length := by
    rw [Buckets.length_counts]
    exact Nat.lt_succ_self _
  rw [Histogram.observed_eq]
  exact percentile_eq (mt List.length_eq_zero_iff.mp hobservations) hbounds hlength p

theorem percentile_brackets (hascending : bounds.Pairwise (· < ·)) (hpositive : ∀ bound ∈ bounds, 0 < bound)
    (hbounds : bounds ≠ []) (hobservations : observations ≠ []) :
    Tally.sumOver id (Histogram.observed bounds observations).counts = (Histogram.observed bounds observations).count ∧
    (∀ p : ℚ, 0 ≤ p → p ≤ 1 → 1 ≤ ⌈p * (Histogram.observed bounds observations).count⌉₊ →
      ∃ x v, Buckets.kthSmallest ⌈p * (Histogram.observed bounds observations).count⌉₊ observations = some x ∧
        (Histogram.observed bounds observations).snapshot.percentile p = .returned (some v) ∧
        Buckets.Brackets 0 bounds x v) ∧
    ∀ p q : ℚ, p ≤ q → ∃ v w, (Histogram.observed bounds observations).snapshot.percentile p = .returned (some v) ∧
      (Histogram.observed bounds observations).snapshot.percentile q = .returned (some w) ∧ v ≤ w := by
  have hall : (0 :: bounds).Pairwise (· < ·) := List.pairwise_cons.mpr ⟨hpositive, hascending⟩
  have hcount : (Histogram.observed bounds observations).count = observations.length := by rw [Histogram.observed_eq]
  refine ⟨?_, fun p hnonneg hle hk => ?_, fun p q h => ?_⟩
  · rw [Histogram.observed_eq]
    exact Buckets.sumOver_counts
  · rw [hcount, ← rank_eq hnonneg hle] at hk ⊢
    obtain ⟨x, hx⟩ := Buckets.kthSmallest_isSome hk (rank_le p observations.length)
    exact ⟨x, _, hx, percentile_observed hbounds hobservations p, Buckets.brackets_kthSmallest hall hk hx⟩
  · exact ⟨_, _, percentile_observed hbounds hobservations p, percentile_observed hbounds hobservations q,
      Buckets.estimate_mono hall (rank_mono h observations.length)⟩

theorem percentile_brackets_three : ∃ x v, Buckets.kthSmallest 2 [3, 1 / 2, 1] = some x ∧
    (Histogram.observed [1, 2] [3, 1 / 2, 1]).snapshot.percentile (1 / 2) = .returned (some v) ∧
    Buckets.Brackets 0 [1, 2] x v := by
  have hrank : ⌈(1 / 2 : ℚ) * (Histogram.observed [1, 2] [3, 1 / 2, 1]).count⌉₊ = 2 := by
    rw [Histogram.observed_eq, Nat.ceil_eq_iff two_ne_zero]
    norm_num
  have h := (@percentile_brackets [1, 2] [3, 1 / 2, 1] (by decide) (by decide) (by decide) (by decide)).2.1 (1 / 2)
  rw [hrank] at h
  exact h (by norm_num) (by norm_num) one_le_two

end Observed
end HistogramSnapshot
end Nyarix
