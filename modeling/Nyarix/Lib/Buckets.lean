import Mathlib.Algebra.Order.Field.Basic
import Mathlib.Data.List.Sort
import Nyarix.Lib.Collection

/-! Order statistics of a list, and their estimates from the number of its members in each bucket. A bucket
reaches from one bound, which is outside, to the next; one more holds what exceeds every bound. -/

namespace Buckets

section Order
variable {K : Type*} [LinearOrder K]

/-- The `k`-th smallest member, counting from one. -/
def kthSmallest (k : Nat) (xs : List K) : Option K := (xs.insertionSort (· ≤ ·))[k - 1]?

/-- The first bucket whose bound `x` does not exceed. -/
def bucketOf (bounds : List K) (x : K) : Nat := (bounds.findIdx? (x ≤ ·)).getD bounds.length

def counts : List K → List K → List Nat
  | [], xs => [xs.length]
  | bound :: bounds, xs => xs.countP (· ≤ bound) :: counts bounds (xs.filter (bound < ·))

/-- An estimate of `x` is in the bucket of `x`, and it is the last bound if `x` exceeds every bound. -/
structure Brackets (lower : K) (bounds : List K) (x estimate : K) : Prop where
  within : ∀ {i below upper}, bounds.findIdx? (x ≤ ·) = some i → (lower :: bounds)[i]? = some below →
    bounds[i]? = some upper → below < estimate ∧ estimate ≤ upper
  beyond : (∀ bound ∈ bounds, bound < x) → (lower :: bounds).getLast? = some estimate

variable {bounds xs : List K} {x b : K} {k : Nat}

theorem kthSmallest_isSome (hk : 0 < k) (h : k ≤ xs.length) : ∃ x, kthSmallest k xs = some x := by
  have hlength : k - 1 < (xs.insertionSort (· ≤ ·)).length := by
    rw [List.length_insertionSort]
    omega
  exact ⟨_, List.getElem?_eq_getElem hlength⟩

theorem le_iff_lt_countP {s : List K} (hs : s.Pairwise (· ≤ ·)) {i : Nat} (h : s[i]? = some x) :
    x ≤ b ↔ i < s.countP (· ≤ b) := by
  induction s generalizing i with
  | nil => cases h
  | cons a s ih =>
    rw [List.pairwise_cons] at hs
    by_cases hab : a ≤ b
    · rw [List.countP_cons_of_pos (by simpa using hab)]
      cases i with
      | zero =>
        obtain rfl : a = x := by simpa using h
        exact iff_of_true hab (Nat.succ_pos _)
      | succ i =>
        rw [ih hs.2 (by simpa using h)]
        omega
    · -- what follows `a` is no smaller, so nothing is up to `b`
      have hnone : (a :: s).countP (· ≤ b) = 0 := by
        refine List.countP_eq_zero.mpr fun y hy hyb => hab ?_
        rcases List.mem_cons.mp hy with rfl | hy
        · exact of_decide_eq_true hyb
        · exact (hs.1 y hy).trans (of_decide_eq_true hyb)
      have hax : a ≤ x := by
        rcases List.mem_cons.mp (List.mem_of_getElem? h) with rfl | hx
        · exact le_rfl
        · exact hs.1 x hx
      rw [hnone]
      exact iff_of_false (fun hxb => hab (hax.trans hxb)) (Nat.not_lt_zero i)

theorem kthSmallest_le_iff (hk : 0 < k) (h : kthSmallest k xs = some x) : x ≤ b ↔ k ≤ xs.countP (· ≤ b) := by
  rw [le_iff_lt_countP (List.pairwise_insertionSort _ xs) h, (List.perm_insertionSort _ xs).countP_eq]
  omega

theorem countP_le_add {lower : K} (h : lower ≤ b) :
    xs.countP (· ≤ lower) + (xs.filter (lower < ·)).countP (· ≤ b) = xs.countP (· ≤ b) := by
  induction xs with
  | nil => rfl
  | cons a xs ih =>
    rcases le_or_gt a lower with ha | ha
    · simp only [List.countP_cons, List.filter_cons, ha, ha.trans h, not_lt.mpr ha, decide_true, decide_false, if_true,
        Bool.false_eq_true, if_false]
      omega
    · simp only [List.countP_cons, List.filter_cons, ha, not_le.mpr ha, decide_true, decide_false, if_true,
        Bool.false_eq_true, if_false]
      omega

@[simp] theorem length_counts : (counts bounds xs).length = bounds.length + 1 := by
  induction bounds generalizing xs with
  | nil => rfl
  | cons bound bounds ih => simp only [counts, List.length_cons, ih]

theorem sumOver_counts : Tally.sumOver id (counts bounds xs) = xs.length := by
  induction bounds generalizing xs with
  | nil => simp only [counts, Tally.sumOver_cons, Tally.sumOver_nil, id, add_zero]
  | cons bound bounds ih =>
    have habove : xs.filter (bound < ·) = xs.filter fun x => ¬decide (x ≤ bound) = true :=
      List.filter_congr fun x _ => by simp only [decide_eq_true_eq, not_le]
    rw [counts, Tally.sumOver_cons, ih, id, habove, ← List.countP_eq_length_filter, ← List.length_eq_countP_add_countP]

theorem counts_concat : counts bounds (xs ++ [x]) = (counts bounds xs).modify (bucketOf bounds x) (· + 1) := by
  induction bounds generalizing xs with
  | nil => simp [counts, bucketOf]
  | cons bound bounds ih =>
    by_cases hx : x ≤ bound
    · simp [counts, bucketOf, List.findIdx?_cons, hx, not_lt.mpr hx]
    · have hbucket : bucketOf (bound :: bounds) x = bucketOf bounds x + 1 := by
        simp only [bucketOf, List.findIdx?_cons, hx, decide_false, Bool.false_eq_true, if_false, List.length_cons]
        cases bounds.findIdx? (x ≤ ·) <;> rfl
      rw [hbucket]
      simp [counts, hx, not_le.mp hx, ih]

theorem Brackets.of_le {lower bound e : K} (hx : x ≤ bound) (hlower : lower < e) (hupper : e ≤ bound) :
    Brackets lower (bound :: bounds) x e where
  within hi hbelow hat := by
    rw [List.findIdx?_cons, if_pos (by simpa using hx), Option.some.injEq] at hi
    subst hi
    obtain rfl : lower = _ := by simpa using hbelow
    obtain rfl : bound = _ := by simpa using hat
    exact ⟨hlower, hupper⟩
  beyond h := absurd hx (not_le.mpr (h bound List.mem_cons_self))

theorem Brackets.of_lt {lower bound e : K} (hx : bound < x) (h : Brackets bound bounds x e) :
    Brackets lower (bound :: bounds) x e where
  within hi hbelow hat := by
    rw [List.findIdx?_cons, if_neg (by simpa using hx)] at hi
    obtain ⟨j, hj, rfl⟩ := Option.map_eq_some_iff.mp hi
    rw [List.getElem?_cons_succ] at hbelow hat
    exact h.within hj hbelow hat
  beyond hall := by
    rw [List.getLast?_cons_cons]
    exact h.beyond fun b hb => hall b (List.mem_cons_of_mem bound hb)

end Order

section Estimate
variable {K : Type*} [Field K] [LinearOrder K] [IsStrictOrderedRing K]

/-- How far rank `k` is into a bucket with `n` members, when `below` members are in the buckets before it. -/
def fraction (below n k : Nat) : K := if n = 0 then 0 else ((k - below : Nat) : K) / n

/-- The estimate of the member of rank `k` from the buckets above `lower`, where `below` members do not exceed
`lower`: the members of a bucket are taken to be spread evenly over it. -/
def estimate (k : Nat) (lower : K) (below : Nat) : List K → List Nat → K
  | bound :: bounds, n :: counts =>
    if k ≤ below + n then lower + fraction below n k * (bound - lower)
    else estimate k bound (below + n) bounds counts
  | _, _ => lower

variable {lower x : K} {below n k k' : Nat} {bounds xs : List K}

theorem fraction_nonneg : 0 ≤ (fraction below n k : K) := by
  unfold fraction
  split
  · exact le_rfl
  · exact div_nonneg (Nat.cast_nonneg _) (Nat.cast_nonneg n)

theorem fraction_pos (hbelow : below < k) (hk : k ≤ below + n) : 0 < (fraction below n k : K) := by
  have hn : 0 < n := by omega
  have hrank : 0 < k - below := Nat.sub_pos_of_lt hbelow
  rw [fraction, if_neg hn.ne']
  exact div_pos (Nat.cast_pos.mpr hrank) (Nat.cast_pos.mpr hn)

theorem fraction_le_one (hk : k ≤ below + n) : (fraction below n k : K) ≤ 1 := by
  unfold fraction
  split
  · exact zero_le_one
  · exact div_le_one_of_le₀ (Nat.cast_le.mpr (by omega)) (Nat.cast_nonneg n)

theorem fraction_mono (hk : k ≤ k') : (fraction below n k : K) ≤ fraction below n k' := by
  unfold fraction
  split
  · exact le_rfl
  · exact div_le_div_of_nonneg_right (Nat.cast_le.mpr (Nat.sub_le_sub_right hk below)) (Nat.cast_nonneg n)

theorem lower_le_estimate (hascending : (lower :: bounds).Pairwise (· < ·)) {counts : List Nat} :
    lower ≤ estimate k lower below bounds counts := by
  induction bounds generalizing lower below counts with
  | nil => exact le_rfl
  | cons bound bounds ih =>
    cases counts with
    | nil => exact le_rfl
    | cons n counts =>
      have hlower : lower < bound := (List.pairwise_cons.mp hascending).1 bound List.mem_cons_self
      unfold estimate
      split
      · exact le_add_of_nonneg_right (mul_nonneg fraction_nonneg (sub_nonneg.mpr hlower.le))
      · exact hlower.le.trans (ih (List.pairwise_cons.mp hascending).2)

theorem interpolated_le (hlower : lower ≤ x) (hk : k ≤ below + n) :
    lower + fraction below n k * (x - lower) ≤ x :=
  calc
    lower + fraction below n k * (x - lower) ≤ lower + (x - lower) :=
      add_le_add_right (mul_le_of_le_one_left (sub_nonneg.mpr hlower) (fraction_le_one hk)) lower
    _ = x := add_sub_cancel lower x

theorem estimate_mono (hascending : (lower :: bounds).Pairwise (· < ·)) (hk : k ≤ k') {counts : List Nat} :
    estimate k lower below bounds counts ≤ estimate k' lower below bounds counts := by
  induction bounds generalizing lower below counts with
  | nil => exact le_rfl
  | cons bound bounds ih =>
    cases counts with
    | nil => exact le_rfl
    | cons n counts =>
      obtain ⟨hlower, hrest⟩ := List.pairwise_cons.mp hascending
      have hbound : lower < bound := hlower bound List.mem_cons_self
      by_cases hk' : k' ≤ below + n
      · rw [estimate, estimate, if_pos hk', if_pos (hk.trans hk')]
        exact add_le_add_right (mul_le_mul_of_nonneg_right (fraction_mono hk) (sub_nonneg.mpr hbound.le)) lower
      · rw [estimate, estimate, if_neg hk']
        split
        case isTrue h => exact (interpolated_le hbound.le h).trans (lower_le_estimate hrest)
        case isFalse h => exact ih hrest

theorem brackets_estimate (hascending : (lower :: bounds).Pairwise (· < ·)) (hbelow : below < k)
    (hx : ∀ bound ∈ bounds, x ≤ bound ↔ k ≤ below + xs.countP (· ≤ bound)) :
    Brackets lower bounds x (estimate k lower below bounds (counts bounds xs)) := by
  induction bounds generalizing lower below xs with
  | nil => exact { within := fun hi => (nomatch hi), beyond := fun _ => rfl }
  | cons bound bounds ih =>
    obtain ⟨hlower, hrest⟩ := List.pairwise_cons.mp hascending
    have hbound : lower < bound := hlower bound List.mem_cons_self
    have hhere := hx bound List.mem_cons_self
    rw [counts, estimate]
    split
    case isTrue h =>
      refine .of_le (hhere.mpr h) ?_ (interpolated_le hbound.le h)
      exact lt_add_of_pos_right lower (mul_pos (fraction_pos hbelow h) (sub_pos.mpr hbound))
    case isFalse h =>
      refine .of_lt (lt_of_not_ge fun hle => h (hhere.mp hle)) (ih hrest (Nat.lt_of_not_le h) fun b hb => ?_)
      have hle : bound ≤ b := ((List.pairwise_cons.mp hrest).1 b hb).le
      rw [hx b (List.mem_cons_of_mem bound hb), Nat.add_assoc, countP_le_add hle]

theorem brackets_kthSmallest (hascending : (lower :: bounds).Pairwise (· < ·)) (hk : 0 < k)
    (h : kthSmallest k xs = some x) : Brackets lower bounds x (estimate k lower 0 bounds (counts bounds xs)) :=
  brackets_estimate hascending hk fun bound _ => by rw [kthSmallest_le_iff hk h, Nat.zero_add]

end Estimate
end Buckets
