import Mathlib.Algebra.Order.Field.Basic
import Mathlib.Data.List.Pairwise
import Mathlib.Tactic.Linarith
import Mathlib.Tactic.Ring

/-! A token bucket over an ordered field: it holds at most `cap` tokens and gains `rate` tokens in a unit
of time. Some calls ask it for a token; a call that gets none takes none, and has no influence. -/

namespace TokenBucket

structure Bucket (K : Type*) where
  tokens : K
  last : K

section Model
variable {K C : Type*} [Field K] [LinearOrder K] (cap rate : K)

def level (b : Bucket K) (now : K) : K := min (b.tokens + (now - b.last) * rate) cap

def take (b : Bucket K) (now : K) : Bool × Bucket K :=
  if 1 ≤ level cap rate b now then (true, ⟨level cap rate b now - 1, now⟩) else (false, ⟨level cap rate b now, now⟩)

/-- The bucket after a call, and what it gave to the call if it was asked. -/
def step (asks : C → Option K) (b : Bucket K) (c : C) : Option Bool × Bucket K :=
  match asks c with
  | none => (none, b)
  | some now => ((take cap rate b now).1, (take cap rate b now).2)

def trace (asks : C → Option K) : Bucket K → List C → List (C × Option Bool)
  | _, [] => []
  | b, c :: calls => (c, (step cap rate asks b c).1) :: trace asks (step cap rate asks b c).2 calls

def InOrder (asks : C → Option K) (b : Bucket K) (calls : List C) : Prop :=
  (b.last :: calls.filterMap asks).Pairwise (· ≤ ·)

structure Within (b : Bucket K) : Prop where
  nonneg : 0 ≤ b.tokens
  le : b.tokens ≤ cap

def took (asks : C → Option K) (since till : K) (entry : C × Option Bool) : Bool :=
  entry.2 == some true && (asks entry.1).any fun now => since ≤ now && now ≤ till

def granted (asks : C → Option K) (since till : K) (entries : List (C × Option Bool)) : Nat :=
  entries.countP (took asks since till)

end Model

variable {K C : Type*} [Field K] [LinearOrder K] [IsStrictOrderedRing K] {cap rate : K} {asks : C → Option K}
  {b b' : Bucket K} {c : C} {calls : List C} {now since till : K}

omit [IsStrictOrderedRing K] in
theorem step_none (h : asks c = none) (b : Bucket K) : step cap rate asks b c = (none, b) := by
  rw [step, h]

omit [IsStrictOrderedRing K] in
theorem step_some (h : asks c = some now) (b : Bucket K) :
    step cap rate asks b c = (some (take cap rate b now).1, (take cap rate b now).2) := by
  rw [step, h]

omit [IsStrictOrderedRing K] in
theorem take_congr (h : level cap rate b now = level cap rate b' now) : take cap rate b now = take cap rate b' now := by
  rw [take, take, h]

omit [IsStrictOrderedRing K] in
theorem take_last (b : Bucket K) (now : K) : (take cap rate b now).2.last = now := by
  unfold take
  split_ifs <;> rfl

theorem level_nonneg (hrate : 0 ≤ rate) (hcap : 0 ≤ cap) (hb : 0 ≤ b.tokens) (hnow : b.last ≤ now) :
    0 ≤ level cap rate b now :=
  le_min (add_nonneg hb (mul_nonneg (sub_nonneg.mpr hnow) hrate)) hcap

theorem level_level (hrate : 0 ≤ rate) {now later : K} (hlater : now ≤ later) :
    level cap rate ⟨level cap rate b now, now⟩ later = level cap rate b later := by
  have hgain : 0 ≤ (later - now) * rate := mul_nonneg (sub_nonneg.mpr hlater) hrate
  have hsplit : b.tokens + (later - b.last) * rate = b.tokens + (now - b.last) * rate + (later - now) * rate := by ring
  unfold level
  dsimp only
  rw [hsplit, min_add, min_assoc]
  exact congrArg _ (min_eq_right (le_add_of_nonneg_right hgain))

theorem take_nonneg (hrate : 0 ≤ rate) (hcap : 0 ≤ cap) (hb : 0 ≤ b.tokens) (hnow : b.last ≤ now) :
    0 ≤ (take cap rate b now).2.tokens := by
  unfold take
  split_ifs with hone
  · exact sub_nonneg.mpr hone
  · exact level_nonneg hrate hcap hb hnow

theorem within_take (hrate : 0 ≤ rate) (hb : Within cap b) (hnow : b.last ≤ now) : Within cap (take cap rate b now).2 := by
  have hcap : 0 ≤ cap := hb.nonneg.trans hb.le
  have hlevel : level cap rate b now ≤ cap := min_le_right _ _
  refine ⟨take_nonneg hrate hcap hb.nonneg hnow, ?_⟩
  unfold take
  split_ifs
  · exact (sub_le_self _ zero_le_one).trans hlevel
  · exact hlevel

theorem within_step (hrate : 0 ≤ rate) (hb : Within cap b) (hnow : ∀ now, asks c = some now → b.last ≤ now) :
    Within cap (step cap rate asks b c).2 := by
  cases hc : asks c with
  | none => rwa [step_none hc]
  | some now =>
    rw [step_some hc]
    exact within_take hrate hb (hnow now hc)

variable (cap rate) in
omit [IsStrictOrderedRing K] in
theorem InOrder.tail (h : InOrder asks b (c :: calls)) : InOrder asks (step cap rate asks b c).2 calls := by
  unfold InOrder at h ⊢
  cases hc : asks c with
  | none =>
    rw [List.filterMap_cons_none hc] at h
    rwa [step_none hc]
  | some now =>
    rw [List.filterMap_cons_some hc] at h
    rw [step_some hc, take_last]
    exact h.tail

omit [Field K] [IsStrictOrderedRing K] in
theorem InOrder.le (h : InOrder asks b (c :: calls)) (hc : asks c = some now) : b.last ≤ now := by
  unfold InOrder at h
  rw [List.filterMap_cons_some hc] at h
  exact List.rel_of_pairwise_cons h List.mem_cons_self

omit [IsStrictOrderedRing K] in
theorem InOrder.refilled (h : InOrder asks b (c :: calls)) (hc : asks c = some now) :
    InOrder asks ⟨level cap rate b now, now⟩ (c :: calls) := by
  unfold InOrder at h ⊢
  rw [List.filterMap_cons_some hc] at h ⊢
  refine List.pairwise_cons.mpr ⟨fun later hlater => ?_, h.tail⟩
  rcases List.mem_cons.mp hlater with rfl | hlater
  · exact le_refl _
  · exact List.rel_of_pairwise_cons h.tail hlater

theorem trace_refilled (hrate : 0 ≤ rate) (hc : asks c = some now) :
    trace cap rate asks b (c :: calls) = trace cap rate asks ⟨level cap rate b now, now⟩ (c :: calls) := by
  have hsame : step cap rate asks ⟨level cap rate b now, now⟩ c = step cap rate asks b c := by
    rw [step_some hc, step_some hc, take_congr (level_level hrate (le_refl now))]
  rw [trace, trace, hsame]

omit [IsStrictOrderedRing K] in
theorem mem_trace {entry : C × Option Bool} (h : entry ∈ trace cap rate asks b calls) :
    entry.1 ∈ calls ∧ (asks entry.1 = none → entry.2 = none) := by
  induction calls generalizing b with
  | nil => exact absurd h List.not_mem_nil
  | cons c calls ih =>
    rcases List.mem_cons.mp h with rfl | h
    · refine ⟨List.mem_cons_self, fun hc => ?_⟩
      rw [step_none hc]
    · exact ⟨List.mem_cons_of_mem c (ih h).1, (ih h).2⟩

omit [IsStrictOrderedRing K] in
theorem trace_fst (b : Bucket K) (calls : List C) : (trace cap rate asks b calls).map Prod.fst = calls := by
  induction calls generalizing b with
  | nil => rfl
  | cons c calls ih => rw [trace, List.map_cons, ih]

omit [IsStrictOrderedRing K] in
theorem granted_eq_zero (h : InOrder asks b calls) (hlate : till < b.last) :
    granted asks since till (trace cap rate asks b calls) = 0 := by
  refine List.countP_eq_zero.mpr fun entry hentry htook => ?_
  obtain ⟨-, hany⟩ := Bool.and_eq_true_iff.mp htook
  cases hnow : asks entry.1 with
  | none =>
    rw [hnow] at hany
    cases hany
  | some now =>
    have hmem : now ∈ calls.filterMap asks := List.mem_filterMap.mpr ⟨entry.1, (mem_trace hentry).1, hnow⟩
    have hlast : b.last ≤ now := List.rel_of_pairwise_cons h hmem
    rw [hnow, Option.any_some] at hany
    exact absurd (of_decide_eq_true (Bool.and_eq_true_iff.mp hany).2) (not_le.mpr (hlate.trans_le hlast))

omit [Field K] [IsStrictOrderedRing K] in
theorem granted_cons (entry : C × Option Bool) (entries : List (C × Option Bool)) :
    granted asks since till (entry :: entries) =
      granted asks since till entries + if took asks since till entry then 1 else 0 := List.countP_cons

omit [Field K] [IsStrictOrderedRing K] in
theorem not_took_of_ne {entry : C × Option Bool} (h : entry.2 ≠ some true) : took asks since till entry = false := by
  rw [took, beq_false_of_ne h, Bool.false_and]

omit [Field K] [IsStrictOrderedRing K] in
theorem not_took_of_outside {entry : C × Option Bool} (hentry : asks entry.1 = some now) (h : now < since ∨ till < now) :
    took asks since till entry = false := by
  rw [took, hentry, Option.any_some]
  rcases h with h | h
  · rw [decide_eq_false (not_le.mpr h), Bool.false_and, Bool.and_false]
  · rw [decide_eq_false (not_le.mpr h), Bool.and_false, Bool.and_false]

omit [IsStrictOrderedRing K] in
theorem granted_trace_none (hc : asks c = none) : granted asks since till (trace cap rate asks b (c :: calls)) =
    granted asks since till (trace cap rate asks b calls) := by
  rw [trace, granted_cons, step_none hc, not_took_of_ne (by simp), if_neg Bool.false_ne_true, Nat.add_zero]

omit [IsStrictOrderedRing K] in
theorem granted_trace_outside (hc : asks c = some now) (hout : now < since ∨ till < now) :
    granted asks since till (trace cap rate asks b (c :: calls)) =
      granted asks since till (trace cap rate asks (take cap rate b now).2 calls) := by
  rw [trace, granted_cons, step_some hc, not_took_of_outside hc hout, if_neg Bool.false_ne_true, Nat.add_zero]

theorem granted_trace_le (cap rate since till : K) (b : Bucket K) (calls : List C) (hc : asks c = some now) :
    (granted asks since till (trace cap rate asks b (c :: calls)) : K) + (take cap rate b now).2.tokens ≤
      granted asks since till (trace cap rate asks (take cap rate b now).2 calls) + level cap rate b now := by
  rw [trace, granted_cons, step_some hc]
  dsimp only
  by_cases hone : 1 ≤ level cap rate b now
  · have htokens : (take cap rate b now).2.tokens = level cap rate b now - 1 := by rw [take, if_pos hone]
    have hhead : ((if took asks since till (c, some (take cap rate b now).1) then 1 else 0 : Nat) : K) ≤ 1 := by
      split_ifs
      · exact Nat.cast_one.le
      · exact Nat.cast_zero.trans_le zero_le_one
    rw [htokens, Nat.cast_add]
    linarith
  · have htokens : (take cap rate b now).2.tokens = level cap rate b now := by rw [take, if_neg hone]
    have hrefused : (take cap rate b now).1 = false := by rw [take, if_neg hone]
    rw [htokens, hrefused, not_took_of_ne (by simp), if_neg Bool.false_ne_true, Nat.add_zero]

omit [IsStrictOrderedRing K] in
theorem granted_trace_late (h : InOrder asks b (c :: calls)) (hc : asks c = some now) (hlate : till < now) :
    granted asks since till (trace cap rate asks b (c :: calls)) = 0 := by
  have hrest := h.tail cap rate
  rw [step_some hc] at hrest
  rw [granted_trace_outside hc (.inr hlate), granted_eq_zero hrest (by rwa [take_last])]

theorem granted_le_tokens (hrate : 0 ≤ rate) (hcap : 0 ≤ cap) (hb : 0 ≤ b.tokens) (h : InOrder asks b calls)
    (htill : b.last ≤ till) :
    (granted asks since till (trace cap rate asks b calls) : K) ≤ b.tokens + (till - b.last) * rate := by
  induction calls generalizing b with
  | nil =>
    rw [trace, granted, List.countP_nil, Nat.cast_zero]
    exact add_nonneg hb (mul_nonneg (sub_nonneg.mpr htill) hrate)
  | cons c calls ih =>
    have hrest := h.tail cap rate
    cases hc : asks c with
    | none =>
      rw [step_none hc] at hrest
      rw [granted_trace_none hc]
      exact ih hb hrest htill
    | some now =>
      have hle : b.last ≤ now := h.le hc
      rcases lt_or_ge till now with hlate | hnow
      · rw [granted_trace_late h hc hlate, Nat.cast_zero]
        exact add_nonneg hb (mul_nonneg (sub_nonneg.mpr htill) hrate)
      · have hlevel : level cap rate b now ≤ b.tokens + (now - b.last) * rate := min_le_left _ _
        have hsplit : (till - b.last) * rate = (now - b.last) * rate + (till - now) * rate := by ring
        have hcost := granted_trace_le cap rate since till b calls hc
        rw [step_some hc] at hrest
        have hlater := ih (take_nonneg hrate hcap hb hle) hrest (by rwa [take_last])
        rw [take_last] at hlater
        linarith

theorem granted_le (hrate : 0 ≤ rate) (hb : Within cap b) (h : InOrder asks b calls) (hle : since ≤ till) :
    (granted asks since till (trace cap rate asks b calls) : K) ≤ cap + (till - since) * rate := by
  have hcap : 0 ≤ cap := hb.nonneg.trans hb.le
  have hbound : 0 ≤ cap + (till - since) * rate := add_nonneg hcap (mul_nonneg (sub_nonneg.mpr hle) hrate)
  induction calls generalizing b with
  | nil =>
    rw [trace, granted, List.countP_nil, Nat.cast_zero]
    exact hbound
  | cons c calls ih =>
    have hrest := h.tail cap rate
    cases hc : asks c with
    | none =>
      rw [step_none hc] at hrest
      rw [granted_trace_none hc]
      exact ih hb hrest
    | some now =>
      have hnow : b.last ≤ now := h.le hc
      rcases lt_or_ge now since with hearly | hsince
      · -- a call before the time in question grants nothing that counts
        rw [step_some hc] at hrest
        rw [granted_trace_outside hc (.inl hearly)]
        exact ih (within_take hrate hb hnow) hrest
      · rcases lt_or_ge till now with hlate | htill
        · rw [granted_trace_late h hc hlate, Nat.cast_zero]
          exact hbound
        · -- the first call in time finds the bucket refilled to `cap` at most
          have hfull : level cap rate b now ≤ cap := min_le_right _ _
          have hgain : (till - now) * rate ≤ (till - since) * rate :=
            mul_le_mul_of_nonneg_right (sub_le_sub_left hsince till) hrate
          have hnonneg : 0 ≤ level cap rate b now := level_nonneg hrate hcap hb.nonneg hnow
          rw [trace_refilled hrate hc]
          refine (granted_le_tokens hrate hcap hnonneg (h.refilled hc) htill).trans ?_
          exact add_le_add hfull hgain

theorem trace_of_sublist (hrate : 0 ≤ rate) (h : InOrder asks b calls)
    (hlevel : ∀ later, b.last ≤ later → level cap rate b later = level cap rate b' later) {kept : List (C × Option Bool)}
    (hsub : kept.Sublist (trace cap rate asks b calls))
    (hkept : kept.filter (·.2 ≠ some false) = (trace cap rate asks b calls).filter (·.2 ≠ some false)) :
    trace cap rate asks b' (kept.map Prod.fst) = kept := by
  induction calls generalizing b b' kept with
  | nil =>
    rw [List.sublist_nil.mp hsub]
    rfl
  | cons c calls ih =>
    have hrest := h.tail cap rate
    rw [trace] at hsub hkept
    cases hsub with
    | cons _ hsub =>
      have hrefused : (step cap rate asks b c).1 = some false := by
        by_contra hne
        have hlen := (hsub.filter (·.2 ≠ some false)).length_le
        rw [hkept, List.filter_cons_of_pos (by exact decide_eq_true hne), List.length_cons] at hlen
        omega
      rw [List.filter_cons_of_neg (by simp [hrefused])] at hkept
      cases hc : asks c with
      | none =>
        rw [step_none hc] at hrefused
        cases hrefused
      | some now =>
        rw [step_some hc] at hrefused hrest hsub hkept
        have hless : ¬ 1 ≤ level cap rate b now := fun hone => by
          rw [take, if_pos hone] at hrefused
          cases hrefused
        -- the next refill makes up for the one left out
        have htake : (take cap rate b now).2 = ⟨level cap rate b now, now⟩ := by rw [take, if_neg hless]
        rw [htake] at hrest hsub hkept
        refine ih hrest (fun later hlater => ?_) hsub hkept
        rw [level_level hrate hlater]
        exact hlevel later ((h.le hc).trans hlater)
    | @cons_cons kept _ _ hsub =>
      have hrest' : kept.filter (·.2 ≠ some false) =
          (trace cap rate asks (step cap rate asks b c).2 calls).filter (·.2 ≠ some false) := by
        rw [List.filter_cons, List.filter_cons] at hkept
        split_ifs at hkept
        · exact List.tail_eq_of_cons_eq hkept
        · exact hkept
      rw [List.map_cons, trace]
      cases hc : asks c with
      | none =>
        rw [step_none hc] at hrest hsub hrest' ⊢
        rw [step_none hc, ih hrest hlevel hsub hrest']
      | some now =>
        have hsame : step cap rate asks b' c = step cap rate asks b c := by
          rw [step_some hc, step_some hc, take_congr (hlevel now (h.le hc))]
        rw [hsame, ih hrest (fun _ _ => rfl) hsub hrest']

end TokenBucket
