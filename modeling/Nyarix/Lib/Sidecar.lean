import Mathlib.Data.List.Basic

/-! A list of keys and a list of the values that some of them have, joined again by position. -/

namespace Sidecar
variable {H A B : Type*} (make : A → Option B → H)

def join (keys : List A) (values : List B) : List H := keys.mapIdx fun i a => make a values[i]?

theorem join_cons (a : A) (keys : List A) (values : List B) :
    join make (a :: keys) values = make a values.head? :: join make keys values.tail := by
  rw [join, List.mapIdx_cons, ← List.head?_eq_getElem?]
  congr 1
  refine List.mapIdx_eq_mapIdx_iff.mpr fun i _ => ?_
  rw [List.getElem?_tail]

variable {make} {key : H → A} {value : H → Option B}

theorem join_eq_iff (hmake : ∀ h, make (key h) (value h) = h) (hvalue : ∀ a b, value (make a b) = b) (hs : List H) :
    join make (hs.map key) (hs.filterMap value) = hs ↔
      hs.Pairwise fun earlier later => (value later).isSome → (value earlier).isSome := by
  induction hs with
  | nil => simp [join]
  | cons h hs ih =>
    rw [List.map_cons, join_cons, List.cons.injEq, List.pairwise_cons]
    cases hv : value h with
    | some b =>
      -- the value stands at the front, and the rest is joined with the rest
      rw [List.filterMap_cons_some hv, List.head?_cons, List.tail_cons, ih, ← hv, hmake]
      simp [hv]
    | none =>
      rw [List.filterMap_cons_none hv]
      constructor
      · rintro ⟨hhead, htail⟩
        -- a value that followed would be joined to the first key
        have hempty : hs.filterMap value = [] := by
          have hnone := congrArg value hhead
          rw [hvalue, hv] at hnone
          exact List.head?_eq_none_iff.mp hnone
        have hlater : ∀ later ∈ hs, value later = none := List.filterMap_eq_nil_iff.mp hempty
        refine ⟨fun later hmem hsome => ?_, ih.mp ?_⟩
        · rw [hlater later hmem] at hsome
          cases hsome
        · rw [hempty] at htail ⊢
          exact htail
      · rintro ⟨hlater, hrest⟩
        have hempty : hs.filterMap value = [] := by
          refine List.filterMap_eq_nil_iff.mpr fun later hmem => Option.not_isSome_iff_eq_none.mp fun hsome => ?_
          cases hlater later hmem hsome
        have htail := ih.mpr hrest
        rw [hempty] at htail ⊢
        refine ⟨?_, htail⟩
        rw [List.head?_nil, ← hv, hmake]

end Sidecar
