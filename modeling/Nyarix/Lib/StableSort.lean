import Mathlib.Data.List.Sort

/-! Sorting by a key so that members of equal keys stay in order. -/

namespace StableSort
variable {A B : Type*} [LinearOrder B] (key : A → B)

def sort (l : List A) : List A := l.insertionSort fun a b => key a ≤ key b

/-- The same members, by ascending keys, those of each key in the order they had. -/
structure Sorts (l s : List A) : Prop where
  perm : s.Perm l
  ascending : s.Pairwise fun a b => key a ≤ key b
  stable : ∀ b, s.filter (key · = b) = l.filter (key · = b)

theorem sorts_sort (l : List A) : Sorts key l (sort key l) := by
  have htotal : Std.Total fun a b : A => key a ≤ key b := ⟨fun a b => le_total (key a) (key b)⟩
  have htrans : IsTrans A fun a b => key a ≤ key b := ⟨fun _ _ _ => le_trans⟩
  have hperm : (sort key l).Perm l := List.perm_insertionSort _ l
  refine ⟨hperm, List.pairwise_insertionSort _ l, fun b => ?_⟩
  -- the members of one key are in order already, so sorting keeps them as a sublist
  have hsame : (l.filter (key · = b)).Pairwise fun a a' => key a ≤ key a' := by
    refine List.pairwise_of_forall_mem_list fun a ha a' ha' => ?_
    rw [of_decide_eq_true (List.mem_filter.mp ha).2, of_decide_eq_true (List.mem_filter.mp ha').2]
  have hsub := (List.sublist_insertionSort hsame List.filter_sublist).filter (key · = b)
  simp only [List.filter_filter, Bool.and_self] at hsub
  exact (hsub.eq_of_length (hperm.filter _).length_eq.symm).symm

end StableSort
