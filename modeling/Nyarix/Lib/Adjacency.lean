import Nyarix.Lib.Collection

/-! A directed multigraph kept as a list of edges, and beside it the targets of each vertex
in the order of its outgoing edges. -/

namespace Adjacency
variable {K E : Type*} [DecidableEq K] (source target : E → K)

def targets (edges : List E) (k : K) : List K := (edges.filter (source · = k)).map target

@[simp] theorem targets_nil (k : K) : targets source target [] k = [] := rfl

theorem targets_cons (e : E) (edges : List E) (k : K) : targets source target (e :: edges) k =
    if source e = k then target e :: targets source target edges k
    else targets source target edges k := by
  by_cases h : source e = k <;> simp [targets, h]

theorem targets_append (edges more : List E) (k : K) : targets source target (edges ++ more) k =
    targets source target edges k ++ targets source target more k := by
  simp only [targets, List.filter_append, List.map_append]

theorem targets_detach (edges : List E) {x k : K} (hk : k ≠ x) :
    targets source target (edges.filter fun e => source e ≠ x ∧ target e ≠ x) k =
      (targets source target edges k).filter (· ≠ x) := by
  simp only [targets, List.filter_map, List.filter_filter]
  congr 1
  refine List.filter_congr fun e _ => ?_
  by_cases hs : source e = k <;> simp [hs, hk]

theorem targets_eraseP {edges : List E} {p : E → Bool} {a b : K}
    (hp : ∀ e ∈ edges, p e = true ↔ source e = a ∧ target e = b) (k : K) :
    targets source target (edges.eraseP p) k =
      if k = a then (targets source target edges k).erase b else targets source target edges k := by
  induction edges with
  | nil => simp
  | cons e edges ih =>
    have ih := ih fun e' h => hp e' (List.mem_cons_of_mem e h)
    by_cases h : p e
    · obtain ⟨rfl, rfl⟩ := (hp e List.mem_cons_self).mp h
      rw [List.eraseP_cons_of_pos h, targets_cons]
      by_cases hk : k = source e
      · rw [if_pos hk, if_pos hk.symm, List.erase_cons_head]
      · rw [if_neg hk, if_neg (Ne.symm hk)]
    · have hne : ¬ (source e = a ∧ target e = b) := fun hab => h ((hp e List.mem_cons_self).mpr hab)
      rw [List.eraseP_cons_of_neg h, targets_cons, targets_cons, ih]
      by_cases hk : source e = k
      · rw [if_pos hk, if_pos hk]
        by_cases ha : k = a
        · have hb : target e ≠ b := fun hb => hne ⟨hk.trans ha, hb⟩
          rw [if_pos ha, if_pos ha, List.erase_cons_tail (by simpa using hb)]
        · rw [if_neg ha, if_neg ha]
      · rw [if_neg hk, if_neg hk]

end Adjacency
