import Mathlib.Data.List.Induction
import Mathlib.Data.List.Nodup
import Mathlib.Logic.Function.Basic

/-! Things made one after another, each from those made before it. Making may fail, and what others need
of a thing that failed is not there. Every order in which things come after what they need makes the same. -/

namespace Bottomup
variable {K V : Type*} [DecidableEq K] (needs : K → List K) (make : K → (K → Option V) → Option V)

/-- What is made looks at nothing but what it needs. -/
def Local : Prop := ∀ k made made', (∀ d ∈ needs k, made d = made' d) → make k made = make k made'

def step (made : K → Option V) (k : K) : K → Option V := Function.update made k (make k made)

def NeedsFirst (order : List K) : Prop :=
  ∀ front k back, order = front ++ k :: back → ∀ d ∈ needs k, d ∈ order → d ∈ front

/-- Every thing of the order is made from all that is made, and nothing else is. -/
structure Solves (order : List K) (made : K → Option V) : Prop where
  within : ∀ k ∈ order, made k = make k made
  beyond : ∀ k ∉ order, made k = none

variable {needs make} {order front back : List K} {k : K}

theorem foldl_of_notMem (h : k ∉ order) (made : K → Option V) : order.foldl (step make) made k = made k := by
  induction order generalizing made with
  | nil => rfl
  | cons a order ih =>
    rw [List.mem_cons, not_or] at h
    rw [List.foldl_cons, ih h.2]
    exact Function.update_of_ne h.1 _ _

theorem foldl_of_append (hnodup : (front ++ k :: back).Nodup) (made : K → Option V) :
    (front ++ k :: back).foldl (step make) made k = make k (front.foldl (step make) made) := by
  have hback : k ∉ back := (List.nodup_cons.mp (List.nodup_append.mp hnodup).2.1).1
  rw [List.foldl_append, List.foldl_cons, foldl_of_notMem hback]
  exact Function.update_self _ _ _

theorem foldl_front (hnodup : (front ++ k :: back).Nodup) (hfirst : NeedsFirst needs (front ++ k :: back)) {d : K}
    (hd : d ∈ needs k) : front.foldl (step make) (fun _ => none) d =
      (front ++ k :: back).foldl (step make) (fun _ => none) d := by
  have hrest : d ∉ k :: back := by
    intro hmem
    have hfront := hfirst front k back rfl d hd (List.mem_append_right _ hmem)
    exact (List.nodup_append.mp hnodup).2.2 d hfront d hmem rfl
  rw [List.foldl_append, foldl_of_notMem hrest]

theorem solves_foldl (hlocal : Local needs make) (hnodup : order.Nodup) (hfirst : NeedsFirst needs order) :
    Solves make order (order.foldl (step make) fun _ => none) where
  within k hk := by
    obtain ⟨front, back, rfl⟩ := List.append_of_mem hk
    rw [foldl_of_append hnodup]
    exact hlocal k _ _ fun d hd => foldl_front hnodup hfirst hd
  beyond k hk := foldl_of_notMem hk _

theorem Solves.unique (hlocal : Local needs make) (hfirst : NeedsFirst needs order) {made made' : K → Option V}
    (h : Solves make order made) (h' : Solves make order made') : made = made' := by
  have hfronts : ∀ front back, order = front ++ back → ∀ k ∈ front, made k = made' k := by
    intro front
    induction front using List.reverseRecOn with
    | nil => exact fun _ _ k hk => absurd hk List.not_mem_nil
    | append_singleton front a ih =>
      intro back hsplit k hk
      rw [List.append_assoc, List.singleton_append] at hsplit
      rcases List.mem_append.mp hk with hk | hk
      · exact ih (a :: back) hsplit k hk
      · obtain rfl := List.mem_singleton.mp hk
        have hmem : k ∈ order := hsplit ▸ List.mem_append_right _ List.mem_cons_self
        rw [h.within k hmem, h'.within k hmem]
        refine hlocal k _ _ fun d hd => ?_
        by_cases hknown : d ∈ order
        · exact ih (k :: back) hsplit d (hfirst front k back hsplit d hd hknown)
        · rw [h.beyond d hknown, h'.beyond d hknown]
  funext k
  by_cases hk : k ∈ order
  · exact hfronts order [] (List.append_nil order).symm k hk
  · rw [h.beyond k hk, h'.beyond k hk]

omit [DecidableEq K] in
theorem Solves.perm {made : K → Option V} (h : Solves make order made) {order' : List K} (hperm : order.Perm order') :
    Solves make order' made where
  within k hk := h.within k (hperm.mem_iff.mpr hk)
  beyond k hk := h.beyond k fun hmem => hk (hperm.mem_iff.mp hmem)

end Bottomup
