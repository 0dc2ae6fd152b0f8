import Mathlib.Data.List.Induction

/-! Traces in which every event is allowed by the events before it. -/

namespace Trace
variable {A : Type*} (ok : List A → A → Prop)

def Guarded (t : List A) : Prop := ∀ before a after, t = before ++ a :: after → ok before a

variable {ok}

theorem guarded_nil : Guarded ok [] := fun before a after h => by simp at h

theorem guarded_concat {t : List A} {a : A} : Guarded ok (t ++ [a]) ↔ Guarded ok t ∧ ok t a := by
  constructor
  · refine fun h => ⟨fun before b after ht => ?_, h t a [] rfl⟩
    exact h before b (after ++ [a]) (by rw [ht, List.append_assoc, List.cons_append])
  · rintro ⟨h, ha⟩ before b after ht
    rcases List.eq_nil_or_concat after with rfl | ⟨rest, c, rfl⟩
    · obtain ⟨rfl, hab⟩ := List.append_inj' ht rfl
      rw [← List.head_eq_of_cons_eq hab]
      exact ha
    · rw [List.concat_eq_append, ← List.cons_append, ← List.append_assoc] at ht
      exact h before b rest (List.append_inj' ht rfl).1

theorem Guarded.append {t u : List A} (h : Guarded ok t) (hu : ∀ before a after, u = before ++ a :: after → ok (t ++ before) a) :
    Guarded ok (t ++ u) := by
  induction u using List.reverseRecOn with
  | nil => rwa [List.append_nil]
  | append_singleton u a ih =>
    rw [← List.append_assoc]
    refine guarded_concat.mpr ⟨ih fun before b after hb => ?_, hu u a [] rfl⟩
    exact hu before b (after ++ [a]) (by rw [hb, List.append_assoc, List.cons_append])

end Trace
