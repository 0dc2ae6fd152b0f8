import Mathlib.Data.List.Basic

/-! Noninterference by unwinding. A machine takes calls and gives outputs; some calls are hidden. States
that are related look the same to every visible call that its guard allows, and hidden calls keep them
related, so that the outputs depend on the visible calls only. -/

namespace Unwinding
variable {S C O : Type*} {step : S → C → S × List O} {visible : C → Bool} {guard : S → C → Prop}

def outputs (step : S → C → S × List O) : S → List C → List O
  | _, [] => []
  | s, c :: calls => (step s c).2 ++ outputs step (step s c).1 calls

def Along (step : S → C → S × List O) (guard : S → C → Prop) : S → List C → Prop
  | _, [] => True
  | s, c :: calls => guard s c ∧ Along step guard (step s c).1 calls

structure Unwinds (step : S → C → S × List O) (visible : C → Bool) (guard : S → C → Prop) (rel : S → S → Prop) :
    Prop where
  silent : ∀ s c, visible c = false → (step s c).2 = [] ∧ guard s c
  hidden : ∀ {s t c}, rel s t → visible c = false → rel (step s c).1 t
  shown : ∀ {s t c}, rel s t → visible c = true → rel (step s c).1 (step t c).1
  guarded : ∀ {s t c}, rel s t → visible c = true → (guard s c ↔ guard t c)
  agree : ∀ {s t c}, rel s t → visible c = true → guard s c → (step s c).2 = (step t c).2

namespace Unwinds
variable {rel : S → S → Prop} (h : Unwinds step visible guard rel)
include h

theorem along_filter {s t : S} (hrel : rel s t) (calls : List C) :
    Along step guard s calls ↔ Along step guard t (calls.filter visible) := by
  induction calls generalizing s t with
  | nil => exact Iff.rfl
  | cons c calls ih =>
    cases hc : visible c with
    | false =>
      rw [List.filter_cons_of_neg (by rw [hc]; exact Bool.false_ne_true), Along, and_iff_right (h.silent s c hc).2]
      exact ih (h.hidden hrel hc)
    | true =>
      rw [List.filter_cons_of_pos hc, Along, Along]
      exact and_congr (h.guarded hrel hc) (ih (h.shown hrel hc))

theorem outputs_filter {s t : S} (hrel : rel s t) {calls : List C} (hguard : Along step guard s calls) :
    outputs step s calls = outputs step t (calls.filter visible) := by
  induction calls generalizing s t with
  | nil => rfl
  | cons c calls ih =>
    cases hc : visible c with
    | false =>
      rw [List.filter_cons_of_neg (by rw [hc]; exact Bool.false_ne_true), outputs, (h.silent s c hc).1, List.nil_append]
      exact ih (h.hidden hrel hc) hguard.2
    | true =>
      rw [List.filter_cons_of_pos hc, outputs, outputs, h.agree hrel hc hguard.1]
      exact congrArg _ (ih (h.shown hrel hc) hguard.2)

theorem outputs_eq {s t : S} (hrel : rel s s) (hrel' : rel t s) {calls calls' : List C}
    (hcalls : calls'.filter visible = calls.filter visible) (hguard : Along step guard s calls) :
    outputs step t calls' = outputs step s calls := by
  have hguard' : Along step guard t calls' := by
    rw [h.along_filter hrel', hcalls]
    exact (h.along_filter hrel calls).mp hguard
  rw [h.outputs_filter hrel' hguard', hcalls, h.outputs_filter hrel hguard]

end Unwinds
end Unwinding
