import Mathlib.Data.List.Induction

/-! Runs of a total step function, as folds over the list of their calls. -/

namespace Fold
variable {S L : Type*} (step : S → L → S)

/-- Every state of the run satisfies `P`, the first and the last one included. -/
def Throughout (P : S → Prop) (s : S) (ls : List L) : Prop := ∀ before, before <+: ls → P (before.foldl step s)

/-- Every call of the run meets `C`, which sees the state it is made in. -/
def Along (C : S → L → Prop) (s : S) (ls : List L) : Prop :=
  ∀ before l, before ++ [l] <+: ls → C (before.foldl step s) l

/-- The last call of the run that changes a value, and the state that it meets; since then the value stands. -/
def LastChange {V : Type*} (value : S → V) (s : S) (ls : List L) (met : S) (l : L) : Prop :=
  ∃ before later, ls = before ++ l :: later ∧ met = before.foldl step s ∧ value (step met l) ≠ value met ∧
    ∀ since, since <+: later → value (since.foldl step (step met l)) = value (step met l)

variable {step}

theorem foldl_concat (s : S) (before : List L) (l : L) :
    (before ++ [l]).foldl step s = step (before.foldl step s) l := by
  rw [List.foldl_append, List.foldl_cons, List.foldl_nil]

theorem foldl_invariant {I : S → Prop} (hstep : ∀ s l, I s → I (step s l)) {s : S} (hs : I s) (ls : List L) :
    I (ls.foldl step s) :=
  List.foldlRecOn ls step hs fun s hI l _ => hstep s l hI

theorem LastChange.changes {V : Type*} {value : S → V} {s met : S} {ls : List L} {l : L}
    (h : LastChange step value s ls met l) : value (step met l) ≠ value met := by
  obtain ⟨before, later, -, -, hchange, -⟩ := h
  exact hchange

theorem exists_lastChange {V : Type*} (value : S → V) {s : S} {ls : List L}
    (h : value (ls.foldl step s) ≠ value s) :
    ∃ met l, LastChange step value s ls met l ∧ value (step met l) = value (ls.foldl step s) := by
  induction ls using List.reverseRecOn with
  | nil => exact absurd rfl h
  | append_singleton ls l ih =>
    rw [foldl_concat] at h ⊢
    by_cases hlast : value (step (ls.foldl step s) l) = value (ls.foldl step s)
    · -- the last call changes nothing, so what the earlier one made still stands
      obtain ⟨met, l', ⟨before, later, rfl, hmet, hchange, hstands⟩, hvalue⟩ := ih (hlast ▸ h)
      refine ⟨met, l', ⟨before, later ++ [l], by simp, hmet, hchange, fun since hsince => ?_⟩, hvalue.trans hlast.symm⟩
      rcases List.prefix_concat_iff.mp hsince with rfl | hsince
      · have hall : later.foldl step (step met l') = (before ++ l' :: later).foldl step s := by
          rw [List.foldl_append, List.foldl_cons, hmet]
        rw [foldl_concat, hall, hlast, hvalue]
      · exact hstands since hsince
    · refine ⟨ls.foldl step s, l, ⟨ls, [], rfl, rfl, hlast, fun since hsince => ?_⟩, rfl⟩
      rw [List.prefix_nil.mp hsince]
      rfl

theorem throughout_iff_along {I P : S → Prop} {C : S → L → Prop} (hinv : ∀ s l, I s → I (step s l))
    (hstep : ∀ s l, I s → P s → (P (step s l) ↔ C s l)) {s : S} (hI : I s) (hP : P s) (ls : List L) :
    Throughout step P s ls ↔ Along step C s ls := by
  constructor
  · intro h before l hprefix
    have hafter := h (before ++ [l]) hprefix
    rw [foldl_concat] at hafter
    exact (hstep _ l (foldl_invariant hinv hI before) (h before ((List.prefix_append _ _).trans hprefix))).mp hafter
  · intro h before
    induction before using List.reverseRecOn with
    | nil => exact fun _ => hP
    | append_singleton before l ih =>
      intro hprefix
      rw [foldl_concat]
      exact (hstep _ l (foldl_invariant hinv hI before) (ih ((List.prefix_append _ _).trans hprefix))).mpr
        (h before l hprefix)

theorem throughout_of_along {P : S → Prop} {C : S → L → Prop} (hstep : ∀ s l, P s → C s l → P (step s l)) {s : S}
    (hP : P s) {ls : List L} (h : Along step C s ls) : Throughout step P s ls := by
  intro before
  induction before using List.reverseRecOn with
  | nil => exact fun _ => hP
  | append_singleton before l ih =>
    intro hprefix
    rw [foldl_concat]
    exact hstep _ l (ih ((List.prefix_append _ _).trans hprefix)) (h before l hprefix)

end Fold
